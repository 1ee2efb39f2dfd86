import ConfigHeader.Proofs.Utf8Reading

/-! Cuts of valid contents. No character begins within another one, so where a text is found in a
valid content, what stands before it and what stands behind it are valid too. Hence bytes may be
copied one by one, whatever they are part of, as long as only texts are replaced by texts. -/
namespace ConfigHeader.Utf8

/-- The content is read as a text. -/
def Valid (content : Bytes) : Prop :=
  ∃ text, decodeText content = .ok text

/-- The result is the content with some of its texts replaced by texts and all else copied, byte by
byte. -/
inductive Rewritten : Bytes → Bytes → Prop where
  | nil : Rewritten [] []
  | copied {content result : Bytes} (byte : UInt8) (rest : Rewritten content result) :
      Rewritten (byte :: content) (byte :: result)
  | replaced {part text content result : Bytes} (valid : Valid part) (filled : part ≠ [])
      (validText : Valid text) (rest : Rewritten content result) :
      Rewritten (part ++ content) (text ++ result)

variable {first second before after part text content result : Bytes} {byte : UInt8} {char : Char}

theorem valid_iff :
    Valid content ↔ ∃ chars : List Char, content = chars.flatMap String.utf8EncodeChar := by
  simp only [Valid, decodeText_eq_ok_iff]
  constructor
  · intro text
    exact text.imp' String.toList fun _ same => same
  · intro spelled
    refine spelled.imp' String.ofList fun chars same => ?_
    rw [textBytes, String.toList_ofList, same]

theorem valid_nil : Valid [] :=
  valid_iff.mpr ⟨[], rfl⟩

theorem valid_textBytes (text : String) : Valid (textBytes text) :=
  ⟨text, decodeText_eq_ok_iff.mpr rfl⟩

theorem valid_char (char : Char) : Valid (String.utf8EncodeChar char) :=
  valid_iff.mpr ⟨[char], by simp⟩

theorem Valid.append (left : Valid first) (right : Valid second) : Valid (first ++ second) := by
  obtain ⟨chars, rfl⟩ := valid_iff.mp left
  obtain ⟨later, rfl⟩ := valid_iff.mp right
  exact valid_iff.mpr ⟨chars ++ later, by rw [List.flatMap_append]⟩

theorem valid_of_ascii (ascii : ∀ byte ∈ content, byte < 0x80) : Valid content := by
  induction content with
  | nil => exact valid_nil
  | cons first rest ih =>
    have head := valid_char (Char.ofNat first.toNat)
    rw [utf8EncodeChar_of_ascii (ascii first (by simp))] at head
    exact head.append (ih fun byte member => ascii byte (List.mem_cons_of_mem _ member))

/-- Behind a character a valid content goes on with a valid one. -/
theorem Valid.of_char_append (whole : Valid (String.utf8EncodeChar char ++ second)) :
    Valid second := by
  obtain ⟨chars, same⟩ := valid_iff.mp whole
  cases chars with
  | nil => exact absurd (List.append_eq_nil_iff.mp same).1 String.utf8EncodeChar_ne_nil
  | cons other later =>
    have read := congrArg front? same
    rw [List.flatMap_cons, front?_append, front?_append] at read
    obtain ⟨rfl, -⟩ := Prod.mk.inj (Except.ok.inj read)
    rw [List.flatMap_cons] at same
    exact valid_iff.mpr ⟨later, List.append_cancel_left same⟩

theorem Valid.of_append (left : Valid first) (whole : Valid (first ++ second)) : Valid second := by
  obtain ⟨chars, rfl⟩ := valid_iff.mp left
  clear left
  induction chars with
  | nil => exact whole
  | cons char later ih =>
    rw [List.flatMap_cons, List.append_assoc] at whole
    exact ih whole.of_char_append

/-- The first byte of a text is the first byte of a character. -/
theorem Valid.isFirstByte (valid : Valid (byte :: after)) : byte.IsUTF8FirstByte := by
  obtain ⟨chars, same⟩ := valid_iff.mp valid
  cases chars with
  | nil => cases same
  | cons char later =>
    obtain ⟨lead, others, form⟩ := List.exists_cons_of_ne_nil (@String.utf8EncodeChar_ne_nil char)
    rw [List.flatMap_cons, form] at same
    obtain ⟨rfl, -⟩ := List.cons.inj same
    have begins := (@UInt8.isUTF8FirstByte_getElem_utf8EncodeChar char 0 (by simp [form])).mpr rfl
    simpa only [form, List.getElem_cons_zero] using begins

/-- Only the first byte of a character begins one. -/
private theorem eq_nil_of_char (form : String.utf8EncodeChar char = before ++ byte :: after)
    (begins : byte.IsUTF8FirstByte) : before = [] := by
  have inside : before.length < (String.utf8EncodeChar char).length := by
    rw [form, List.length_append, List.length_cons]
    omega
  have held : (String.utf8EncodeChar char)[before.length] = byte := by
    simp [form]
  rw [← held, UInt8.isUTF8FirstByte_getElem_utf8EncodeChar] at begins
  exact List.eq_nil_of_length_eq_zero begins

/-- A valid content may be cut before every byte that begins a character. -/
theorem Valid.of_cut (whole : Valid (before ++ byte :: after)) (begins : byte.IsUTF8FirstByte) :
    Valid before := by
  obtain ⟨chars, same⟩ := valid_iff.mp whole
  clear whole
  induction chars generalizing before with
  | nil => simp at same
  | cons char later ih =>
    rw [List.flatMap_cons] at same
    rcases List.append_eq_append_iff.mp same with ⟨more, form, behind⟩ | ⟨more, rfl, behind⟩
    · cases more with
      | nil =>
        rw [List.append_nil] at form
        exact form ▸ valid_char char
      | cons head more =>
        obtain ⟨rfl, -⟩ := List.cons.inj behind
        rw [eq_nil_of_char form begins]
        exact valid_nil
    · exact (valid_char char).append (ih behind.symm)

/-- Around a text in a valid content both sides are valid: it cannot begin inside a character. -/
theorem Valid.around (whole : Valid (before ++ part ++ after)) (valid : Valid part)
    (filled : part ≠ []) : Valid before ∧ Valid after := by
  obtain ⟨byte, others, rfl⟩ := List.exists_cons_of_ne_nil filled
  have first : Valid before := by
    rw [List.append_assoc] at whole
    exact whole.of_cut valid.isFirstByte
  exact ⟨first, (first.append valid).of_append whole⟩

namespace Rewritten

theorem refl (content : Bytes) : Rewritten content content := by
  induction content with
  | nil => exact .nil
  | cons byte rest ih => exact .copied byte ih

theorem append {content' result' : Bytes} (left : Rewritten content result)
    (right : Rewritten content' result') : Rewritten (content ++ content') (result ++ result') := by
  induction left with
  | nil => exact right
  | copied byte rest ih => exact .copied byte ih
  | replaced valid filled validText rest ih =>
    rw [List.append_assoc, List.append_assoc]
    exact .replaced valid filled validText ih

theorem of_dropped (kept : Bytes) (valid : Valid part) : Rewritten (kept ++ part) kept := by
  cases part with
  | nil => simpa using refl kept
  | cons byte rest =>
    have none : Rewritten (byte :: rest) [] := by
      simpa using replaced valid (by simp) valid_nil .nil
    simpa using (refl kept).append none

/-- The bytes of a character may stand on both sides of a step, so what was copied is kept in view
until the next text is found. -/
theorem valid_append (rewritten : Rewritten content result) (whole : Valid (before ++ content)) :
    Valid (before ++ result) := by
  induction rewritten generalizing before with
  | nil => exact whole
  | copied byte rest ih =>
    rw [List.append_cons] at whole ⊢
    exact ih whole
  | replaced valid filled validText rest ih =>
    rw [← List.append_assoc] at whole
    obtain ⟨first, behind⟩ := whole.around valid filled
    exact first.append (validText.append (@ih [] behind))

/-- Replacing texts by texts keeps a content valid, wherever the cuts are made. -/
theorem valid (rewritten : Rewritten content result) (valid : Valid content) : Valid result :=
  @valid_append [] _ _ rewritten valid

end Rewritten

end ConfigHeader.Utf8
