import ConfigHeader.Proofs.Template.DirectiveGrammar

/-! Parts of a content in which no `#undef` line stands. A byte that stands in no such line ends those
that begin before it, so what follows that byte does not count for them. -/
namespace ConfigHeader.Template

open UndefDirective

variable {part rest : Bytes} {line : UndefDirective} {first : UInt8}

/-- Whether a byte stands in no line, unless at its front. -/
def endsUndefs (byte : UInt8) : Bool :=
  !(Byte.isBlank byte || Byte.isNamePart byte || byte == Byte.newline)

theorem ne_newline_of_endsUndefs (ends : endsUndefs first = true) : first ≠ Byte.newline := by
  rintro rfl
  exact absurd ends (by decide)

theorem UndefDirective.Formed.text_eq (formed : line.Formed) :
    ∃ body, line.text = Byte.hash :: body ∧ ∀ byte ∈ body, endsUndefs byte = false := by
  refine ⟨line.spacing ++ keyword ++ line.gap ++ line.name ++ line.newlines, rfl, ?_⟩
  have letters : ∀ byte ∈ keyword, Byte.isNamePart byte = true :=
    List.all_eq_true.mp (by decide)
  intro byte member
  simp only [List.mem_append] at member
  rcases member with (((spacing | word) | gap) | name) | newline
  · simp [endsUndefs, formed.spacing byte spacing]
  · simp [endsUndefs, letters byte word]
  · simp [endsUndefs, formed.gap byte gap]
  · simp [endsUndefs, formed.name.namePart name]
  · simp [endsUndefs, formed.newlines byte newline]

/-- Whether a line stands at the front of a part is decided before a byte that ends all lines. -/
theorem opens_append_iff (ends : endsUndefs first = true) (filled : part ≠ []) :
    line.Opens (part ++ first :: rest) ↔ line.Opens part := by
  constructor
  · rintro ⟨formed, tail, same, stop⟩
    rcases List.append_eq_append_iff.mp same with ⟨more, text, later⟩ | ⟨more, parts, later⟩
    · cases more with
      | nil => exact ⟨formed, [], by simpa using text.symm, by simp⟩
      | cons byte more =>
        obtain ⟨body, shape, inside⟩ := formed.text_eq
        obtain ⟨head, before, rfl⟩ := List.exists_cons_of_ne_nil filled
        rw [shape, List.cons_append] at text
        have within : first ∈ body := by
          rw [(List.cons.inj text).2, (List.cons.inj later).1]
          simp
        rw [inside first within] at ends
        cases ends
    · refine ⟨formed, more, parts, ?_⟩
      cases more with
      | nil => simp
      | cons byte more => simpa [later] using stop
  · rintro ⟨formed, tail, rfl, stop⟩
    refine ⟨formed, tail ++ first :: rest, by simp, ?_⟩
    cases tail with
    | nil => simpa using ne_newline_of_endsUndefs ends
    | cons byte tail => exact stop

/-- No line stands anywhere in a part of a content, given the rest behind that part. -/
def Unread (part rest : Bytes) : Prop :=
  ∀ before after, part = before ++ after → after ≠ [] →
    ∀ line : UndefDirective, ¬ line.Opens (after ++ rest)

namespace Unread

theorem read?_eq_none {before after : Bytes} (unread : Unread part rest)
    (parts : part = before ++ after) (filled : after ≠ []) : read? (after ++ rest) = none := by
  refine Option.eq_none_iff_forall_ne_some.mpr fun line found => ?_
  exact unread before after parts filled line (read?_eq_some_iff.mp found)

theorem of_read?
    (unread : ∀ before after, part = before ++ after → after ≠ [] → read? (after ++ rest) = none) :
    Unread part rest := by
  intro before after parts filled line opens
  rw [← read?_eq_some_iff, unread before after parts filled] at opens
  cases opens

theorem head (unread : Unread (first :: part) rest) : read? (first :: (part ++ rest)) = none :=
  unread.read?_eq_none (List.nil_append _).symm (List.cons_ne_nil first part)

theorem tail (unread : Unread (first :: part) rest) : Unread part rest :=
  fun before after parts => unread (first :: before) after (congrArg (first :: ·) parts)

theorem nil (rest : Bytes) : Unread [] rest := by
  intro before after parts filled
  exact absurd (List.append_eq_nil_iff.mp parts.symm).2 filled

theorem cons (here : read? (first :: (part ++ rest)) = none)
    (later : Unread part rest) : Unread (first :: part) rest := by
  refine of_read? fun before after parts filled => ?_
  cases before with
  | nil =>
    rw [List.nil_append] at parts
    rw [← parts]
    exact here
  | cons byte before => exact later.read?_eq_none (List.cons.inj parts).2 filled

theorem append {middle : Bytes} (front : Unread part (middle ++ rest))
    (back : Unread middle rest) : Unread (part ++ middle) rest := by
  intro before after parts filled line opens
  rcases List.append_eq_append_iff.mp parts with ⟨more, -, later⟩ | ⟨more, earlier, later⟩
  · exact back more after later filled line opens
  · by_cases empty : more = []
    · rw [empty, List.nil_append] at later
      exact back [] after later.symm filled line opens
    · rw [later, List.append_assoc] at opens
      exact front before more earlier empty line opens

theorem of_hash_not_mem (absent : Byte.hash ∉ part) : Unread part rest := by
  refine of_read? fun before after parts filled => ?_
  obtain ⟨byte, more, rfl⟩ := List.exists_cons_of_ne_nil filled
  refine read?_cons_of_ne _ ?_
  rintro rfl
  exact absent (by simp [parts])

theorem of_newline_not_mem (absent : Byte.newline ∉ part) : Unread part [] := by
  refine of_read? fun before after parts filled => ?_
  refine Option.eq_none_iff_forall_ne_some.mpr fun line found => absent ?_
  have inside := newline_mem_of_read? found
  rw [List.append_nil] at inside
  simp [parts, inside]

end Unread

theorem unread_cons_iff (ends : endsUndefs first = true) :
    Unread part (first :: rest) ↔ Unread part [] := by
  constructor
  · intro unread before after parts filled line opens
    rw [List.append_nil] at opens
    exact unread before after parts filled line ((opens_append_iff ends filled).mpr opens)
  · intro unread before after parts filled line opens
    refine unread before after parts filled line ?_
    rw [List.append_nil]
    exact (opens_append_iff ends filled).mp opens

end ConfigHeader.Template
