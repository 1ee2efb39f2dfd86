import ConfigHeader.Proofs.Lines
import ConfigHeader.Proofs.Template.UndefEndings

/-! The layout of a text, line by line. Every line is tidied by itself; at the end of a text whose
template does not end with a newline, all lines that are left empty go. -/
namespace ConfigHeader.Template

open Bytes

section EmptyDefinition

variable {line : Bytes}

/-- The line is `#define `, more spaces, a name as long as it can be, and behind it either exactly
` /**/` or only blanks, at least one. -/
def EmptyDefinition (line : Bytes) : Prop :=
  ∃ spaces name ending, line = textBytes "#define " ++ (spaces ++ (name ++ ending)) ∧
    (∀ byte ∈ spaces, byte = 0x20) ∧ IsIdentifier name ∧
    (∀ byte ∈ ending.head?, Byte.isNamePart byte = false) ∧
    (ending = textBytes " /**/" ∨ ending ≠ [] ∧ ∀ byte ∈ ending, Byte.isBlank byte = true)

theorem EmptyDefinition.definesAsEmpty (empty : EmptyDefinition line) :
    definesAsEmpty line = true := by
  obtain ⟨spaces, name, ending, rfl, blank, identifier, stop, closing⟩ := empty
  have inside : ∀ byte ∈ spaces, (byte == 0x20) = true := by simpa using blank
  have named : ∀ byte ∈ (name ++ ending).head?, (byte == 0x20) = false := by
    obtain ⟨first, parts, rfl, start, -⟩ := identifier
    intro byte head
    obtain rfl : first = byte := by simpa using head
    rw [beq_eq_false_iff_ne]
    rintro rfl
    exact absurd start (by decide)
  have filled : ending ≠ [] := by
    rcases closing with placeholder | ⟨filled, -⟩
    · rw [placeholder]
      decide
    · exact filled
  unfold Template.definesAsEmpty
  rw [after?_append]
  simp only [dropWhile_run inside named, leadingName_append identifier stop, List.drop_left]
  simpa [identifier.ne_nil, filled] using closing

theorem emptyDefinition_of_definesAsEmpty (empty : definesAsEmpty line = true) :
    EmptyDefinition line := by
  unfold Template.definesAsEmpty at empty
  split at empty
  · cases empty
  · rename_i rest found
    simp only [Bool.and_eq_true, Bool.or_eq_true, List.all_eq_true, beq_iff_eq,
      Bool.not_eq_true', List.isEmpty_eq_false_iff] at empty
    obtain ⟨⟨named, filled⟩, closing⟩ := empty
    have identifier := (leadingName_eq_nil_or (rest.dropWhile (· == 0x20))).resolve_left named
    have parts := leadingName_append_drop (rest.dropWhile (· == 0x20))
    generalize (rest.dropWhile (· == 0x20)).drop _ = ending at *
    refine ⟨rest.takeWhile (· == 0x20), _, ending, ?_, ?_, identifier, ?_, ?_⟩
    · rw [parts, List.takeWhile_append_dropWhile]
      exact eq_append_of_after? found
    · intro byte member
      simpa using List.mem_takeWhile_imp member
    · intro byte head
      rcases closing with placeholder | blank
      · have first : (textBytes " /**/").head? = some 0x20 := by decide
        rw [placeholder] at head
        obtain rfl := Option.some.inj (first.symm.trans head)
        decide
      · by_contra part
        have other := Byte.isBlank_of_isNamePart (Bool.not_eq_false _ ▸ part)
        rw [blank byte (List.mem_of_mem_head? head)] at other
        cases other
    · exact closing.imp_right fun blank => ⟨filled, blank⟩

theorem definesAsEmpty_iff : definesAsEmpty line = true ↔ EmptyDefinition line :=
  ⟨emptyDefinition_of_definesAsEmpty, EmptyDefinition.definesAsEmpty⟩

instance : Decidable (EmptyDefinition line) :=
  decidable_of_iff _ definesAsEmpty_iff

theorem definesAsEmpty_parts (empty : definesAsEmpty line = true) :
    ∃ rest, line = textBytes "#define " ++ rest ∧ Byte.hash ∉ rest := by
  obtain ⟨spaces, name, ending, rfl, blank, identifier, -, closing⟩ :=
    emptyDefinition_of_definesAsEmpty empty
  refine ⟨_, rfl, ?_⟩
  simp only [List.mem_append, not_or]
  refine ⟨?_, identifier.not_mem rfl, ?_⟩
  · intro member
    exact absurd (blank _ member) (by decide)
  · rcases closing with placeholder | ⟨-, blank⟩
    · rw [placeholder]
      decide
    · intro member
      exact absurd (blank _ member) (by decide)

end EmptyDefinition

/-- A line that defines a name as empty does not end with an `#undef`. -/
theorem EndsWithUndef.not_definesAsEmpty {name blanks line : Bytes}
    (undef : EndsWithUndef name blanks line) : definesAsEmpty line = false := by
  cases empty : definesAsEmpty line with
  | false => rfl
  | true =>
    obtain ⟨rest, rfl, absent⟩ := definesAsEmpty_parts empty
    exact absurd undef
      (@not_endsWithUndef_of_define [] [] rest (by simp) absent name blanks)

/-- A tidied line is what remains of the line without some blanks at its end. -/
theorem tidyLine_parts (line : Bytes) :
    ∃ blanks, line = tidyLine line ++ blanks ∧ ∀ byte ∈ blanks, Byte.isBlank byte = true := by
  unfold tidyLine
  split
  · exact ⟨[], by simp⟩
  · exact dropTrailing_parts Byte.isBlank line

theorem newline_not_mem_tidyLine {line : Bytes} (inside : Byte.newline ∉ line) :
    Byte.newline ∉ tidyLine line := by
  obtain ⟨blanks, parts, -⟩ := tidyLine_parts line
  rw [parts] at inside
  exact fun member => inside (List.mem_append_left _ member)

theorem tidyLine_tidyLine (line : Bytes) : tidyLine (tidyLine line) = tidyLine line := by
  by_cases empty : definesAsEmpty line = true
  · simp [tidyLine, empty]
  · have trimmed : tidyLine line = dropTrailing Byte.isBlank line := by
      rw [tidyLine, if_neg empty]
    rw [trimmed, tidyLine]
    split
    · rfl
    · exact List.rdropWhile_idempotent _ _

theorem tidyLine_eq_nil_iff {line : Bytes} :
    tidyLine line = [] ↔ ∀ byte ∈ line, Byte.isBlank byte = true := by
  by_cases empty : definesAsEmpty line = true
  · obtain ⟨rest, rfl, -⟩ := definesAsEmpty_parts empty
    have filled : textBytes "#define " = Byte.hash :: textBytes "define " := by decide
    rw [tidyLine, if_pos empty, filled]
    simp
    exact fun blank => absurd blank (by decide)
  · rw [tidyLine, if_neg empty, dropTrailing_eq_nil_iff]

/-- Tidying turns an ending with blanks into one without, and keeps one without. -/
theorem endsWithUndef_tidyLine_iff {name line : Bytes} :
    EndsWithUndef name [] (tidyLine line) ↔ ∃ blanks, EndsWithUndef name blanks line := by
  constructor
  · rintro ⟨-, before, directive, spelled, named, same⟩
    obtain ⟨blanks, parts, inside⟩ := tidyLine_parts line
    exact ⟨blanks, inside, before, directive, spelled, named, by simpa [same] using parts⟩
  · rintro ⟨blanks, undef⟩
    have trimmed : tidyLine line = dropTrailing Byte.isBlank line := by
      simp [tidyLine, undef.not_definesAsEmpty]
    obtain ⟨inside, before, directive, spelled, named, same⟩ := undef
    have bare : EndsWithUndef name [] (before ++ directive.head) :=
      ⟨by simp, before, directive, spelled, named, by simp⟩
    have stop : ∀ byte ∈ (before ++ directive.head).getLast?, Byte.isBlank byte = false :=
      fun byte ends => Byte.isBlank_of_isNamePart (bare.isNamePart_last ends)
    rw [trimmed, same, dropTrailing_append_run stop inside]
    exact bare

section Strip

variable {line rest : Bytes}

private theorem tidied_line (inside : Byte.newline ∉ line) (rest : Bytes) :
    stripTrailingBlanks.tidied (line ++ Byte.newline :: rest) =
      tidyLine line ++ Byte.newline :: stripTrailingBlanks.tidied rest := by
  have filled : (rest.splitOn Byte.newline).map tidyLine ≠ [] := by simp
  rw [stripTrailingBlanks.tidied, List.splitOn_append_cons_self_of_not_mem inside, List.map_cons,
    List.intercalate_cons_of_ne_nil filled, stripTrailingBlanks.tidied]
  simp

private theorem tidied_rest (inside : Byte.newline ∉ rest) :
    stripTrailingBlanks.tidied rest = tidyLine rest := by
  simp [stripTrailingBlanks.tidied, List.splitOn_eq_singleton inside]

theorem stripTrailingBlanks_rest (inside : Byte.newline ∉ rest) :
    stripTrailingBlanks rest = tidyLine rest := by
  rw [stripTrailingBlanks, not_endsWithNewline inside, if_neg (by simp), tidied_rest inside]

@[simp] theorem stripTrailingBlanks_nil : stripTrailingBlanks [] = [] :=
  stripTrailingBlanks_rest (by simp)

theorem stripTrailingBlanks_line (inside : Byte.newline ∉ line) (rest : Bytes) :
    stripTrailingBlanks (line ++ Byte.newline :: rest) =
      tidyLine line ++ Byte.newline :: stripTrailingBlanks rest := by
  cases rest with
  | nil =>
    have ends : (line ++ [Byte.newline]).endsWithNewline = true :=
      endsWithNewline_iff.mpr ⟨line, rfl⟩
    rw [stripTrailingBlanks, if_pos ends, List.dropLast_concat, tidied_rest inside,
      stripTrailingBlanks_nil]
  | cons byte rest =>
    have ends := endsWithNewline_newline_cons line (byte :: rest)
    rw [stripTrailingBlanks, stripTrailingBlanks, ends, List.isEmpty_cons, Bool.or_false]
    split
    · have last : (line ++ Byte.newline :: byte :: rest).dropLast =
          line ++ Byte.newline :: (byte :: rest).dropLast := by
        rw [List.dropLast_append_of_ne_nil (by simp)]
        rfl
      rw [last, tidied_line inside]
      simp
    · exact tidied_line inside _

/-- The newline at the end need not be set aside: the lines alone make the layout. -/
theorem stripTrailingBlanks_eq_tidied (content : Bytes) :
    stripTrailingBlanks content = stripTrailingBlanks.tidied content := by
  induction content using lineInduction with
  | rest rest inside => rw [stripTrailingBlanks_rest inside, tidied_rest inside]
  | line line rest inside ih => rw [stripTrailingBlanks_line inside, ih, tidied_line inside]

theorem stripTrailingBlanks_lineLocal : LineLocal stripTrailingBlanks :=
  .of_lines stripTrailingBlanks_nil fun _ rest inside => stripTrailingBlanks_line inside rest

theorem stripTrailingBlanks_linewise : Linewise stripTrailingBlanks tidyLine where
  line _ rest inside := stripTrailingBlanks_line inside rest
  step _ inside := newline_not_mem_tidyLine inside
  rest _ inside := by
    rw [stripTrailingBlanks_rest inside]
    exact newline_not_mem_tidyLine inside

theorem hollow_tidyLine_iff (line : Bytes) : (tidyLine line).Hollow ↔ line.Hollow := by
  obtain ⟨blanks, parts, blank⟩ := tidyLine_parts line
  have dropped : blanks.Hollow := fun byte member => .inr (blank byte member)
  rw [parts, hollow_append]
  rw [← parts]
  simp [dropped]

theorem tidyLine_eq_nil_iff_hollow (inside : Byte.newline ∉ line) :
    tidyLine line = [] ↔ line.Hollow := by
  rw [tidyLine_eq_nil_iff]
  constructor
  · exact fun blank byte member => .inr (blank byte member)
  · intro hollow byte member
    exact (hollow byte member).resolve_left fun same => inside (same ▸ member)

end Strip

/-- The layout of a text whose template does not end with a newline. -/
def trimmed (content : Bytes) : Bytes :=
  dropTrailing (· == Byte.newline) (stripTrailingBlanks content)

section Trimmed

variable {line rest content : Bytes}

theorem endsWithNewline_trimmed (content : Bytes) : (trimmed content).endsWithNewline = false := by
  cases ends : (trimmed content).endsWithNewline with
  | false => rfl
  | true =>
    have last : Byte.newline ∈ (trimmed content).getLast? := by
      simpa [endsWithNewline] using ends
    simpa using getLast?_dropTrailing last

theorem trimmed_rest (inside : Byte.newline ∉ rest) : trimmed rest = tidyLine rest := by
  have fresh := newline_not_mem_tidyLine inside
  have stop : ∀ byte ∈ (tidyLine rest).getLast?, (byte == Byte.newline) = false := by
    intro byte ends
    rw [beq_eq_false_iff_ne]
    rintro rfl
    exact fresh (List.mem_of_getLast? ends)
  rw [trimmed, stripTrailingBlanks_rest inside]
  simpa using @dropTrailing_append_run _ _ [] stop (by simp)

/-- Nothing remains of a text exactly if it holds only blanks and newlines. -/
theorem trimmed_eq_nil_iff : trimmed content = [] ↔ content.Hollow := by
  rw [trimmed, dropTrailing_eq_nil_iff]
  induction content using lineInduction with
  | rest rest inside =>
    rw [stripTrailingBlanks_rest inside, ← tidyLine_eq_nil_iff_hollow inside]
    constructor
    · intro newlines
      refine List.eq_nil_iff_forall_not_mem.mpr fun byte member => ?_
      have newline : byte = Byte.newline := by simpa using newlines byte member
      exact newline_not_mem_tidyLine inside (newline ▸ member)
    · intro empty
      simp [empty]
  | line line rest inside ih =>
    rw [stripTrailingBlanks_line inside, hollow_append, hollow_newline_cons, ← ih,
      ← tidyLine_eq_nil_iff_hollow inside]
    constructor
    · intro newlines
      refine ⟨List.eq_nil_iff_forall_not_mem.mpr fun byte member => ?_, fun byte member => ?_⟩
      · have newline : byte = Byte.newline := by
          simpa using newlines byte (List.mem_append_left _ member)
        exact newline_not_mem_tidyLine inside (newline ▸ member)
      · exact newlines byte (by simp [member])
    · rintro ⟨empty, later⟩
      simpa [empty] using later

/-- The newline of a line goes if nothing remains behind it. -/
theorem trimmed_line_of_hollow (inside : Byte.newline ∉ line) (hollow : rest.Hollow) :
    trimmed (line ++ Byte.newline :: rest) = tidyLine line := by
  have newlines := dropTrailing_eq_nil_iff.mp (trimmed_eq_nil_iff.mpr hollow)
  have alone := trimmed_rest (newline_not_mem_tidyLine inside)
  rw [tidyLine_tidyLine, trimmed, stripTrailingBlanks_rest (newline_not_mem_tidyLine inside),
    tidyLine_tidyLine] at alone
  rw [trimmed, stripTrailingBlanks_line inside, dropTrailing_append, if_pos, alone]
  simpa using newlines

theorem trimmed_line (inside : Byte.newline ∉ line) (filled : ¬ rest.Hollow) :
    trimmed (line ++ Byte.newline :: rest) = tidyLine line ++ Byte.newline :: trimmed rest := by
  have remains : ¬ ∀ byte ∈ stripTrailingBlanks rest, (byte == Byte.newline) = true :=
    fun newlines => filled (trimmed_eq_nil_iff.mp (dropTrailing_eq_nil_iff.mpr newlines))
  rw [trimmed, stripTrailingBlanks_line inside, List.append_cons, dropTrailing_append,
    if_neg (by simpa using remains), trimmed]
  simp

theorem hollow_trimmed_iff : (trimmed content).Hollow ↔ content.Hollow := by
  induction content using lineInduction with
  | rest rest inside => rw [trimmed_rest inside, hollow_tidyLine_iff]
  | line line rest inside ih =>
    by_cases hollow : rest.Hollow
    · rw [trimmed_line_of_hollow inside hollow, hollow_tidyLine_iff]
      simp [hollow]
    · rw [trimmed_line inside hollow]
      simp [hollow, ih]

/-- The lines that remain are tidied, and something stands behind each of them. -/
theorem hasLine_trimmed_iff {holds : Bytes → Prop} :
    HasLine (fun line _ => holds line) (trimmed content) ↔
      HasLine (fun line after => holds (tidyLine line) ∧ ¬ after.Hollow) content := by
  induction content using lineInduction with
  | rest rest inside =>
    rw [trimmed_rest inside]
    exact iff_of_false (not_hasLine (newline_not_mem_tidyLine inside)) (not_hasLine inside)
  | line line rest inside ih =>
    by_cases hollow : rest.Hollow
    · rw [trimmed_line_of_hollow inside hollow]
      exact iff_of_false (not_hasLine (newline_not_mem_tidyLine inside))
        (not_hasLine_of_hollow inside hollow)
    · rw [trimmed_line inside hollow, hasLine_cons (newline_not_mem_tidyLine inside), ih,
        hasLine_cons inside]
      simp [hollow]

end Trimmed

end ConfigHeader.Template
