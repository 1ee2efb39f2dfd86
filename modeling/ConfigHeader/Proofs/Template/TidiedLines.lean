import ConfigHeader.Proofs.Template.LayoutLines

namespace ConfigHeader

namespace Bytes

/-- Only blanks stand before the next newline or before the end. -/
def BlankToLineEnd (content : Bytes) : Prop :=
  ∃ blanks rest, content = blanks ++ rest ∧ (∀ byte ∈ blanks, Byte.isBlank byte = true) ∧
    ∀ byte ∈ rest.head?, byte = Byte.newline

/-- What remains of a content when some of the blanks at the ends of its lines are deleted. -/
inductive Trims : Bytes → Bytes → Prop where
  | nil : Trims [] []
  | keep {content kept : Bytes} (byte : UInt8) (later : Trims content kept) :
      Trims (byte :: content) (byte :: kept)
  | delete {content kept : Bytes} {byte : UInt8} (blank : Byte.isBlank byte = true)
      (last : content.BlankToLineEnd) (later : Trims content kept) : Trims (byte :: content) kept

variable {content kept blanks rest : Bytes}

theorem Trims.append_front (front : Bytes) (later : Trims content kept) :
    Trims (front ++ content) (front ++ kept) := by
  induction front with
  | nil => exact later
  | cons byte front ih => exact ih.keep byte

theorem Trims.append_blanks (blank : ∀ byte ∈ blanks, Byte.isBlank byte = true)
    (ends : ∀ byte ∈ rest.head?, byte = Byte.newline) (later : Trims rest kept) :
    Trims (blanks ++ rest) kept := by
  induction blanks with
  | nil => exact later
  | cons byte blanks ih =>
    have others : ∀ byte ∈ blanks, Byte.isBlank byte = true :=
      fun byte member => blank byte (List.mem_cons_of_mem _ member)
    apply Trims.delete (blank byte List.mem_cons_self) ⟨blanks, rest, rfl, others, ends⟩
    exact ih others

end Bytes

namespace Template

open Bytes

variable {content : Bytes}

/-- A line in the layout: an empty definition as it is, any other line without the blanks at its
end. -/
def lineLayout (line : Bytes) : Bytes :=
  if EmptyDefinition line then line else line.rdropWhile Byte.isBlank

theorem tidyLine_eq_lineLayout (line : Bytes) : tidyLine line = lineLayout line := by
  unfold tidyLine lineLayout
  simp only [definesAsEmpty_iff]
  rfl

theorem trims_stripTrailingBlanks (content : Bytes) :
    Trims content (stripTrailingBlanks content) := by
  induction content using lineInduction with
  | rest rest inside =>
    obtain ⟨blanks, parts, blank⟩ := tidyLine_parts rest
    have trims := (Trims.nil.append_blanks blank (by simp)).append_front (tidyLine rest)
    rw [stripTrailingBlanks_rest inside]
    simpa [← parts] using trims
  | line line rest inside ih =>
    obtain ⟨blanks, parts, blank⟩ := tidyLine_parts line
    have newline := ih.keep Byte.newline
    have trims := (newline.append_blanks blank (by simp)).append_front (tidyLine line)
    rw [stripTrailingBlanks_line inside]
    simpa only [← List.append_assoc, ← parts] using trims

theorem stripTrailingBlanks_stripTrailingBlanks (content : Bytes) :
    stripTrailingBlanks (stripTrailingBlanks content) = stripTrailingBlanks content := by
  induction content using lineInduction with
  | rest rest inside =>
    have fresh := newline_not_mem_tidyLine inside
    rw [stripTrailingBlanks_rest inside, stripTrailingBlanks_rest fresh, tidyLine_tidyLine]
  | line line rest inside ih =>
    have fresh := newline_not_mem_tidyLine inside
    rw [stripTrailingBlanks_line inside, stripTrailingBlanks_line fresh, tidyLine_tidyLine, ih]

/-- The layout of a text is made line by line. It keeps every newline, deletes only blanks at the
ends of lines, leaves nothing to a second layout, and can be made in two parts that meet behind a
newline. -/
theorem stripTrailingBlanks_by_lines (content : Bytes) :
    stripTrailingBlanks content =
        [Byte.newline].intercalate ((content.splitOn Byte.newline).map lineLayout) ∧
      (stripTrailingBlanks content).count Byte.newline = content.count Byte.newline ∧
      Trims content (stripTrailingBlanks content) ∧
      stripTrailingBlanks (stripTrailingBlanks content) = stripTrailingBlanks content ∧
      ∀ following, stripTrailingBlanks (content ++ Byte.newline :: following) =
        stripTrailingBlanks (content ++ [Byte.newline]) ++ stripTrailingBlanks following := by
  refine ⟨?_, stripTrailingBlanks_linewise.count_newline content,
    trims_stripTrailingBlanks content, stripTrailingBlanks_stripTrailingBlanks content, ?_⟩
  · rw [stripTrailingBlanks_eq_tidied, stripTrailingBlanks.tidied]
    exact congrArg _ (List.map_congr_left fun line _ => tidyLine_eq_lineLayout line)
  · intro following
    have closed := closed_newline content
    rw [List.append_cons, stripTrailingBlanks_lineLocal.append _ following closed]

/-- The content ends with a newline and perhaps blanks behind it. -/
def EndsWithBlankRest (content : Bytes) : Prop :=
  ∃ before blanks, content = before ++ Byte.newline :: blanks ∧
    ∀ byte ∈ blanks, Byte.isBlank byte = true

theorem endsWithBlankRest_iff :
    EndsWithBlankRest content ↔ (dropTrailing Byte.isBlank content).endsWithNewline = true := by
  rw [endsWithNewline_iff]
  constructor
  · intro ends
    obtain ⟨before, blanks, rfl, blank⟩ := ends
    refine ⟨before, ?_⟩
    rw [List.append_cons]
    exact dropTrailing_append_run (by simp [Byte.isBlank, Byte.newline]) blank
  · intro ends
    obtain ⟨before, remains⟩ := ends
    obtain ⟨blanks, parts, blank⟩ := dropTrailing_parts Byte.isBlank content
    refine ⟨before, blanks, ?_, blank⟩
    rw [parts, remains, List.append_assoc, List.singleton_append]

theorem stripTrailingBlanks_eq_nil_iff :
    stripTrailingBlanks content = [] ↔ ∀ byte ∈ content, Byte.isBlank byte = true := by
  by_cases inside : Byte.newline ∈ content
  · obtain ⟨line, rest, rfl, fresh⟩ := List.eq_append_cons_of_mem inside
    rw [stripTrailingBlanks_line fresh]
    refine iff_of_false (by simp) ?_
    intro blank
    exact absurd (blank Byte.newline inside) (by decide)
  · rw [stripTrailingBlanks_rest inside, tidyLine_eq_nil_iff]

/-- A layout ends with a newline exactly if nothing but blanks stands behind the last newline. -/
theorem endsWithNewline_stripTrailingBlanks_iff (content : Bytes) :
    (stripTrailingBlanks content).endsWithNewline = true ↔ EndsWithBlankRest content := by
  rw [endsWithBlankRest_iff]
  induction content using lineInduction with
  | rest rest inside =>
    obtain ⟨blanks, parts, -⟩ := dropTrailing_parts Byte.isBlank rest
    have remains : Byte.newline ∉ dropTrailing Byte.isBlank rest := by
      intro member
      exact inside (parts ▸ List.mem_append_left blanks member)
    rw [stripTrailingBlanks_rest inside, not_endsWithNewline (newline_not_mem_tidyLine inside),
      not_endsWithNewline remains]
  | line line rest inside ih =>
    have empty : stripTrailingBlanks rest = [] ↔ dropTrailing Byte.isBlank rest = [] := by
      rw [stripTrailingBlanks_eq_nil_iff, dropTrailing_eq_nil_iff]
    rw [stripTrailingBlanks_line inside, dropTrailing_append_cons rfl]
    simp only [endsWithNewline_newline_cons, Bool.or_eq_true, List.isEmpty_iff, ih, empty]

/-- Tidying a last line that holds only blanks lets the newline before it end the text. -/
theorem not_endsWithNewline_stripTrailingBlanks_iff :
    ¬ ((stripTrailingBlanks (textBytes "a\n ")).endsWithNewline = true ↔
      (textBytes "a\n ").endsWithNewline = true) := by
  decide

end Template

end ConfigHeader
