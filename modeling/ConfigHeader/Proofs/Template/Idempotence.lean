import ConfigHeader.Proofs.Template.Concatenation
import ConfigHeader.Proofs.Template.Definitions

namespace ConfigHeader.Template

open Bytes

variable {actions : KeyMap Action} {line content : Bytes}

/-- The line ends with an `#undef` of a name and at least one blank. -/
def EndsWithBlankedUndef (line : Bytes) : Prop :=
  ∃ name blanks, blanks ≠ [] ∧ EndsWithUndef name blanks line

/-- A line with its `#undef` replaced, tidied. -/
def finishedLine (actions : KeyMap Action) (line : Bytes) : Bytes :=
  tidyLine (settledLine actions .comment line)

/-- The rendering of a template that ends with a newline. -/
def finished (actions : KeyMap Action) (content : Bytes) : Bytes :=
  stripTrailingBlanks (settleUndefs actions .comment content)

theorem finished_linewise (defining : Defining actions) :
    Linewise (finished actions) (finishedLine actions) :=
  stripTrailingBlanks_linewise.comp (settleUndefs_linewise defining)

section Line

theorem endsWithUndef_finishedLine_iff (defining : Defining actions) (inside : Byte.newline ∉ line)
    {name : Bytes} : EndsWithUndef name [] (finishedLine actions line) ↔
      ∃ blanks, blanks ≠ [] ∧ EndsWithUndef name blanks line := by
  simp only [finishedLine, endsWithUndef_tidyLine_iff, endsWithUndef_settledLine_iff defining inside]
  constructor
  · rintro ⟨blanks, undef, kept⟩
    exact ⟨blanks, fun empty => by simpa using kept empty, undef⟩
  · rintro ⟨blanks, filled, undef⟩
    exact ⟨blanks, undef, fun empty => absurd empty filled⟩

/-- A finished line stays as it is unless blanks behind a name were taken from it. -/
theorem finishedLine_finishedLine_iff (defining : Defining actions)
    (inside : Byte.newline ∉ line) :
    finishedLine actions (finishedLine actions line) = finishedLine actions line ↔
      ¬ EndsWithBlankedUndef line := by
  have fresh := (finished_linewise defining).step line inside
  constructor
  · rintro same ⟨name, blanks, filled, undef⟩
    have bare := (endsWithUndef_finishedLine_iff defining inside).mpr ⟨blanks, filled, undef⟩
    rw [← same, endsWithUndef_finishedLine_iff defining fresh] at bare
    obtain ⟨others, otherFilled, other⟩ := bare
    have taken := (endsWithUndef_finishedLine_iff defining inside).mpr ⟨blanks, filled, undef⟩
    exact otherFilled (taken.blanks_eq_nil other)
  · intro absent
    have settled : settledLine actions .comment (finishedLine actions line) =
        finishedLine actions line := by
      refine settledLine_other fresh fun name bare => absent ?_
      obtain ⟨blanks, filled, undef⟩ := (endsWithUndef_finishedLine_iff defining inside).mp bare
      exact ⟨name, blanks, filled, undef⟩
    rw [finishedLine, settled, finishedLine, tidyLine_tidyLine]

end Line

section Content

variable {rest : Bytes}

/-- The rendering of a template that does not end with a newline. -/
def finishedOpen (actions : KeyMap Action) (content : Bytes) : Bytes :=
  trimmed (settleUndefs actions .comment content)

theorem finishedOpen_rest (inside : Byte.newline ∉ rest) :
    finishedOpen actions rest = tidyLine rest := by
  rw [finishedOpen, settleUndefs_rest _ _ inside, trimmed_rest inside]

theorem finishedOpen_line_of_hollow (defining : Defining actions) (inside : Byte.newline ∉ line)
    (hollow : rest.Hollow) :
    finishedOpen actions (line ++ Byte.newline :: rest) = finishedLine actions line := by
  rw [finishedOpen, settleUndefs_line _ _ inside,
    trimmed_line_of_hollow (newline_not_mem_settledLine defining inside)
      ((hollow_settleUndefs_iff defining rest).mpr hollow)]
  rfl

theorem finishedOpen_line (defining : Defining actions) (inside : Byte.newline ∉ line)
    (filled : ¬ rest.Hollow) : finishedOpen actions (line ++ Byte.newline :: rest) =
      finishedLine actions line ++ Byte.newline :: finishedOpen actions rest := by
  rw [finishedOpen, settleUndefs_line _ _ inside,
    trimmed_line (newline_not_mem_settledLine defining inside)
      fun hollow => filled ((hollow_settleUndefs_iff defining rest).mp hollow)]
  rfl

theorem hollow_finishedOpen_iff (defining : Defining actions) :
    (finishedOpen actions content).Hollow ↔ content.Hollow := by
  rw [finishedOpen, hollow_trimmed_iff, hollow_settleUndefs_iff defining]

theorem finished_finished_iff (defining : Defining actions) (closed : content.Closed) :
    finished actions (finished actions content) = finished actions content ↔
      ¬ HasLine (fun line _ => EndsWithBlankedUndef line) content := by
  induction content using lineInduction with
  | rest rest inside =>
    obtain rfl := closed.eq_nil inside
    exact iff_of_true rfl (not_hasLine inside)
  | line line rest inside ih =>
    have fresh := (finished_linewise defining).step line inside
    have again := (finished_linewise defining).step _ fresh
    rw [(finished_linewise defining).line line rest inside, (finished_linewise defining).line _ _ fresh,
      firstLine_inj again fresh, finishedLine_finishedLine_iff defining inside, ih closed.tail,
      hasLine_cons inside, not_or]

theorem finishedOpen_finishedOpen_iff (defining : Defining actions) (content : Bytes) :
    finishedOpen actions (finishedOpen actions content) = finishedOpen actions content ↔
      ¬ HasLine (fun line after => EndsWithBlankedUndef line ∧ ¬ after.Hollow) content := by
  induction content using lineInduction with
  | rest rest inside =>
    refine iff_of_true ?_ (not_hasLine inside)
    rw [finishedOpen_rest inside, finishedOpen_rest (newline_not_mem_tidyLine inside),
      tidyLine_tidyLine]
  | line line rest inside ih =>
    have fresh := (finished_linewise defining).step line inside
    have again := (finished_linewise defining).step _ fresh
    by_cases hollow : rest.Hollow
    · refine iff_of_true ?_ (not_hasLine_of_hollow inside hollow)
      rw [finishedOpen_line_of_hollow defining inside hollow, finishedOpen_rest fresh,
        finishedLine, tidyLine_tidyLine]
    · rw [finishedOpen_line defining inside hollow,
        finishedOpen_line defining fresh (by rwa [hollow_finishedOpen_iff defining]),
        firstLine_inj again fresh, finishedLine_finishedLine_iff defining inside, ih,
        hasLine_cons inside, not_or]
      simp [hollow]

end Content

theorem closed_finished (closed : content.Closed) : (finished actions content).Closed :=
  (stripTrailingBlanks_lineLocal.comp (settleUndefs_lineLocal actions .comment)).closed _ closed

variable {FileFault : Type} {read : Path → Except FileFault Bytes}

theorem render_defines_of_closed (findings : Findings) (closed : content.Closed) :
    render read findings .defines {} content =
      .ok (finished (Lookup.ofFindings findings).undefActions content) := by
  rcases closed with rfl | ends
  · rfl
  · rw [render_without_replacements, matchFinalNewline, if_pos ends]
    rfl

theorem render_defines_of_open (findings : Findings) (ends : content.endsWithNewline = false) :
    render read findings .defines {} content =
      .ok (finishedOpen (Lookup.ofFindings findings).undefActions content) := by
  rw [render_without_replacements, matchFinalNewline, if_neg (by simp [ends])]
  rfl

/-- A second rendering of the definitions leaves the first one as it is, unless a line ended with
an `#undef` and blanks, and a newline still stands behind it. -/
theorem render_render_eq_iff (read : Path → Except FileFault Bytes) (findings : Findings)
    (template : Bytes)
    (single : ∀ check ∈ findings.define.checks, ∀ text, Action.ofCheck check = .define text →
      '\n' ∉ text.toList ∧ text.toList.count '#' ≤ 1) :
    (∃ once, render read findings .defines {} template = .ok once ∧
        render read findings .defines {} once = .ok once) ↔
      ¬ HasLine (fun line after =>
        (∃ name blanks, blanks ≠ [] ∧ EndsWithUndef name blanks line) ∧
          (template.endsWithNewline = true ∨ ¬ after.Hollow)) template := by
  have defining := defining_of_texts single
  cases ends : template.endsWithNewline with
  | true =>
    have closed : template.Closed := .inr ends
    have again := finished_finished_iff defining closed
    simpa [render_defines_of_closed findings closed,
      render_defines_of_closed findings (closed_finished closed), EndsWithBlankedUndef] using again
  | false =>
    have again := finishedOpen_finishedOpen_iff defining template
    simpa [render_defines_of_open findings ends,
      render_defines_of_open findings (endsWithNewline_trimmed _), finishedOpen,
      EndsWithBlankedUndef] using again

theorem render_render_ne_of_blank :
    ¬ ∃ once, render (fun _ => .error ()) (.ofValues "1" "b") .defines {} (textBytes "#undef A \n") =
        .ok once ∧
      render (fun _ => .error ()) (.ofValues "1" "b") .defines {} once = .ok once := by
  have single : ∀ check ∈ (Findings.ofValues "1" "b").define.checks, ∀ text,
      Action.ofCheck check = .define text → '\n' ∉ text.toList ∧ text.toList.count '#' ≤ 1 := by
    intro check member text defined
    obtain rfl := List.mem_singleton.mp member
    obtain rfl : "#define A 1" = text := Action.define.inj defined
    decide
  rw [render_render_eq_iff _ _ _ single, not_not]
  refine ⟨[], textBytes "#undef A ", [], by decide, .inl rfl, by decide, ?_, .inl (by decide)⟩
  have identifier : IsIdentifier (textBytes "A") := ⟨0x41, [], by decide, by decide, by simp⟩
  exact ⟨textBytes "A", [0x20], by simp, by simp [Byte.isBlank], [], .ofName (textBytes "A"),
    UndefDirective.spelled_ofName identifier, rfl, by decide⟩

end ConfigHeader.Template
