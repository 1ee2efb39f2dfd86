import ConfigHeader.Proofs.Template.LayoutLines
import ConfigHeader.Proofs.Template.MarkerFilling
import ConfigHeader.Proofs.Template.Settling
import ConfigHeader.Template.Rendering

namespace ConfigHeader

/-- Findings with a definition of `A` and a marker `B`, both with their values as JSON text. -/
def Findings.ofValues (define subst : String) : Findings where
  define := (∅ : Catalog .define).append
    ⟨{ name := "A", value := some define, success := true }, ⟨"define.json"⟩⟩ rfl
  subst := (∅ : Catalog .subst).append
    ⟨{ name := "B", value := some subst, success := true }, ⟨"subst.json"⟩⟩ rfl

namespace Template

open Bytes

variable {FileFault : Type} {read : Path → Except FileFault Bytes}

/-- Without replacements a rendering reads no file and cannot fail. -/
theorem render_without_replacements (findings : Findings) (mode : Mode) (template : Bytes) :
    render read findings mode {} template = .ok
      (matchFinalNewline template (stripTrailingBlanks (renderMarkup findings mode template))) :=
  rfl

theorem renderMarkup_lineLocal (findings : Findings) (mode : Mode) :
    LineLocal (renderMarkup findings mode) := by
  cases mode with
  | defines => exact settleUndefs_lineLocal _ _
  | subst => exact (settleUndefs_lineLocal _ _).comp fillMarkers_lineLocal
  | all => exact fillMarkers_lineLocal.comp (settleUndefs_lineLocal _ _)

/-- Newlines at the end are dropped only behind the last byte that is none. -/
theorem matchFinalNewline_append {first second template : Bytes}
    (remains : template.endsWithNewline = true ∨ matchFinalNewline template second ≠ []) :
    matchFinalNewline template (first ++ second) = first ++ matchFinalNewline template second := by
  by_cases ends : template.endsWithNewline = true
  · simp [matchFinalNewline, ends]
  · have filled := remains.resolve_left ends
    simp only [matchFinalNewline, ends] at filled ⊢
    rw [if_neg (by simp), ne_eq, dropTrailing_eq_nil_iff] at filled
    simp only [Bool.false_eq_true, if_false]
    rw [dropTrailing_append, if_neg (by simpa using filled)]

/-- A template that is cut behind a newline renders to what its parts render to, unless nothing of
the second part remains. -/
theorem render_append (read : Path → Except FileFault Bytes) (findings : Findings) (mode : Mode)
    (first second : Bytes) (cut : first.endsWithNewline = true)
    (remains : second.endsWithNewline = true ∨ render read findings mode {} second ≠ .ok []) :
    ∃ firstText secondText, render read findings mode {} first = .ok firstText ∧
      render read findings mode {} second = .ok secondText ∧
      render read findings mode {} (first ++ second) = .ok (firstText ++ secondText) := by
  have filled : second ≠ [] := by
    rintro rfl
    rcases remains with ends | remains
    · simp at ends
    · exact remains (by cases mode <;> rfl)
  simp only [render_without_replacements, ne_eq, Except.ok.injEq] at remains ⊢
  refine ⟨_, _, rfl, rfl, ?_⟩
  have markup := (renderMarkup_lineLocal findings mode).append first second (.inr cut)
  have closed := (renderMarkup_lineLocal findings mode).closed first (.inr cut)
  have layout := stripTrailingBlanks_lineLocal.append _ (renderMarkup findings mode second) closed
  have sameEnd (content : Bytes) :
      matchFinalNewline (first ++ second) content = matchFinalNewline second content := by
    rw [matchFinalNewline, endsWithNewline_append filled, matchFinalNewline]
  have kept (content : Bytes) : matchFinalNewline first content = content := by
    rw [matchFinalNewline, if_pos cut]
  rw [markup, layout, sameEnd, kept, matchFinalNewline_append remains]

theorem render_append_two_lines :
    ∃ firstText secondText,
      render (fun _ => .error ()) (.ofValues "\"x\\n#undef B\"" "1") .all {}
        (textBytes "#undef A\n") = .ok firstText ∧
      render (fun _ => .error ()) (.ofValues "\"x\\n#undef B\"" "1") .all {}
        (textBytes "\n@B@ ") = .ok secondText ∧
      render (fun _ => .error ()) (.ofValues "\"x\\n#undef B\"" "1") .all {}
        (textBytes "#undef A\n" ++ textBytes "\n@B@ ") = .ok (firstText ++ secondText) :=
  render_append (fun _ => .error ()) _ _ _ _ (by decide) (.inr (by decide))

end Template

end ConfigHeader
