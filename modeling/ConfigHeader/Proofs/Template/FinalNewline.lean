import ConfigHeader.Proofs.Template.Concatenation
import ConfigHeader.Proofs.Template.InlinedFiles

namespace ConfigHeader

namespace Bytes

theorem ne_nil_of_endsWithNewline {content : Bytes} (ends : content.endsWithNewline = true) :
    content ≠ [] := by
  intro empty
  rw [empty] at ends
  cases ends

/-- The pass leaves a newline at the end of a content that ends with one. -/
def KeepsFinalNewline (pass : Bytes → Bytes) : Prop :=
  ∀ content : Bytes, content.endsWithNewline = true → (pass content).endsWithNewline = true

namespace KeepsFinalNewline

variable {pass step later : Bytes → Bytes}

theorem comp (outer : KeepsFinalNewline later) (inner : KeepsFinalNewline pass) :
    KeepsFinalNewline fun content => later (pass content) :=
  fun content ends => outer _ (inner content ends)

/-- A pass that keeps the ends of lines leaves a newline at the end, since it leaves one at all. -/
theorem of_lineLocal (lineLocal : LineLocal pass)
    (line : ∀ line rest, Byte.newline ∉ line →
      pass (line ++ Byte.newline :: rest) = step line ++ Byte.newline :: pass rest) :
    KeepsFinalNewline pass := by
  intro content ends
  have filled : pass content ≠ [] := by
    by_cases inside : Byte.newline ∈ content
    · obtain ⟨first, rest, rfl, fresh⟩ := List.eq_append_cons_of_mem inside
      rw [line first rest fresh]
      simp
    · rw [not_endsWithNewline inside] at ends
      cases ends
  exact (lineLocal.closed content (.inr ends)).endsWithNewline filled

end KeepsFinalNewline

end Bytes

namespace Template

open Bytes

variable {content needle replacement template output : Bytes}

theorem settleUndefs_keepsFinalNewline (actions : KeyMap Action) (unlisted : Unlisted) :
    KeepsFinalNewline (settleUndefs actions unlisted) :=
  .of_lineLocal (settleUndefs_lineLocal _ _) fun _ rest inside => settleUndefs_line _ _ inside rest

theorem fillMarkers_keepsFinalNewline (values : KeyMap String) :
    KeepsFinalNewline (fillMarkers values) :=
  .of_lineLocal fillMarkers_lineLocal fun line rest _ =>
    fillMarkers_append_cons values line rest (by decide)

theorem stripTrailingBlanks_keepsFinalNewline : KeepsFinalNewline stripTrailingBlanks :=
  .of_lineLocal stripTrailingBlanks_lineLocal fun _ rest inside =>
    stripTrailingBlanks_line inside rest

theorem renderMarkup_keepsFinalNewline (findings : Findings) (mode : Mode) :
    KeepsFinalNewline (renderMarkup findings mode) := by
  cases mode with
  | defines => exact settleUndefs_keepsFinalNewline _ _
  | subst =>
    exact (settleUndefs_keepsFinalNewline _ _).comp (fillMarkers_keepsFinalNewline _)
  | all => exact (fillMarkers_keepsFinalNewline _).comp (settleUndefs_keepsFinalNewline _ _)

/-- A search string that does not end with a newline does not reach the newline at the end. -/
theorem endsWithNewline_replaceLiteral (filled : needle ≠ [])
    (unended : needle.endsWithNewline = false) (ends : content.endsWithNewline = true) :
    (replaceLiteral content needle replacement).endsWithNewline = true := by
  induction content using searchInduction filled with
  | nil => cases ends
  | passed first rest other ih =>
    rw [replaceLiteral_cons other]
    by_cases last : rest = []
    · rwa [last, replaceLiteral_nil, ← last]
    · rw [← List.singleton_append, endsWithNewline_append last] at ends
      rw [← List.singleton_append, endsWithNewline_append (ne_nil_of_endsWithNewline (ih ends))]
      exact ih ends
  | found rest ih =>
    have remains : rest ≠ [] := by
      intro last
      rw [last, List.append_nil, unended] at ends
      cases ends
    rw [endsWithNewline_append remains] at ends
    rw [replaceLiteral_append filled, endsWithNewline_append (ne_nil_of_endsWithNewline (ih ends))]
    exact ih ends

variable {FileFault : Type} {read : Path → Except FileFault Bytes} {inlines : KeyMap Path}

theorem endsWithNewline_substituteBytes {substitutions : KeyMap Bytes}
    (unended : ∀ search ∈ substitutions.keys, (textBytes search).endsWithNewline = false)
    (ends : content.endsWithNewline = true) :
    (substituteBytes substitutions content).endsWithNewline = true := by
  apply substituteBytes_induction (motive := fun content => content.endsWithNewline = true) ends
  intro entry member filled content ends
  have key : entry.1 ∈ substitutions.keys := List.mem_map_of_mem member
  exact endsWithNewline_replaceLiteral (textBytes_ne_nil filled) (unended entry.1 key) ends

theorem endsWithNewline_substituteTexts {substitutions : KeyMap String}
    (unended : ∀ search ∈ substitutions.keys, (textBytes search).endsWithNewline = false)
    (ends : content.endsWithNewline = true) :
    (substituteTexts substitutions content).endsWithNewline = true := by
  rw [substituteTexts_eq]
  refine endsWithNewline_substituteBytes (fun search member => unended search ?_) ends
  rwa [KeyMap.keys_mapValues] at member

theorem endsWithNewline_of_inlineFiles {result : Bytes}
    (inlined : inlineFiles read inlines content = .ok result)
    (unended : ∀ search ∈ inlines.keys, (textBytes search).endsWithNewline = false)
    (ends : content.endsWithNewline = true) : result.endsWithNewline = true := by
  obtain ⟨-, rfl⟩ := inlineFiles_eq_ok_iff.mp inlined
  refine endsWithNewline_substituteBytes (fun search member => unended search ?_) ends
  rwa [KeyMap.keys_mapValues] at member

theorem content_of_render {findings : Findings} {mode : Mode} {replacements : Replacements}
    (rendered : render read findings mode replacements template = .ok output) :
    ∃ content,
      inlineFiles read replacements.inlines
        (substituteTexts replacements.substitutions template) = .ok content ∧
      output =
        matchFinalNewline template (stripTrailingBlanks (renderMarkup findings mode content)) := by
  rw [render] at rendered
  cases inlined : inlineFiles read replacements.inlines
      (substituteTexts replacements.substitutions template) with
  | error failure =>
    rw [inlined] at rendered
    cases rendered
  | ok content =>
    rw [inlined] at rendered
    exact ⟨content, rfl, (Except.ok.inj rendered).symm⟩

/-- A rendering that succeeds ends with a newline only if its template does, and if no search string
ends with one then it does so whenever its template does. -/
theorem render_endsWithNewline (read : Path → Except FileFault Bytes) (findings : Findings)
    (mode : Mode) (replacements : Replacements) (template output : Bytes)
    (rendered : render read findings mode replacements template = .ok output) :
    (output.endsWithNewline = true → template.endsWithNewline = true) ∧
    (template.endsWithNewline = true →
      (∀ search ∈ replacements.substitutions.keys ++ replacements.inlines.keys,
        (textBytes search).endsWithNewline = false) →
      output.endsWithNewline = true) := by
  obtain ⟨content, inlined, rfl⟩ := content_of_render rendered
  constructor
  · intro ends
    by_contra left
    have layout : matchFinalNewline template (stripTrailingBlanks
        (renderMarkup findings mode content)) = trimmed (renderMarkup findings mode content) :=
      if_neg left
    rw [layout, endsWithNewline_trimmed] at ends
    cases ends
  · intro ends unended
    have substituted := endsWithNewline_substituteTexts
      (fun search member => unended search (List.mem_append_left _ member)) ends
    have filled := endsWithNewline_of_inlineFiles inlined
      (fun search member => unended search (List.mem_append_right _ member)) substituted
    have markup := renderMarkup_keepsFinalNewline findings mode content filled
    rw [matchFinalNewline, if_pos ends]
    exact stripTrailingBlanks_keepsFinalNewline _ markup

theorem render_endsWithNewline_of_newline_values :
    render (fun _ => .ok (textBytes "x\n") : Path → Except Unit Bytes)
        (.ofValues "\"v\\n\"" "\"\\n\"") .all
        { inlines := KeyMap.ofList [("i", ⟨"x.txt"⟩)]
          substitutions := KeyMap.ofList [("s", "\n"), ("\nt", "")] }
        (textBytes "s i\nt\n#undef A\n @B@ \n") =
      .ok (textBytes "\n x\n\n#define A v\n\n\n\n") ∧
    (textBytes "\n x\n\n#define A v\n\n\n\n").endsWithNewline = true := by
  have computed : render (fun _ => .ok (textBytes "x\n") : Path → Except Unit Bytes)
      (.ofValues "\"v\\n\"" "\"\\n\"") .all
      { inlines := KeyMap.ofList [("i", ⟨"x.txt"⟩)]
        substitutions := KeyMap.ofList [("s", "\n"), ("\nt", "")] }
      (textBytes "s i\nt\n#undef A\n @B@ \n") =
      .ok (textBytes "\n x\n\n#define A v\n\n\n\n") := by decide +kernel
  obtain ⟨-, kept⟩ := render_endsWithNewline _ _ _ _ _ _ computed
  exact ⟨computed, kept (by decide) (by decide)⟩

end Template

end ConfigHeader
