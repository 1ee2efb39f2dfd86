import ConfigHeader.Proofs.Template.Concatenation
import ConfigHeader.Proofs.Template.FindingsView

namespace ConfigHeader

variable {mode : Mode} {left right : Findings}

open Template in
/-- Findings of which a rendering in this mode reads the same. -/
structure Findings.SameFor (mode : Mode) (left right : Findings) : Prop where
  actions : mode.definesNames = true → ∀ key,
    (left.define.find? key).map (fun entry => Action.ofCheck entry.check) =
      (right.define.find? key).map fun entry => Action.ofCheck entry.check
  packageNames : mode.definesNames = true → ∀ name ∈ packageNames,
    (left.subst.find? name = none ↔ right.subst.find? name = none)
  values : mode.fillsMarkers = true → ∀ key,
    (left.subst.find? key).map (fun entry => entry.check.storedValue) =
      (right.subst.find? key).map fun entry => entry.check.storedValue
  names : mode = .subst → ∀ key, key ∈ left.define.keys ↔ key ∈ right.define.keys

namespace Findings.SameFor

/-- Results that are only looked up are read in no mode. -/
theorem of_roles (mode : Mode) (define : left.define = right.define)
    (subst : left.subst = right.subst) : left.SameFor mode right where
  actions _ _ := by rw [define]
  packageNames _ _ _ := by rw [subst]
  values _ _ := by rw [subst]
  names _ _ := by rw [define]

/-- Where only definitions are written, a marker counts if it takes the name of the package. -/
theorem of_definitions (define : left.define = right.define)
    (taken : ∀ name ∈ Template.packageNames, name ∈ left.subst.keys ↔ name ∈ right.subst.keys) :
    left.SameFor .defines right where
  actions _ _ := by rw [define]
  packageNames _ name member := by
    rw [Catalog.find?_eq_none_iff, Catalog.find?_eq_none_iff, taken name member]
  values fills := by cases fills
  names other := by cases other

/-- Where only markers are filled, a definition counts for its name alone. -/
theorem of_values
    (values : ∀ key, (left.subst.find? key).map (fun entry => entry.check.storedValue) =
      (right.subst.find? key).map fun entry => entry.check.storedValue)
    (names : ∀ key, key ∈ left.define.keys ↔ key ∈ right.define.keys) :
    left.SameFor .subst right where
  actions defines := by cases defines
  packageNames defines := by cases defines
  values _ := values
  names _ := names

open Template in
theorem renderMarkup (same : left.SameFor mode right) (content : Bytes) :
    Template.renderMarkup left mode content = Template.renderMarkup right mode content := by
  have undefs (defines : mode.definesNames = true) :
      (Lookup.ofFindings left).undefActions = (Lookup.ofFindings right).undefActions :=
    undefActions_congr (same.actions defines) (same.packageNames defines)
  have markers (fills : mode.fillsMarkers = true) :
      markerTexts left (Lookup.ofFindings left) = markerTexts right (Lookup.ofFindings right) :=
    markerTexts_congr (same.values fills)
  have comments (only : mode = .subst) : commentActions left = commentActions right :=
    commentActions_congr (same.names only)
  cases mode with
  | defines =>
    change renderUndefs _ content = renderUndefs _ content
    rw [renderUndefs, renderUndefs, undefs rfl]
  | subst =>
    change hideUndefs left (renderMarkers left _ content) =
      hideUndefs right (renderMarkers right _ content)
    rw [hideUndefs, hideUndefs, renderMarkers, renderMarkers, markers rfl, comments rfl]
  | all =>
    change renderMarkers left _ (renderUndefs _ content) =
      renderMarkers right _ (renderUndefs _ content)
    rw [renderMarkers, renderMarkers, renderUndefs, renderUndefs, undefs rfl, markers rfl]

theorem render {FileFault : Type} {read : Path → Except FileFault Bytes}
    (same : left.SameFor mode right) (replacements : Template.Replacements) (template : Bytes) :
    Template.render read left mode replacements template =
      Template.render read right mode replacements template := by
  simp only [Template.render, same.renderMarkup]

end Findings.SameFor

namespace Template

/-- Cached results change no text. Definitions are written without a look at markers, except for the
names of the package, and markers are filled without a look at what a definition says. -/
theorem render_keeps_roles_apart {FileFault : Type} (read : Path → Except FileFault Bytes)
    (left right : Findings) (replacements : Replacements) (template : Bytes) :
    (left.define = right.define → left.subst = right.subst → ∀ mode,
      render read left mode replacements template = render read right mode replacements template) ∧
    (left.define = right.define →
      (∀ name ∈ packageNames, name ∈ left.subst.keys ↔ name ∈ right.subst.keys) →
      render read left .defines replacements template =
        render read right .defines replacements template) ∧
    ((∀ key, (left.subst.find? key).map (fun entry => entry.check.storedValue) =
        (right.subst.find? key).map fun entry => entry.check.storedValue) →
      (∀ key, key ∈ left.define.keys ↔ key ∈ right.define.keys) →
      render read left .subst replacements template =
        render read right .subst replacements template) := by
  refine ⟨fun define subst mode => ?_, fun define taken => ?_, fun values names => ?_⟩
  · exact (Findings.SameFor.of_roles mode define subst).render replacements template
  · exact (Findings.SameFor.of_definitions define taken).render replacements template
  · exact (Findings.SameFor.of_values values names).render replacements template

/-- Findings in which one key leads to a result of each role, each with a value of its own. -/
def sharedKey (cached defined marked : String) : Findings where
  cache := (∅ : Catalog .cache).append
    ⟨{ name := "K", value := some cached, success := true }, ⟨"cache.json"⟩⟩ rfl
  define := (∅ : Catalog .define).append
    ⟨{ name := "K", value := some defined, success := true }, ⟨"define.json"⟩⟩ rfl
  subst := (∅ : Catalog .subst).append
    ⟨{ name := "K", value := some marked, success := true }, ⟨"subst.json"⟩⟩ rfl

theorem render_keeps_shared_key_apart :
    render (fun _ => .error ()) (sharedKey "8" "1" "2") .all {} (textBytes "#undef K\n@K@\n") =
      .ok (textBytes "#define K 1\n2\n") ∧
    render (fun _ => .error ()) (sharedKey "8" "1" "3") .defines {} (textBytes "#undef K\n@K@\n") =
      .ok (textBytes "#define K 1\n@K@\n") ∧
    render (fun _ => .error ()) (sharedKey "8" "5" "2") .subst {} (textBytes "#undef K\n@K@\n") =
      .ok (textBytes "/* #undef K */\n2\n") := by
  have apart (right : Findings) := render_keeps_roles_apart (fun _ => .error ())
    (sharedKey "7" "1" "2") right {} (textBytes "#undef K\n@K@\n")
  refine ⟨?_, ?_, ?_⟩
  · rw [← (apart (sharedKey "8" "1" "2")).1 rfl rfl .all]
    decide +kernel
  · rw [← (apart (sharedKey "8" "1" "3")).2.1 rfl fun _ _ => .rfl]
    decide +kernel
  · rw [← (apart (sharedKey "8" "5" "2")).2.2 (fun _ => rfl) fun _ => .rfl]
    decide +kernel

end Template

end ConfigHeader
