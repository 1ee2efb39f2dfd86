import ConfigHeader.Proofs.Catalog.Merging
import ConfigHeader.Proofs.Template.Separation

/-! Findings from files in another order. Where all results of a key agree, which of them is held
depends on the order of the files, but what a text shows of it does not. -/
namespace ConfigHeader

variable {sources permuted : Sources} {left right findings : Findings}

/-- What a text shows of a definition: its origin, its own name and its markers count for nothing. -/
def Check.shown (check : Check) : Check where
  name := check.definedName
  value := check.value
  success := check.success
  kind := check.kind
  unquote := check.unquote

/-- The same files for each role, each list in an order of its own. -/
structure Sources.Perm (sources permuted : Sources) : Prop where
  cache : sources.cache.Perm permuted.cache
  define : sources.define.Perm permuted.define
  subst : sources.subst.Perm permuted.subst

/-- Every file can be read and holds results. -/
def Sources.Loads (read : Path → Except Fault (List Check)) (sources : Sources) : Prop :=
  ∀ path ∈ sources.cache ++ sources.define ++ sources.subst, ∃ checks, read path = .ok checks

/-- In each role all results of a key agree. -/
structure Sources.Agree (read : Path → Except Fault (List Check)) (sources : Sources) : Prop where
  cache : Catalog.AgreeOn .cache Check.verdict (Catalog.recordsOf read sources.cache)
  define : Catalog.AgreeOn .define Check.verdict (Catalog.recordsOf read sources.define)
  subst : Catalog.AgreeOn .subst Check.verdict (Catalog.recordsOf read sources.subst)

/-- Definitions of one name that agree in what they say agree in how it is written. -/
def Sources.UniformDefinitions (read : Path → Except Fault (List Check)) (sources : Sources) :
    Prop :=
  ∀ left ∈ Catalog.recordsOf read sources.define, ∀ right ∈ Catalog.recordsOf read sources.define,
    left.check.definedName = right.check.definedName →
    left.check.verdict = right.check.verdict →
    left.check.kind = right.check.kind ∧ left.check.unquote = right.check.unquote

/-- Findings of which a text shows the same. -/
structure Findings.Alike (left right : Findings) : Prop where
  define : ∀ key, (left.define.find? key).map (fun entry => entry.check.shown) =
    (right.define.find? key).map fun entry => entry.check.shown
  subst : ∀ key, (left.subst.find? key).map (fun entry => entry.check.storedValue) =
    (right.subst.find? key).map fun entry => entry.check.storedValue

theorem Sources.Perm.refl (sources : Sources) : sources.Perm sources :=
  ⟨.refl _, .refl _, .refl _⟩

section Agreement

variable {read : Path → Except Fault (List Check)}

theorem Sources.Loads.perm (loads : sources.Loads read) (perm : sources.Perm permuted) :
    permuted.Loads read := by
  intro path member
  have lists := (perm.cache.append perm.define).append perm.subst
  exact loads path (lists.mem_iff.mpr member)

theorem Sources.Agree.perm (agree : sources.Agree read) (perm : sources.Perm permuted) :
    permuted.Agree read where
  cache := agree.cache.of_subset (Catalog.recordsOf_perm read perm.cache).symm.subset
  define := agree.define.of_subset (Catalog.recordsOf_perm read perm.define).symm.subset
  subst := agree.subst.of_subset (Catalog.recordsOf_perm read perm.subst).symm.subset

theorem Sources.Perm.symm (perm : sources.Perm permuted) : permuted.Perm sources :=
  ⟨perm.cache.symm, perm.define.symm, perm.subst.symm⟩

/-- Agreeing files are merged, with the first result of each key; all others are in conflict. -/
theorem Findings.merge_cases (loads : sources.Loads read) :
    (sources.Agree read ∧ ∃ findings, merge read sources = .ok findings ∧
      (∀ key, findings.define.find? key =
        Catalog.firstFor .define key (Catalog.recordsOf read sources.define)) ∧
      ∀ key, findings.subst.find? key =
        Catalog.firstFor .subst key (Catalog.recordsOf read sources.subst)) ∨
    (¬ sources.Agree read ∧ ∃ conflict, merge read sources = .error (.conflictingResults conflict)) := by
  have cacheLoads : ∀ path ∈ sources.cache, ∃ checks, read path = .ok checks :=
    fun path member => loads path (by simp [member])
  have defineLoads : ∀ path ∈ sources.define, ∃ checks, read path = .ok checks :=
    fun path member => loads path (by simp [member])
  have substLoads : ∀ path ∈ sources.subst, ∃ checks, read path = .ok checks :=
    fun path member => loads path (by simp [member])
  rw [merge]
  rcases Catalog.merge_cases .cache cacheLoads with
    ⟨cacheAgree, cache, cacheMerged, -⟩ | ⟨first, second, clash, refused⟩
  · rw [cacheMerged]
    rcases Catalog.merge_cases .define defineLoads with
      ⟨defineAgree, define, defineMerged, -⟩ | ⟨first, second, clash, refused⟩
    · rw [defineMerged]
      rcases Catalog.merge_cases .subst substLoads with
        ⟨substAgree, subst, substMerged, -⟩ | ⟨first, second, clash, refused⟩
      · rw [substMerged]
        exact .inl ⟨⟨cacheAgree, defineAgree, substAgree⟩, ⟨cache, define, subst⟩, rfl,
          fun key => Catalog.find?_of_merge defineLoads defineMerged,
          fun key => Catalog.find?_of_merge substLoads substMerged⟩
      · rw [refused]
        exact .inr ⟨fun agree => clash.not_agreeOn agree.subst, _, rfl⟩
    · rw [refused]
      exact .inr ⟨fun agree => clash.not_agreeOn agree.define, _, rfl⟩
  · rw [refused]
    exact .inr ⟨fun agree => clash.not_agreeOn agree.cache, _, rfl⟩

/-- Definitions that agree and are uniform show the same. -/
theorem Sources.Agree.shown (agree : sources.Agree read) (uniform : sources.UniformDefinitions read) :
    Catalog.AgreeOn .define Check.shown (Catalog.recordsOf read sources.define) := by
  intro left leftMember right rightMember keyed
  have verdicts := agree.define left leftMember right rightMember keyed
  obtain ⟨kinds, unquotes⟩ := uniform left leftMember right rightMember keyed verdicts
  obtain ⟨successes, values⟩ := Check.Verdict.mk.inj verdicts
  have names : left.check.definedName = right.check.definedName := keyed
  rw [Check.shown, Check.shown, names, successes, values, kinds, unquotes]

theorem Sources.Agree.storedValues (agree : sources.Agree read) :
    Catalog.AgreeOn .subst Check.storedValue (Catalog.recordsOf read sources.subst) :=
  fun left leftMember right rightMember keyed =>
    congrArg (fun verdict : Check.Verdict => verdict.value.getD "")
      (agree.subst left leftMember right rightMember keyed)

/-- The files in another order either are in conflict again or give findings that show the same. -/
theorem Findings.merge_perm (loads : sources.Loads read) (uniform : sources.UniformDefinitions read) :
    (∀ permuted, sources.Perm permuted →
      ∃ conflict, merge read permuted = .error (.conflictingResults conflict)) ∨
    ∃ findings, merge read sources = .ok findings ∧
      (∀ key success, (findings.define.find? key).map (fun entry => entry.check.success) =
          some success ↔
        ∃ record ∈ Catalog.recordsOf read sources.define,
          record.check.definedName = key ∧ record.check.success = success) ∧
      ∀ permuted, sources.Perm permuted →
        ∃ other, merge read permuted = .ok other ∧ findings.Alike other := by
  rcases merge_cases loads with ⟨agree, findings, merged, define, subst⟩ | ⟨differ, -⟩
  · refine .inr ⟨findings, merged, fun key success => ?_, fun permuted perm => ?_⟩
    · have successes : Catalog.AgreeOn .define Check.success
          (Catalog.recordsOf read sources.define) :=
        fun left leftMember right rightMember keyed =>
          congrArg Check.Verdict.success (agree.define left leftMember right rightMember keyed)
      rw [define]
      exact successes.firstFor_eq_some_iff
    · rcases merge_cases (loads.perm perm) with ⟨-, other, mergedOther, defineOther, substOther⟩ |
        ⟨differ, -⟩
      · refine ⟨other, mergedOther, fun key => ?_, fun key => ?_⟩
        · rw [define, defineOther]
          exact (agree.shown uniform).firstFor_perm (Catalog.recordsOf_perm read perm.define)
        · rw [subst, substOther]
          exact agree.storedValues.firstFor_perm (Catalog.recordsOf_perm read perm.subst)
      · exact absurd (agree.perm perm) differ
  · refine .inl fun permuted perm => ?_
    rcases merge_cases (loads.perm perm) with ⟨agree, -⟩ | ⟨-, refused⟩
    · exact absurd (agree.perm perm.symm) differ
    · exact refused

end Agreement

/-- The answer of each definition, in the order of their names. -/
def Findings.answers (findings : Findings) : KeyMap Bool :=
  KeyMap.ofList (findings.define.checks.map fun check => (check.definedName, check.success))

theorem Findings.find?_answers (findings : Findings) (key : String) :
    findings.answers.find? key =
      (findings.define.find? key).map fun entry => entry.check.success :=
  findings.define.find?_ofList_checks key Check.success

def Findings.checkLine (key : String) (success : Bool) : String :=
  "checking " ++ key ++ "... " ++ if success then "yes" else "no"

theorem Findings.checkLines_eq (findings : Findings) :
    findings.checkLines = findings.answers.entries.map fun (key, success) => checkLine key success := by
  have verdicts : KeyMap.ofList (findings.define.checks.map fun check =>
      (check.definedName, if check.success then "yes" else "no")) =
        findings.answers.mapValues fun success => if success then "yes" else "no" := by
    apply KeyMap.ext_find?
    intro key
    rw [KeyMap.find?_mapValues, find?_answers, Option.map_map]
    exact findings.define.find?_ofList_checks key fun check =>
      if check.success then "yes" else "no"
  rw [checkLines, verdicts, KeyMap.mapValues, List.map_map]
  rfl

namespace Findings.Alike

theorem map_shown {α : Type} {view : Check → α} (alike : left.Alike right)
    (sees : ∀ check, view check.shown = view check) (key : String) :
    (left.define.find? key).map (fun entry => view entry.check) =
      (right.define.find? key).map fun entry => view entry.check := by
  have shown := congrArg (Option.map view) (alike.define key)
  simpa only [Option.map_map, Function.comp_def, sees] using shown

theorem answers (alike : left.Alike right) : left.answers = right.answers := by
  apply KeyMap.ext_find?
  intro key
  rw [find?_answers, find?_answers]
  exact alike.map_shown (fun _ => rfl) key

theorem find?_eq_none_iff (alike : left.Alike right) (key : String) :
    left.subst.find? key = none ↔ right.subst.find? key = none := by
  have seen := congrArg (· = none) (alike.subst key)
  simpa using seen

theorem mem_keys_iff (alike : left.Alike right) (key : String) :
    key ∈ left.define.keys ↔ key ∈ right.define.keys := by
  have seen := congrArg (· = none) (alike.define key)
  rw [← not_iff_not, ← Catalog.find?_eq_none_iff, ← Catalog.find?_eq_none_iff]
  simpa using seen

/-- What findings show is all that a rendering reads of them. -/
theorem sameFor (alike : left.Alike right) (mode : Mode) : left.SameFor mode right where
  actions _ := alike.map_shown fun _ => rfl
  packageNames _ name _ := alike.find?_eq_none_iff name
  values _ := alike.subst
  names _ := alike.mem_keys_iff

theorem render {FileFault : Type} {read : Path → Except FileFault Bytes} (alike : left.Alike right)
    (mode : Mode) (replacements : Template.Replacements) (template : Bytes) :
    Template.render read left mode replacements template =
      Template.render read right mode replacements template :=
  (alike.sameFor mode).render replacements template

end Findings.Alike

end ConfigHeader
