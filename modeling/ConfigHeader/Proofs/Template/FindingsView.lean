import ConfigHeader.Proofs.Catalog.Insertion
import ConfigHeader.Proofs.Template.Definitions
import ConfigHeader.Template.Rendering

namespace ConfigHeader

variable {role : Role} {catalog : Catalog role} {findings left right : Findings} {key : String}

/-- The map of a catalog's keys holds what is told of the entry with the key. -/
theorem Catalog.find?_ofList_checks {α : Type} (catalog : Catalog role) (key : String)
    (value : Check → α) :
    (KeyMap.ofList (catalog.checks.map fun check => (role.key check, value check))).find? key =
      (catalog.find? key).map fun entry => value entry.check := by
  have distinct : ((catalog.checks.map fun check => (role.key check, value check)).map
      Prod.fst).Nodup := by
    rw [List.map_map]
    exact catalog.nodup_keys
  apply Option.ext
  intro found
  rw [KeyMap.find?_ofList_eq_some_iff distinct, Option.map_eq_some_iff]
  simp only [checks, List.map_map, List.mem_map, Function.comp_apply, Prod.mk.injEq,
    find?_eq_some_iff, and_assoc]

namespace Template

theorem Lookup.find?_values (catalog : Catalog role) (key : String) :
    (values catalog).find? key = (catalog.find? key).map fun entry => entry.check.storedValue :=
  catalog.find?_ofList_checks key Check.storedValue

theorem Lookup.find?_keyed (catalog : Catalog role) (key : String) :
    (KeyMap.ofList (keyed catalog)).find? key = (catalog.find? key).map Catalog.Entry.check :=
  catalog.find?_ofList_checks key id

/-- A definition hides a marker, and a marker hides a cached result. -/
theorem Lookup.check?_ofFindings (findings : Findings) (key : String) :
    (ofFindings findings).check? key =
      ((findings.define.find? key).map Catalog.Entry.check).or
        (((findings.subst.find? key).map Catalog.Entry.check).or
          ((findings.cache.find? key).map Catalog.Entry.check)) := by
  rw [check?, ofFindings, KeyMap.find?_ofList_append, KeyMap.find?_ofList_append, find?_keyed,
    find?_keyed, find?_keyed]

theorem Lookup.mem_pendingNames_iff :
    key ∈ (ofFindings findings).pendingNames ↔
      key ∈ packageNames ∧ findings.define.find? key = none ∧ findings.subst.find? key = none := by
  simp [ofFindings, List.mem_filter, KeyMap.contains, find?_values]

private theorem find?_listedActions (findings : Findings) (key : String) :
    (KeyMap.ofList ((Lookup.ofFindings findings).defineValues.keys.filterMap fun key =>
      ((Lookup.ofFindings findings).check? key).map fun check =>
        (key, Action.ofCheck check))).find? key =
      (findings.define.find? key).map fun entry => Action.ofCheck entry.check := by
  have listed {action : Action} :
      (key, action) ∈ (Lookup.ofFindings findings).defineValues.keys.filterMap (fun key =>
        ((Lookup.ofFindings findings).check? key).map fun check => (key, Action.ofCheck check)) ↔
      (findings.define.find? key).map (fun entry => Action.ofCheck entry.check) = some action := by
    have keyed : key ∈ (Lookup.ofFindings findings).defineValues.keys ↔
        (findings.define.find? key).isSome = true := by
      rw [KeyMap.mem_keys_iff, Lookup.ofFindings, Lookup.find?_values, Option.isSome_map]
    rw [List.mem_filterMap]
    constructor
    · intro mapped
      obtain ⟨name, member, same⟩ := mapped
      obtain ⟨check, found, pair⟩ := Option.map_eq_some_iff.mp same
      obtain ⟨rfl, rfl⟩ := Prod.mk.inj pair
      obtain ⟨entry, held⟩ := Option.isSome_iff_exists.mp (keyed.mp member)
      rw [Lookup.check?_ofFindings, held] at found
      rw [held, ← Option.some.inj found]
      rfl
    · intro defined
      obtain ⟨entry, held, rfl⟩ := Option.map_eq_some_iff.mp defined
      refine ⟨key, keyed.mpr (by rw [held]; rfl), ?_⟩
      rw [Lookup.check?_ofFindings, held]
      rfl
  apply Option.ext
  intro action
  rw [KeyMap.find?_ofList_eq_some_iff_of_unique, listed]
  intro first second firstMember secondMember
  exact Option.some.inj ((listed.mp firstMember).symm.trans (listed.mp secondMember))

private theorem find?_pendingActions (findings : Findings) (key : String) :
    (KeyMap.ofList ((Lookup.ofFindings findings).pendingNames.map fun name =>
      (name, Action.ofPackageName name
        (((Lookup.ofFindings findings).defineValues.find? name).getD "")))).find? key =
      if key ∈ (Lookup.ofFindings findings).pendingNames then some (Action.ofPackageName key "")
      else none := by
  have listed {action : Action} :
      (key, action) ∈ (Lookup.ofFindings findings).pendingNames.map (fun name =>
        (name, Action.ofPackageName name
          (((Lookup.ofFindings findings).defineValues.find? name).getD ""))) ↔
      key ∈ (Lookup.ofFindings findings).pendingNames ∧ Action.ofPackageName key "" = action := by
    rw [List.mem_map]
    constructor
    · intro mapped
      obtain ⟨name, member, pair⟩ := mapped
      obtain ⟨rfl, rfl⟩ := Prod.mk.inj pair
      have free := (Lookup.mem_pendingNames_iff.mp member).2.1
      rw [Lookup.ofFindings, Lookup.find?_values, free]
      exact ⟨member, rfl⟩
    · intro pending
      have free := (Lookup.mem_pendingNames_iff.mp pending.1).2.1
      refine ⟨key, pending.1, ?_⟩
      rw [Lookup.ofFindings, Lookup.find?_values, free, ← pending.2]
      rfl
  apply Option.ext
  intro action
  rw [KeyMap.find?_ofList_eq_some_iff_of_unique, listed]
  · split <;> simp [*]
  · intro first second firstMember secondMember
    exact (listed.mp firstMember).2.symm.trans (listed.mp secondMember).2

/-- What becomes of a name: the definition under it decides, and a package name without one and
without a marker is defined as empty. -/
theorem find?_undefActions_eq (findings : Findings) (key : String) :
    (Lookup.ofFindings findings).undefActions.find? key =
      match findings.define.find? key with
      | some entry => some (Action.ofCheck entry.check)
      | none =>
        if key ∈ packageNames ∧ findings.subst.find? key = none then
          some (Action.ofPackageName key "")
        else none := by
  rw [Lookup.undefActions, KeyMap.find?_ofList_append, find?_listedActions, find?_pendingActions]
  simp only [Lookup.mem_pendingNames_iff]
  cases findings.define.find? key with
  | some entry => simp
  | none => simp

/-- A marker is filled with the value of the result under it. -/
theorem find?_markerTexts (findings : Findings) (key : String) :
    (markerTexts findings (Lookup.ofFindings findings)).find? key =
      (findings.subst.find? key).map fun entry => Check.substText entry.check.storedValue := by
  rw [markerTexts]
  refine (findings.subst.find?_ofList_checks key fun check => Check.substText
    (((Lookup.ofFindings findings).substValues.find? check.markerName).getD "")).trans ?_
  cases found : findings.subst.find? key with
  | none => rfl
  | some entry =>
    have keyed : entry.check.markerName = key := (Catalog.find?_eq_some_iff.mp found).2
    rw [Option.map_some, Lookup.ofFindings, Lookup.find?_values, keyed, found]
    rfl

section Alike

/-- The same definitions, where the same package names have markers, give the same actions. -/
theorem undefActions_congr
    (define : ∀ key, (left.define.find? key).map (fun entry => Action.ofCheck entry.check) =
      (right.define.find? key).map fun entry => Action.ofCheck entry.check)
    (subst : ∀ name ∈ packageNames,
      (left.subst.find? name = none ↔ right.subst.find? name = none)) :
    (Lookup.ofFindings left).undefActions = (Lookup.ofFindings right).undefActions := by
  apply KeyMap.ext_find?
  intro key
  have actions := define key
  have pending : (key ∈ packageNames ∧ left.subst.find? key = none) ↔
      key ∈ packageNames ∧ right.subst.find? key = none := and_congr_right (subst key)
  rw [find?_undefActions_eq, find?_undefActions_eq]
  simp only [pending]
  cases leftFound : left.define.find? key with
  | none =>
    rw [leftFound] at actions
    rw [Option.map_eq_none_iff.mp actions.symm]
  | some entry =>
    rw [leftFound] at actions
    obtain ⟨other, rightFound, same⟩ := Option.map_eq_some_iff.mp actions.symm
    rw [rightFound]
    exact congrArg some same.symm

theorem markerTexts_congr
    (subst : ∀ key, (left.subst.find? key).map (fun entry => entry.check.storedValue) =
      (right.subst.find? key).map fun entry => entry.check.storedValue) :
    markerTexts left (Lookup.ofFindings left) = markerTexts right (Lookup.ofFindings right) := by
  apply KeyMap.ext_find?
  intro key
  have texts := congrArg (Option.map Check.substText) (subst key)
  rw [Option.map_map, Option.map_map] at texts
  rw [find?_markerTexts, find?_markerTexts]
  exact texts

theorem commentActions_congr (define : ∀ key, key ∈ left.define.keys ↔ key ∈ right.define.keys) :
    commentActions left = commentActions right := by
  apply KeyMap.ext_find?
  intro key
  rw [find?_commentActions, find?_commentActions]
  simp only [define key]

end Alike

end Template

end ConfigHeader
