import ConfigHeader.Proofs.Template.Cuttings
import ConfigHeader.Proofs.Template.FindingsView
import ConfigHeader.Proofs.Template.ValidOutput

namespace ConfigHeader

section Catalogs

variable {role : Role} {catalog : Catalog role} {key : String} {check : Check}

/-- The result of a catalog that has the key. -/
theorem Catalog.map_check_eq_some_iff :
    (catalog.find? key).map Entry.check = some check ↔
      check ∈ catalog.checks ∧ role.key check = key := by
  rw [Option.map_eq_some_iff, checks, List.mem_map]
  constructor
  · rintro ⟨entry, found, rfl⟩
    obtain ⟨member, keyed⟩ := find?_eq_some_iff.mp found
    exact ⟨⟨entry, member, rfl⟩, keyed⟩
  · rintro ⟨⟨entry, member, rfl⟩, keyed⟩
    exact ⟨entry, find?_eq_some_iff.mpr ⟨member, keyed⟩, rfl⟩

theorem Catalog.check_unique {other : Check} (member : check ∈ catalog.checks)
    (member' : other ∈ catalog.checks) (same : role.key check = role.key other) : check = other := by
  have found := map_check_eq_some_iff.mpr ⟨member, same⟩
  rw [map_check_eq_some_iff.mpr ⟨member', rfl⟩] at found
  exact (Option.some.inj found).symm

end Catalogs

theorem textBytes_nameText {name : Bytes} (identifier : IsIdentifier name) :
    textBytes (nameText name) = name := by
  rw [textBytes, nameText, String.toList_ofList, List.flatMap_map]
  have single : ∀ byte ∈ name, String.utf8EncodeChar (Char.ofNat byte.toNat) = [byte] :=
    fun byte member => Utf8.utf8EncodeChar_of_ascii
      (Byte.ascii_of_isNamePart (identifier.namePart member))
  rw [List.flatMap_congr single, List.flatMap_singleton']

namespace Template

variable {findings : Findings} {key : String} {check : Check}

theorem Cutting.Exact.formed {cutting : Cutting} (exact : cutting.Exact) {line : UndefDirective}
    (member : line ∈ cutting.lines) : line.Formed := by
  induction cutting with
  | last plain => cases member
  | next plain directive later ih =>
    obtain ⟨-, opens, others⟩ := exact
    rcases List.mem_cons.mp member with rfl | later
    · exact opens.1
    · exact ih others later

/-- A definition hides a marker with its name, and a marker hides a cached result. -/
inductive Shown (findings : Findings) (key : String) (check : Check) : Prop where
  | define (listed : check ∈ findings.define.checks) (keyed : check.definedName = key)
  | subst (undefined : key ∉ findings.define.keys)
    (listed : check ∈ findings.subst.checks) (keyed : check.markerName = key)
  | cache (undefined : key ∉ findings.define.keys) (unmarked : key ∉ findings.subst.keys)
    (listed : check ∈ findings.cache.checks) (keyed : check.name = key)

theorem check?_eq_some_iff :
    (Lookup.ofFindings findings).check? key = some check ↔ Shown findings key check := by
  rw [Lookup.check?_ofFindings, Option.or_eq_some_iff, Option.or_eq_some_iff,
    Catalog.map_check_eq_some_iff, Catalog.map_check_eq_some_iff, Catalog.map_check_eq_some_iff,
    Option.map_eq_none_iff, Option.map_eq_none_iff, Catalog.find?_eq_none_iff,
    Catalog.find?_eq_none_iff]
  constructor
  · rintro (⟨listed, keyed⟩ | ⟨undefined, ⟨listed, keyed⟩ | ⟨unmarked, listed, keyed⟩⟩)
    · exact .define listed keyed
    · exact .subst undefined listed keyed
    · exact .cache undefined unmarked listed keyed
  · intro shown
    cases shown with
    | define listed keyed => exact .inl ⟨listed, keyed⟩
    | subst undefined listed keyed => exact .inr ⟨undefined, .inl ⟨listed, keyed⟩⟩
    | cache undefined unmarked listed keyed =>
      exact .inr ⟨undefined, .inr ⟨unmarked, listed, keyed⟩⟩

/-- What stands in the place of a line, as its name decides. -/
inductive Decided (findings : Findings) (line : UndefDirective) : Bytes → Prop where
  /-- The definition writes a text, with the blanks of the line behind its `#`. -/
  | defined {check : Check} {rest : String} (listed : check ∈ findings.define.checks)
    (keyed : check.definedName = nameText line.name)
    (action : Action.ofCheck check = .define ("#" ++ rest)) :
    Decided findings line
      (textBytes "#" ++ line.spacing ++ textBytes rest ++ line.newlines)
  | hidden {check : Check} (listed : check ∈ findings.define.checks)
    (keyed : check.definedName = nameText line.name)
    (action : Action.ofCheck check = .comment) :
    Decided findings line
      (textBytes "/* #" ++ line.spacing ++ textBytes "undef " ++ line.name ++ textBytes " */" ++
        line.newlines)
  | package (undefined : nameText line.name ∉ findings.define.keys)
    (package : nameText line.name ∈ packageNames)
    (unmarked : nameText line.name ∉ findings.subst.keys) :
    Decided findings line
      (textBytes "#" ++ line.spacing ++ textBytes "define " ++ line.name ++ textBytes " \"\"" ++
        line.newlines)
  | unknown (undefined : nameText line.name ∉ findings.define.keys)
    (taken : nameText line.name ∈ packageNames → nameText line.name ∈ findings.subst.keys) :
    Decided findings line
      (textBytes "/* #" ++ line.spacing ++ textBytes "undef " ++ line.name ++ textBytes " */" ++
        line.newlines)

theorem exists_hash_of_ofCheck {text : String} (action : Action.ofCheck check = .define text) :
    ∃ rest, text = "#" ++ rest := by
  obtain ⟨value, -, rfl⟩ := text_of_ofCheck action
  exact ⟨"define " ++ (check.definedName ++ " " ++ value), by rw [← String.append_assoc]; rfl⟩

theorem ofPackageName_eq (name : String) :
    Action.ofPackageName name "" = .define ("#" ++ ("define " ++ name ++ " \"\"")) := by
  have opening : ("#define " : String) = "#" ++ "define " := rfl
  have ending : (" \"\"" : String) = " " ++ "\"\"" := rfl
  rw [Action.ofPackageName, if_pos rfl, opening, ending]
  simp only [String.append_assoc]

theorem decided_replacement {line : UndefDirective} (identifier : IsIdentifier line.name) :
    Decided findings line (line.replacement .comment
      ((Lookup.ofFindings findings).undefActions.find? (nameText line.name))) := by
  rw [find?_undefActions_eq]
  cases found : findings.define.find? (nameText line.name) with
  | some entry =>
    obtain ⟨listed, keyed⟩ :=
      Catalog.map_check_eq_some_iff.mp ((congrArg (Option.map Catalog.Entry.check) found).trans rfl)
    cases action : Action.ofCheck entry.check with
    | comment =>
      simp only [action]
      exact .hidden listed keyed action
    | define text =>
      obtain ⟨rest, rfl⟩ := exists_hash_of_ofCheck action
      simp only [action, UndefDirective.replacement, defined_directive]
      exact .defined listed keyed action
  | none =>
    have undefined := Catalog.find?_eq_none_iff.mp found
    simp only [Catalog.find?_eq_none_iff]
    split
    · rename_i pending
      have written : line.replacement .comment (some (Action.ofPackageName (nameText line.name) "")) =
          textBytes "#" ++ line.spacing ++ textBytes "define " ++ line.name ++ textBytes " \"\"" ++
            line.newlines := by
        rw [ofPackageName_eq, UndefDirective.replacement, defined_directive]
        simp only [textBytes_append, textBytes_nameText identifier, List.append_assoc]
      rw [written]
      exact .package undefined pending.1 pending.2
    · rename_i other
      exact .unknown undefined fun package => not_not.mp fun unmarked => other ⟨package, unmarked⟩

/-- The pass decides every line by its name: the one definition with the name counts before all
else, and a name of the package that nothing takes is defined as empty, since no value is stored for
it. A key leads to a definition before a marker, and to a marker before a cached result. -/
theorem renderUndefs_by_name (findings : Findings) (content : Bytes) :
    (∃ cutting : Cutting, (∀ other : Cutting, other.IsOf content ↔ other = cutting) ∧
      ∃ put : UndefDirective → Bytes, (∀ line ∈ cutting.lines, Decided findings line (put line)) ∧
        renderUndefs (Lookup.ofFindings findings) content = cutting.withLines put) ∧
    (∀ check ∈ findings.define.checks, ∀ other ∈ findings.define.checks,
      check.definedName = other.definedName → check = other) ∧
    (∀ key check, (Lookup.ofFindings findings).check? key = some check ↔
      Shown findings key check) ∧
    ∀ name ∈ (Lookup.ofFindings findings).pendingNames,
      ((Lookup.ofFindings findings).defineValues.find? name).getD "" = "" := by
  refine ⟨?_, fun check member other member' => Catalog.check_unique member member',
    fun key check => check?_eq_some_iff, fun name pending => ?_⟩
  · obtain ⟨cutting, cut⟩ := Cutting.exists_isOf content
    refine ⟨cutting, fun other => ⟨fun cut' => ?_, fun same => same ▸ cut⟩, _, ?_,
      cut.settleUndefs_eq (Lookup.ofFindings findings).undefActions .comment⟩
    · exact cut'.exact.unique cut.exact (cut'.text.trans cut.text.symm)
    · exact fun line member => decided_replacement (cut.exact.formed member).name
  · have undefined := (Lookup.mem_pendingNames_iff.mp pending).2.1
    rw [Lookup.ofFindings, Lookup.find?_values, undefined]
    rfl

-- without any results the names of the package are defined as empty, and no other name is
example :
    (Lookup.ofFindings {}).pendingNames = ["PACKAGE_BUGREPORT", "PACKAGE_NAME", "PACKAGE_STRING",
      "PACKAGE_TARNAME", "PACKAGE_URL", "PACKAGE_VERSION"] ∧
    renderUndefs (Lookup.ofFindings {}) (textBytes "# undef PACKAGE_URL\n#undef PACKAGE\n") =
      textBytes "# define PACKAGE_URL \"\"\n/* #undef PACKAGE */\n" := by decide +kernel

end Template

end ConfigHeader
