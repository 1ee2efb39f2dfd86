import ConfigHeader.Proofs.KeyMapLookup
import ConfigHeader.Proofs.Template.SettledLines
import ConfigHeader.Template.Lookup

namespace ConfigHeader.Template

variable {findings : Findings} {key : String} {action : Action}

/-- A key of the definitions leads to a result under it, even if other roles share the key. -/
theorem mem_of_check? {check : Check}
    (member : key ∈ (Lookup.ofFindings findings).defineValues.keys)
    (found : (Lookup.ofFindings findings).check? key = some check) :
    check ∈ findings.define.checks ∧ check.definedName = key := by
  have keyed : ((KeyMap.ofList (Lookup.keyed findings.define)).find? key).isSome = true := by
    rw [KeyMap.find?_ofList_isSome_iff]
    simpa [Lookup.ofFindings, Lookup.values, KeyMap.mem_keys_ofList_iff, Lookup.keyed] using member
  obtain ⟨held, same⟩ := Option.isSome_iff_exists.mp keyed
  rw [Lookup.check?, Lookup.ofFindings, KeyMap.find?_ofList_append, same] at found
  obtain rfl : held = check := by simpa using found
  have entry := KeyMap.mem_of_find?_ofList same
  simp only [Lookup.keyed, List.mem_map, Prod.mk.injEq] at entry
  obtain ⟨other, inside, named, rfl⟩ := entry
  exact ⟨inside, named⟩

/-- A name is defined by a result under it, or as a package name without a value. -/
theorem find?_undefActions
    (found : (Lookup.ofFindings findings).undefActions.find? key = some action) :
    (∃ check ∈ findings.define.checks, check.definedName = key ∧ action = Action.ofCheck check) ∨
      action = Action.ofPackageName key "" := by
  rw [Lookup.undefActions] at found
  rcases List.mem_append.mp (KeyMap.mem_of_find?_ofList found) with defined | pending
  · obtain ⟨name, member, mapped⟩ := List.mem_filterMap.mp defined
    obtain ⟨check, held, same⟩ := Option.map_eq_some_iff.mp mapped
    obtain ⟨rfl, rfl⟩ := Prod.mk.injEq .. ▸ same
    obtain ⟨inside, named⟩ := mem_of_check? member held
    exact .inl ⟨check, inside, named, rfl⟩
  · obtain ⟨name, member, same⟩ := List.mem_map.mp pending
    obtain ⟨rfl, rfl⟩ := Prod.mk.injEq .. ▸ same
    have free := (List.mem_filter.mp member).2
    simp only [KeyMap.contains, Bool.and_eq_true, Bool.not_eq_true', Option.isSome_eq_false_iff,
      Option.isNone_iff_eq_none] at free
    have absent : (Lookup.ofFindings findings).defineValues.find? name = none := free.1
    right
    rw [absent]
    rfl

/-- The text for a check that is defined. -/
theorem text_of_ofCheck {check : Check} {text : String}
    (defined : Action.ofCheck check = .define text) :
    ∃ value ∈ [Check.defineText check.storedValue, "", "/**/"],
      text = "#define " ++ (check.definedName ++ " " ++ value) := by
  simp only [Action.ofCheck] at defined
  generalize (if check.kind.valueSuffices = true then check.success || check.value.isSome
    else check.success && check.filledValue?.isSome) = defines at defined
  cases defines with
  | false => cases defined
  | true =>
    obtain rfl := Action.define.inj defined
    cases filled : check.filledValue? with
    | some value =>
      have stored : check.storedValue = value := by
        simp [Check.storedValue, (Option.filter_eq_some_iff.mp filled).1]
      exact ⟨Check.defineText value, by simp [stored], by simp [String.append_assoc]⟩
    | none =>
      cases check.unquote with
      | true => exact ⟨"", by simp, by simp [String.append_assoc]⟩
      | false => exact ⟨"/**/", by simp, by simp [String.append_assoc]⟩

theorem isDefinition_of_count {rest : String} (newline : '\n' ∉ ("#define " ++ rest).toList)
    (hashes : ("#define " ++ rest).toList.count '#' ≤ 1) : IsDefinition ("#define " ++ rest) := by
  rw [String.toList_append] at newline hashes
  rw [List.count_append] at hashes
  have first : "#define ".toList.count '#' = 1 := by decide
  refine ⟨rest, rfl, fun member => newline (List.mem_append_right _ member), ?_⟩
  exact List.count_eq_zero.mp (by omega)

/-- The text holds no newline and no character that begins markup. -/
def IsPlain (text : String) : Prop :=
  ∀ char ∈ text.toList, char ∉ ['#', '@', '\n']

instance (text : String) : Decidable (IsPlain text) :=
  List.decidableBAll (fun char => char ∉ ['#', '@', '\n']) text.toList

namespace IsPlain

theorem append {first second : String} (left : IsPlain first) (right : IsPlain second) :
    IsPlain (first ++ second) := by
  intro char member
  rw [String.toList_append] at member
  rcases List.mem_append.mp member with earlier | later
  · exact left char earlier
  · exact right char later

theorem isDefinition {rest : String} (plain : IsPlain rest) : IsDefinition ("#define " ++ rest) :=
  ⟨rest, rfl, fun member => plain _ member (by simp), fun member => plain _ member (by simp)⟩

end IsPlain

theorem plain_nameText {name : Bytes} (identifier : IsIdentifier name) :
    IsPlain (nameText name) := by
  intro char member markup
  rw [nameText, String.toList_ofList] at member
  obtain ⟨byte, inside, rfl⟩ := List.mem_map.mp member
  have part := identifier.namePart inside
  have limit := byte.toNat_lt
  have decoded : (Char.ofNat byte.toNat).toNat = byte.toNat := by
    rw [Char.ofNat, dif_pos (.inl (by omega))]
    rfl
  have same : byte = UInt8.ofNat (Char.ofNat byte.toNat).toNat := by rw [decoded, UInt8.ofNat_toNat]
  simp only [List.mem_cons, List.not_mem_nil, or_false] at markup
  rcases markup with hash | atSign | newline
  · rw [same, hash] at part
    exact absurd part (by decide)
  · rw [same, atSign] at part
    exact absurd part (by decide)
  · rw [same, newline] at part
    exact absurd part (by decide)

/-- The texts for identifiers are definitions if those of the results have one line and one `#`. -/
theorem defining_of_texts (single : ∀ check ∈ findings.define.checks, ∀ text,
      Action.ofCheck check = .define text →
        '\n' ∉ text.toList ∧ text.toList.count '#' ≤ 1) :
    Defining (Lookup.ofFindings findings).undefActions := by
  intro name text identifier found
  rcases find?_undefActions found with ⟨check, member, -, same⟩ | same
  · obtain ⟨newline, hashes⟩ := single check member text same.symm
    obtain ⟨value, -, rfl⟩ := text_of_ofCheck same.symm
    exact isDefinition_of_count newline hashes
  · obtain rfl := Action.define.inj same
    have plain : IsPlain (nameText name ++ " \"\"") :=
      (plain_nameText identifier).append (by decide)
    simpa [String.append_assoc] using plain.isDefinition

/-- The values of all definitions and markers are plain. -/
structure PlainFindings (findings : Findings) : Prop where
  define : ∀ check ∈ findings.define.checks, IsPlain (Check.defineText check.storedValue)
  subst : ∀ check ∈ findings.subst.checks, IsPlain (Check.substText check.storedValue)

theorem PlainFindings.define_text (plain : PlainFindings findings) {name : Bytes} {text : String}
    (identifier : IsIdentifier name)
    (found : (Lookup.ofFindings findings).undefActions.find? (nameText name) =
      some (.define text)) : ∃ rest, text = "#define " ++ rest ∧ IsPlain rest := by
  have spaced := (plain_nameText identifier).append (by decide : IsPlain " ")
  rcases find?_undefActions found with ⟨check, member, named, same⟩ | same
  · obtain ⟨value, possible, rfl⟩ := text_of_ofCheck same.symm
    refine ⟨_, rfl, named ▸ spaced.append ?_⟩
    simp only [List.mem_cons, List.not_mem_nil, or_false] at possible
    rcases possible with rfl | rfl | rfl
    · exact plain.define check member
    · decide
    · decide
  · obtain rfl := Action.define.inj same
    exact ⟨nameText name ++ " " ++ "\"\"", by simp [String.append_assoc], spaced.append (by decide)⟩

theorem PlainFindings.defining (plain : PlainFindings findings) :
    Defining (Lookup.ofFindings findings).undefActions := by
  intro name text identifier found
  obtain ⟨rest, rfl, plainRest⟩ := plain.define_text identifier found
  exact plainRest.isDefinition

/-- The text of a marker is that of a result. -/
theorem PlainFindings.marker_text (plain : PlainFindings findings) {text : String}
    (found : (markerTexts findings (Lookup.ofFindings findings)).find? key = some text) :
    IsPlain text := by
  obtain ⟨check, member, same⟩ := List.mem_map.mp (KeyMap.mem_of_find?_ofList found)
  obtain ⟨rfl, rfl⟩ := Prod.mk.injEq .. ▸ same
  have present : ((Lookup.values findings.subst).find? check.markerName).isSome = true := by
    rw [Lookup.values, KeyMap.find?_ofList_isSome_iff, List.map_map]
    exact List.mem_map.mpr ⟨check, member, rfl⟩
  obtain ⟨stored, held⟩ := Option.isSome_iff_exists.mp present
  obtain ⟨other, inside, entry⟩ := List.mem_map.mp (KeyMap.mem_of_find?_ofList held)
  have value : stored = other.storedValue := (Prod.mk.inj entry).2.symm
  simpa [Lookup.ofFindings, held, value] using plain.subst other inside

theorem find?_commentActions :
    (commentActions findings).find? key =
      if key ∈ findings.define.keys then some .comment else none := by
  have present : ((commentActions findings).find? key).isSome = true ↔
      key ∈ findings.define.keys := by
    rw [commentActions, KeyMap.find?_ofList_isSome_iff, List.map_map]
    simp
  cases found : (commentActions findings).find? key with
  | none =>
    rw [found] at present
    rw [if_neg fun member => by simpa using present.mpr member]
  | some action =>
    rw [found] at present
    obtain ⟨listed, -, same⟩ := List.mem_map.mp (KeyMap.mem_of_find?_ofList found)
    rw [if_pos (present.mp rfl), (Prod.mk.inj same).2]

theorem defining_commentActions : Defining (commentActions findings) := by
  intro name text identifier found
  rw [find?_commentActions] at found
  split at found
  · cases found
  · cases found

end ConfigHeader.Template
