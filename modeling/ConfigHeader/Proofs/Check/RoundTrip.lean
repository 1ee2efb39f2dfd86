import ConfigHeader.Check.Document
import ConfigHeader.Check.Value
import ConfigHeader.Proofs.Json.RoundTrip
import ConfigHeader.Proofs.KeyMapLookup

/-! Results written and read again. The object of a result gives back all that it found, with its
value spelled as it is written; a document that is read, written and read again stays the same. -/
namespace ConfigHeader.Check

open Json

/-- The stored value of a value in an object. -/
def storedOf : Json → Option String
  | .null => none
  | .string "" => some ""
  | value => some value.compactText

section Value

variable {value : Json}

theorem storedOf_eq (filled : value ≠ .null) (visible : value ≠ .string "") :
    storedOf value = some value.compactText := by
  unfold storedOf
  split
  · exact absurd rfl filled
  · exact absurd rfl visible
  · rfl

theorem compactText_ne (value : Json) : value.compactText ≠ "" := by
  obtain ⟨first, others, same, -⟩ := opens_write value
  intro empty
  have chars := congrArg String.toList empty
  rw [compactText, String.toList_ofList, same] at chars
  exact absurd chars (by simp)

theorem valueJson_some {stored : String} (filled : stored ≠ "") :
    valueJson (some stored) = (ofText? stored).getD (.string stored) := by
  unfold valueJson
  split
  · rename_i none
    cases none
  · rename_i empty
    exact absurd (Option.some.inj empty) filled
  · rename_i same
    rw [Option.some.inj same]

/-- A value is told again by what is stored for it. -/
theorem valueJson_storedOf (fits : Fits nestingLimit value) : valueJson (storedOf value) = value := by
  unfold storedOf
  split
  · rfl
  · rfl
  · rw [valueJson_some (compactText_ne value), ofText?_compactText fits, Option.getD_some]

theorem fits_valueJson (stored : Option String) : Fits nestingLimit (valueJson stored) := by
  unfold valueJson
  split
  · trivial
  · trivial
  · rename_i stored _
    cases found : ofText? stored with
    | none => trivial
    | some value => exact fits_of_ofText? found

/-- The body of a definition with a value. -/
def definitionText : Json → String
  | .number value => String.ofList value.numeral
  | .bool value => if value then "true" else "false"
  | .string text => text
  | .null => ""
  | other => other.compactText

/-- The text in the place of a marker with a value. -/
def markerText : Json → String
  | .string text => text
  | .null => ""
  | other => other.compactText

theorem defineText_eq (stored : Option String) :
    defineText (stored.getD "") = definitionText (valueJson stored) := by
  cases stored with
  | none => rfl
  | some stored =>
    by_cases empty : stored = ""
    · subst empty
      rfl
    · rw [valueJson_some empty, Option.getD_some, defineText, if_neg empty]
      cases ofText? stored with
      | none => rfl
      | some value => cases value <;> rfl

theorem substText_eq (stored : Option String) :
    substText (stored.getD "") = markerText (valueJson stored) := by
  cases stored with
  | none => rfl
  | some stored =>
    by_cases empty : stored = ""
    · subst empty
      rfl
    · rw [valueJson_some empty, Option.getD_some, substText, if_neg empty]
      cases ofText? stored with
      | none => rfl
      | some value => cases value <;> rfl

end Value

section Object

variable {check : Check}

/-- The fields of a result, before they are put in order. -/
def writtenFields (check : Check) : List (String × Json) :=
  [("value", valueJson check.value),
    ("success", .bool check.success),
    ("is_define", .bool check.isDefine),
    ("is_subst", .bool check.isSubst),
    ("type", .string check.kind.tag),
    ("unquote", .bool check.unquote)] ++
  check.define.toList.map (fun define => ("define", .string define)) ++
  check.subst.toList.map (fun subst => ("subst", .string subst))

theorem lookup_toJson (check : Check) : ∃ fields, check.toJson = .object fields ∧
    ∀ key, fields.lookup key = (writtenFields check).reverse.lookup key := by
  refine ⟨_, rfl, fun key => ?_⟩
  rw [Fields.lookup_foldl_insert, List.lookup_nil, Option.or_none]
  rfl

theorem valueOfFields_eq {fields : List (String × Json)} {value : Json}
    (present : fields.lookup "value" = some value) (absent : fields.lookup "has_value" = none) :
    valueOfFields fields = storedOf value := by
  simp only [valueOfFields, present, absent, Option.bind_none]
  split
  · rename_i missing
    cases missing
  · rename_i same
    obtain rfl := Option.some.inj same
    simp [storedOf]
  · rename_i same
    obtain rfl := Option.some.inj same
    simp [storedOf]
  · rename_i filled visible same
    obtain rfl := Option.some.inj same
    rw [storedOf_eq (fun empty => filled (by rw [empty])) (fun empty => visible (by rw [empty]))]

theorem ofTag?_tag (kind : Kind) : Kind.ofTag? kind.tag = some kind := by
  cases kind <;> rfl

/-- The object of a result, written and read, spells the value as it is written. -/
theorem ofJson?_toJson (name : String) (check : Check) :
    ofJson? name check.toJson =
      some { check with name, value := storedOf (valueJson check.value) } := by
  obtain ⟨fields, same, found⟩ := lookup_toJson check
  obtain ⟨checkName, define, subst, value, success, isDefine, isSubst, kind, unquote⟩ := check
  have stored : valueOfFields fields = storedOf (valueJson value) := by
    apply valueOfFields_eq
    · rw [found]
      cases define <;> cases subst <;> rfl
    · rw [found]
      cases define <;> cases subst <;> rfl
  -- a name that is written implies no flag, since the flag is written beside it
  have read : ofFields? name fields = some ⟨name, define, subst, valueOfFields fields, success,
      isDefine, isSubst, (Kind.ofTag? kind.tag).getD .define, unquote⟩ := by
    simp only [ofFields?, flag, found]
    cases define <;> cases subst <;> rfl
  rw [same, ofJson?, fields?, Option.bind_some, read, stored, ofTag?_tag, Option.getD_some]

/-- A result is read from an object that tells whether the check succeeded. -/
theorem ofJson?_cases {name : String} {object : Json} (found : ofJson? name object = some check) :
    ∃ fields, object = .object fields ∧ fields.lookup "success" = some (.bool check.success) ∧
      check.name = name ∧ check.value = valueOfFields fields := by
  obtain ⟨fields, held, read⟩ := Option.bind_eq_some_iff.mp found
  obtain ⟨success, told, same⟩ := Option.bind_eq_some_iff.mp read
  obtain ⟨answer, present, boolean⟩ := Option.bind_eq_some_iff.mp told
  obtain rfl := Option.some.inj same
  cases object with
  | object inside =>
    obtain rfl := Option.some.inj held
    cases answer with
    | bool truth =>
      obtain rfl := Option.some.inj boolean
      exact ⟨inside, rfl, present, rfl, rfl⟩
    | _ => cases boolean
  | _ => cases held

theorem name_of_ofJson? {name : String} {object : Json}
    (found : ofJson? name object = some check) : check.name = name := by
  obtain ⟨_, -, -, named, -⟩ := ofJson?_cases found
  exact named

/-- Without a value, or with an empty one, nothing or the empty text is stored; the field
`has_value` only tells which. Any other value is stored as it is written. -/
theorem valueOfFields_cases (fields : List (String × Json)) :
    ((fields.lookup "value").getD .null = .null ∨
        (fields.lookup "value").getD .null = .string "") ∧
      (valueOfFields fields = none ∨ valueOfFields fields = some "") ∨
    ∃ value, fields.lookup "value" = some value ∧ value ≠ .null ∧ value ≠ .string "" ∧
      valueOfFields fields = some value.compactText := by
  simp only [valueOfFields]
  generalize (fields.lookup "has_value").bind Json.bool? = hasValue
  split
  · rename_i missing
    exact .inl ⟨.inl (by simp [missing]), .inl rfl⟩
  · rename_i absent
    refine .inl ⟨.inl (by simp [absent]), ?_⟩
    split
    · exact .inr rfl
    · exact .inl rfl
  · rename_i empty
    refine .inl ⟨.inr (by simp [empty]), ?_⟩
    split
    · exact .inl rfl
    · exact .inr rfl
  · rename_i value filled visible present
    exact .inr ⟨value, present, filled, visible, rfl⟩

theorem exists_storedOf {depth : ℕ} {fields : List (String × Json)}
    (inner : ∀ field ∈ fields, Fits depth field.2) :
    ∃ value, Fits depth value ∧ valueOfFields fields = storedOf value := by
  rcases valueOfFields_cases fields with
    ⟨-, absent | empty⟩ | ⟨value, found, filled, visible, written⟩
  · exact ⟨.null, fits_of_scalar trivial, absent⟩
  · exact ⟨.string "", fits_of_scalar trivial, empty⟩
  · obtain ⟨before, after, parts, -⟩ := List.lookup_eq_some_iff.mp found
    have inside : ("value", value) ∈ fields := by simp [parts]
    exact ⟨value, inner _ inside, written.trans (storedOf_eq filled visible).symm⟩

/-- The value of a result that was read is stored as it is written. -/
theorem stored_of_ofJson? {depth : ℕ} {name : String} {object : Json} (fits : Fits (depth + 1) object)
    (found : ofJson? name object = some check) :
    ∃ value, Fits depth value ∧ check.value = storedOf value := by
  obtain ⟨fields, rfl, -, -, stored⟩ := ofJson?_cases found
  rw [stored]
  exact exists_storedOf fits.2

theorem fits_toJson {depth : ℕ} {value : Json} (fits : Fits depth value)
    (stored : valueJson check.value = value) : Fits (depth + 1) check.toJson := by
  refine fits_ofFields fun field member => ?_
  simp only [List.cons_append, List.nil_append, List.mem_cons, List.mem_append,
    List.mem_map] at member
  rcases member with rfl | rfl | rfl | rfl | rfl | rfl | ⟨_, -, rfl⟩ | ⟨_, -, rfl⟩
  · exact stored ▸ fits
  all_goals exact fits_of_scalar trivial

end Object

section Document

theorem mapM_eq_ok_iff {α β ε : Type} {step : α → Except ε β} {items : List α} {results : List β} :
    items.mapM step = .ok results ↔
      List.Forall₂ (fun item result => step item = .ok result) items results := by
  induction items generalizing results with
  | nil =>
    rw [List.forall₂_nil_left_iff, List.mapM_nil]
    constructor
    · intro done
      exact (Except.ok.inj done).symm
    · rintro rfl
      rfl
  | cons item items ih =>
    rw [List.forall₂_cons_left_iff, List.mapM_cons]
    cases first : step item with
    | error defect => simp [bind, Except.bind]
    | ok result =>
      cases later : items.mapM step with
      | error defect => simp [bind, Except.bind, ← ih, later]
      | ok others =>
        simp only [← ih, later, bind, Except.bind, pure, Except.pure, Except.ok.injEq]
        constructor
        · rintro rfl
          exact ⟨result, others, rfl, rfl, rfl⟩
        · rintro ⟨_, _, rfl, rfl, rfl⟩
          rfl

/-- The results of a document are those of its fields, one by one. -/
theorem ofEntries_eq_ok_iff {fields : List (String × Json)} {checks : List Check} :
    ofEntries fields = .ok checks ↔
      List.Forall₂ (fun field check => ofJson? field.1 field.2 = some check) fields checks := by
  rw [ofEntries, mapM_eq_ok_iff]
  constructor
  · refine List.Forall₂.imp fun field check read => ?_
    cases found : ofJson? field.1 field.2 with
    | none => simp [found] at read
    | some check => simpa [found] using read
  · refine List.Forall₂.imp fun field check found => ?_
    simp [found]

/-- A document that is read holds fields in the order of their keys, one for each result. -/
theorem exists_fields {text : String} {checks : List Check} (read : ofDocument text = .ok checks) :
    ∃ fields, Fits nestingLimit (.object fields) ∧
      List.Forall₂ (fun field check => ofJson? field.1 field.2 = some check) fields checks := by
  have none : Fits nestingLimit (.object []) := ⟨List.Pairwise.nil, by simp⟩
  unfold ofDocument at read
  split at read
  · obtain rfl := Except.ok.inj read
    exact ⟨[], none, .nil⟩
  · split at read
    · cases read
    · rename_i fields found
      exact ⟨fields, fits_of_ofText? found, ofEntries_eq_ok_iff.mp read⟩
    · obtain rfl := Except.ok.inj read
      exact ⟨[], none, .nil⟩

theorem names_of_forall₂ {fields : List (String × Json)} {checks : List Check}
    (results : List.Forall₂ (fun field check => ofJson? field.1 field.2 = some check) fields checks) :
    checks.map Check.name = fields.map Prod.fst := by
  induction results with
  | nil => rfl
  | cons read _ ih => rw [List.map_cons, List.map_cons, name_of_ofJson? read, ih]

/-- The results of a document are in the order of their names. -/
theorem sorted_names {text : String} {checks : List Check} (read : ofDocument text = .ok checks) :
    checks.Pairwise fun left right => left.name < right.name := by
  obtain ⟨fields, ⟨sorted, -⟩, results⟩ := exists_fields read
  rw [← @List.pairwise_map _ _ Check.name (· < ·), names_of_forall₂ results, List.pairwise_map]
  exact sorted

theorem exists_field {fields : List (String × Json)} {checks : List Check}
    (results : List.Forall₂ (fun field check => ofJson? field.1 field.2 = some check) fields checks) :
    ∀ check ∈ checks, ∃ field ∈ fields, ofJson? field.1 field.2 = some check := by
  induction results with
  | nil => simp
  | cons read _ ih =>
    intro check member
    rcases List.mem_cons.mp member with rfl | later
    · exact ⟨_, List.mem_cons_self, read⟩
    · obtain ⟨field, inside, found⟩ := ih check later
      exact ⟨field, List.mem_cons_of_mem _ inside, found⟩

/-- A result whose value is stored as it is written is read back from its object. -/
theorem ofJson?_toJson_of_stored {check : Check} {value : Json} (fits : Fits nestingLimit value)
    (stored : check.value = storedOf value) : ofJson? check.name check.toJson = some check := by
  rw [ofJson?_toJson, stored, valueJson_storedOf fits, ← stored]

theorem isBlankText_of_brace {text : String} {rest : List Char}
    (opening : text.toList = '\x7b' :: rest) : Space.isBlankText text = false := by
  have solid : Space.isSpace '\x7b' = false := by decide
  rw [Space.isBlankText, opening, List.all_cons, solid, Bool.false_and]

/-- Results are read from a text for their document if each one is read back from its object. -/
theorem ofDocument_of_object {text : String} {rest : List Char} {checks : List Check}
    (opening : text.toList = '\x7b' :: rest)
    (found : Json.ofText? text = some (.object (checks.map fun check => (check.name, check.toJson))))
    (again : ∀ check ∈ checks, ofJson? check.name check.toJson = some check) :
    ofDocument text = .ok checks := by
  simp only [ofDocument, isBlankText_of_brace opening, found]
  rw [if_neg (by simp), ofEntries_eq_ok_iff, List.forall₂_map_left_iff, List.forall₂_same]
  exact again

/-- Results are read back from their document if each one is read back from its object. -/
theorem ofDocument_toDocument {checks : List Check}
    (sorted : Fields.Sorted (checks.map fun check => (check.name, check.toJson)))
    (again : ∀ check ∈ checks, Fits 126 check.toJson ∧
      ofJson? check.name check.toJson = some check) :
    ofDocument (toDocument checks).compactText = .ok checks := by
  have document : toDocument checks = .object (checks.map fun check => (check.name, check.toJson)) :=
    ofFields_of_sorted sorted
  have inside : Fits nestingLimit (toDocument checks) := by
    rw [document]
    refine ⟨sorted, fun field member => ?_⟩
    obtain ⟨check, held, rfl⟩ := List.mem_map.mp member
    exact (again check held).1
  have opening : ∃ rest, (toDocument checks).compactText.toList = '\x7b' :: rest := by
    rw [document, compactText, String.toList_ofList]
    cases checks <;> exact ⟨_, rfl⟩
  have found := ofText?_compactText inside
  obtain ⟨rest, opening⟩ := opening
  rw [document] at found opening ⊢
  exact ofDocument_of_object opening found fun check held => (again check held).2

/-- A document that was read, written and read again holds the same results. -/
theorem ofDocument_again {text : String} {checks : List Check}
    (read : ofDocument text = .ok checks) :
    ofDocument (toDocument checks).compactText = .ok checks := by
  obtain ⟨fields, ⟨sorted, inner⟩, results⟩ := exists_fields read
  apply ofDocument_toDocument
  · rw [Fields.Sorted, ← @List.pairwise_map _ _ Prod.fst (· < ·), List.map_map] at *
    exact (names_of_forall₂ results) ▸ sorted
  · intro check member
    obtain ⟨field, inside, found⟩ := exists_field results check member
    obtain ⟨value, fits, stored⟩ := stored_of_ofJson? (inner field inside) found
    have deeper : Fits nestingLimit value := fits.mono (by decide)
    refine ⟨fits_toJson fits ?_, ofJson?_toJson_of_stored deeper stored⟩
    rw [stored, valueJson_storedOf deeper]

end Document

/-- A result that is written and read has all that was found, and a value with the same texts; from
then on it stays as it is. A document that was read stays as it is. -/
theorem written_results_read_back :
    (∀ check : Check, ∃ again, ofJson? check.name check.toJson = some again ∧
      (again.name = check.name ∧ again.define = check.define ∧ again.subst = check.subst ∧
        again.success = check.success ∧ again.isDefine = check.isDefine ∧
        again.isSubst = check.isSubst ∧ again.kind = check.kind ∧
        again.unquote = check.unquote) ∧
      defineText again.storedValue = defineText check.storedValue ∧
      substText again.storedValue = substText check.storedValue ∧
      ofJson? again.name again.toJson = some again) ∧
    ∀ text checks, ofDocument text = .ok checks →
      ofDocument (toDocument checks).compactText = .ok checks := by
  refine ⟨fun check => ?_, fun text checks => ofDocument_again⟩
  have fits := fits_valueJson check.value
  refine ⟨_, ofJson?_toJson check.name check, by simp, ?_, ?_, ofJson?_toJson_of_stored fits rfl⟩
  · rw [storedValue, storedValue, defineText_eq, defineText_eq, valueJson_storedOf fits]
  · rw [storedValue, storedValue, substText_eq, substText_eq, valueJson_storedOf fits]

theorem written_results_read_back_undefined :
    ofDocument
        "\x7b\"A\":\x7b\"success\":true,\"define\":\"B\",\"is_define\":false,\"value\":7\x7d\x7d" =
      .ok [⟨"A", some "B", none, some "7", true, false, false, .define, false⟩] ∧
    ofDocument
        (toDocument [⟨"A", some "B", none, some "7", true, false, false, .define, false⟩]).compactText =
      .ok [⟨"A", some "B", none, some "7", true, false, false, .define, false⟩] := by
  have read : ofDocument
      "\x7b\"A\":\x7b\"success\":true,\"define\":\"B\",\"is_define\":false,\"value\":7\x7d\x7d" =
      .ok [⟨"A", some "B", none, some "7", true, false, false, .define, false⟩] := by
    rfl
  exact ⟨read, written_results_read_back.2 _ _ read⟩

end ConfigHeader.Check
