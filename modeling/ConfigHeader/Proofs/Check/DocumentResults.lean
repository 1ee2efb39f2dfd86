import ConfigHeader.Fault
import ConfigHeader.Proofs.Check.RoundTrip
import ConfigHeader.Proofs.Json.ObjectTexts
import ConfigHeader.Proofs.TextOrder

namespace ConfigHeader.Check

open Json

variable {text name : String} {value : Json} {members fields : List (String × Json)}
  {checks : List Check}

/-- The value is an object that tells whether a check succeeded. -/
def TellsSuccess (value : Json) : Prop :=
  ∃ fields success, value = .object fields ∧ fields.lookup "success" = some (.bool success)

theorem exists_ofJson?_iff :
    (∃ check, ofJson? name value = some check) ↔ TellsSuccess value := by
  constructor
  · intro found
    obtain ⟨check, found⟩ := found
    obtain ⟨fields, same, success, -⟩ := ofJson?_cases found
    exact ⟨fields, check.success, same, success⟩
  · intro tells
    obtain ⟨fields, success, rfl, present⟩ := tells
    simp [ofJson?, fields?, ofFields?, present, bool?]

/-- Items are all answered, or the first refusal is that of an item behind answered ones. -/
theorem mapM_cases {α β ε : Type} (step : α → Except ε β) (items : List α) :
    (∃ results, items.mapM step = .ok results) ∨
      ∃ before item after defect, items = before ++ item :: after ∧
        (∀ earlier ∈ before, ∃ result, step earlier = .ok result) ∧
        step item = .error defect ∧ items.mapM step = .error defect := by
  induction items with
  | nil => exact .inl ⟨[], rfl⟩
  | cons item items ih =>
    rw [List.mapM_cons]
    cases first : step item with
    | error defect => exact .inr ⟨[], item, items, defect, rfl, by simp, first, rfl⟩
    | ok result =>
      rcases ih with
        ⟨results, answered⟩ | ⟨before, other, after, defect, rfl, early, refused, whole⟩
      · rw [answered]
        exact .inl ⟨result :: results, rfl⟩
      · rw [whole]
        have answered := List.forall_mem_cons.mpr ⟨⟨result, first⟩, early⟩
        exact .inr ⟨item :: before, other, after, defect, rfl, answered, refused, rfl⟩

/-- The result of each field is read, or the first field without one is named. -/
theorem ofEntries_cases (fields : List (String × Json)) :
    (∃ checks, ofEntries fields = .ok checks) ∨
      ∃ before name value after, fields = before ++ (name, value) :: after ∧
        (∀ earlier ∈ before, TellsSuccess earlier.2) ∧ ¬ TellsSuccess value ∧
        ofEntries fields = .error (.noSuccess name) := by
  rcases mapM_cases _ fields with
    read | ⟨before, ⟨name, value⟩, after, defect, parts, early, refused, whole⟩
  · exact .inl read
  · have earlier : ∀ field ∈ before, TellsSuccess field.2 := by
      intro field member
      obtain ⟨key, other⟩ := field
      obtain ⟨result, read⟩ := early (key, other) member
      dsimp only at read
      split at read
      · rename_i check found
        exact exists_ofJson?_iff.mp ⟨check, found⟩
      · cases read
    dsimp only at refused
    split at refused
    · cases refused
    · rename_i absent
      have flaw : ¬ TellsSuccess value := by
        intro tells
        obtain ⟨check, found⟩ := exists_ofJson?_iff.mpr tells
        rw [absent] at found
        cases found
      obtain rfl := Except.error.inj refused
      exact .inr ⟨before, name, value, after, parts, earlier, flaw, whole⟩

/-- The results are those of the members: one for each key, of the value that stands last under it,
in the order of the bytes of the keys. -/
structure ResultsOf (members : List (String × Json)) (checks : List Check) : Prop where
  ordered : checks.Pairwise fun left right => textBytes left.name < textBytes right.name
  names : ∀ key, (∃ check ∈ checks, check.name = key) ↔ ∃ member ∈ members, member.1 = key
  each : ∀ check ∈ checks, ∃ value, LastUnder members check.name value ∧
    ofJson? check.name value = some check

namespace ResultsOf

variable {others : List Check} {check : Check} {key : String}

theorem mem_iff (results : ResultsOf members checks) :
    check ∈ checks ↔
      ∃ value, LastUnder members check.name value ∧ ofJson? check.name value = some check := by
  constructor
  · exact results.each check
  · intro found
    obtain ⟨value, last, read⟩ := found
    obtain ⟨other, member, same⟩ := (results.names check.name).mpr ⟨_, last.mem, rfl⟩
    obtain ⟨otherValue, otherLast, otherRead⟩ := results.each other member
    rw [same] at otherLast otherRead
    rw [last.unique otherLast, otherRead] at read
    exact Option.some.inj read ▸ member

theorem nodup_names (results : ResultsOf members checks) : (checks.map Check.name).Nodup :=
  nodup_of_ordered (List.pairwise_map.mpr results.ordered)

/-- The members tell the results and their order. -/
theorem unique (first : ResultsOf members checks) (second : ResultsOf members others) :
    checks = others := by
  have perm : checks.Perm others := by
    apply (List.perm_ext_iff_of_nodup first.nodup_names.of_map second.nodup_names.of_map).mpr
    intro check
    rw [first.mem_iff, second.mem_iff]
  apply perm.eq_of_pairwise _ first.ordered second.ordered
  intro left right _ _ before after
  exact absurd after (List.lt_asymm before)

theorem tellsSuccess (results : ResultsOf members checks) (last : LastUnder members key value) :
    TellsSuccess value := by
  obtain ⟨check, member, rfl⟩ := (results.names key).mpr ⟨_, last.mem, rfl⟩
  obtain ⟨other, otherLast, read⟩ := results.each check member
  rw [last.unique otherLast]
  exact exists_ofJson?_iff.mp ⟨check, read⟩

end ResultsOf

theorem resultsOf_entries
    (results : List.Forall₂ (fun field check => ofJson? field.1 field.2 = some check)
      (KeyMap.ofList members).entries checks) : ResultsOf members checks where
  ordered := by
    simp only [textBytes_lt_iff]
    rw [← @List.pairwise_map _ _ Check.name (· < ·), names_of_forall₂ results, List.pairwise_map]
    exact (KeyMap.ofList members).sorted
  names key := by
    have same : (∃ check ∈ checks, check.name = key) ↔ key ∈ (KeyMap.ofList members).keys := by
      rw [KeyMap.keys, ← names_of_forall₂ results, List.mem_map]
    rw [same, KeyMap.mem_keys_ofList_iff, List.mem_map]
  each check member := by
    obtain ⟨⟨key, value⟩, inside, found⟩ := exists_field results check member
    obtain rfl := name_of_ofJson? found
    exact ⟨value, mem_entries_iff_lastUnder.mp inside, found⟩

/-- The value that stands last under the key does not tell whether its check succeeded. -/
def Flawed (members : List (String × Json)) (key : String) : Prop :=
  ∃ value, LastUnder members key value ∧ ¬ TellsSuccess value

/-- The key is the least of those with a flawed value. -/
def FirstFlawed (members : List (String × Json)) (key : String) : Prop :=
  Flawed members key ∧
    ∀ other, Flawed members other → other = key ∨ textBytes key < textBytes other

theorem FirstFlawed.unique {key other : String} (first : FirstFlawed members key)
    (second : FirstFlawed members other) : other = key := by
  rcases first.2 other second.1 with same | before
  · exact same
  · rcases second.2 key first.1 with same | after
    · exact same.symm
    · exact absurd after (List.lt_asymm before)

theorem firstFlawed_of_entries {before after : List (String × Json)}
    (parts : (KeyMap.ofList members).entries = before ++ (name, value) :: after)
    (early : ∀ earlier ∈ before, TellsSuccess earlier.2) (flaw : ¬ TellsSuccess value) :
    FirstFlawed members name := by
  have member : (name, value) ∈ (KeyMap.ofList members).entries := by simp [parts]
  refine ⟨⟨value, mem_entries_iff_lastUnder.mp member, flaw⟩, fun other flawed => ?_⟩
  obtain ⟨otherValue, last, otherFlaw⟩ := flawed
  have inside := mem_entries_iff_lastUnder.mpr last
  have sorted := (KeyMap.ofList members).sorted
  rw [parts] at inside sorted
  rcases List.mem_append.mp inside with earlier | later
  · exact absurd (early _ earlier) otherFlaw
  · rcases List.mem_cons.mp later with same | behind
    · exact .inl (Prod.mk.inj same).1
    · have tail := (List.pairwise_append.mp sorted).2.1
      exact .inr (textBytes_lt_iff.mpr ((List.pairwise_cons.mp tail).1 _ behind))

/-- The results of the members are read, or the first flawed key is named. -/
theorem ofEntries_ofList_cases (members : List (String × Json)) :
    (∃ checks, ofEntries (KeyMap.ofList members).entries = .ok checks ∧ ResultsOf members checks) ∨
    ∃ name, FirstFlawed members name ∧
      ofEntries (KeyMap.ofList members).entries = .error (.noSuccess name) := by
  rcases ofEntries_cases (KeyMap.ofList members).entries with
    ⟨checks, read⟩ | ⟨before, name, value, after, parts, early, flaw, refused⟩
  · exact .inl ⟨checks, read, resultsOf_entries (ofEntries_eq_ok_iff.mp read)⟩
  · exact .inr ⟨name, firstFlawed_of_entries parts early flaw, refused⟩

/-- What comes of the text of a results file. -/
inductive DocumentEnds (path : Path) (text : String) : Except Fault (List Check) → Prop where
  | blank (blank : Space.isBlankText text = true) : DocumentEnds path text (.ok [])
  | noObject {value : Json} (solid : Space.isBlankText text = false)
      (found : Json.ofText? text = some value) (other : value.fields? = none) :
      DocumentEnds path text (.ok [])
  | results {members : List (String × Json)} {checks : List Check}
      (object : IsObjectText text members) (results : ResultsOf members checks) :
      DocumentEnds path text (.ok checks)
  | flawed {members : List (String × Json)} {name : String} (object : IsObjectText text members)
      (first : FirstFlawed members name) :
      DocumentEnds path text (.error (.malformedResults path (.noSuccess name)))
  | notJson (solid : Space.isBlankText text = false) (refused : Json.ofText? text = none) :
      DocumentEnds path text (.error (.malformedResults path .notJson))

theorem ofDocument_of_isObjectText (object : IsObjectText text members) :
    ofDocument text = ofEntries (KeyMap.ofList members).entries := by
  simp only [ofDocument, object.not_blank, object.ofText?, ofFields_eq]
  rfl

theorem ofDocument_ends (path : Path) (text : String) :
    DocumentEnds path text ((ofDocument text).mapError (Fault.malformedResults path)) := by
  unfold ofDocument
  split
  · rename_i blank
    exact .blank blank
  · rename_i filled
    have solid : Space.isBlankText text = false := by simpa using filled
    split
    · rename_i refused
      exact .notJson solid refused
    · rename_i fields found
      obtain ⟨members, object, held⟩ := exists_members found
      rw [ofFields_eq] at held
      obtain rfl := Json.object.inj held
      rcases ofEntries_ofList_cases members with ⟨checks, read, results⟩ | ⟨name, first, refused⟩
      · rw [read]
        exact .results object results
      · rw [refused]
        exact .flawed object first
    · rename_i value other found
      refine .noObject solid found ?_
      cases value with
      | object fields => exact (other fields rfl).elim
      | _ => rfl

/-- The text tells how its reading ends. -/
theorem DocumentEnds.eq {path : Path} {outcome : Except Fault (List Check)}
    (ends : DocumentEnds path text outcome) :
    (ofDocument text).mapError (Fault.malformedResults path) = outcome := by
  cases ends with
  | blank blank =>
    rw [ofDocument, if_pos blank]
    rfl
  | @noObject value solid found other =>
    simp only [ofDocument, solid, found]
    cases value with
    | object fields => cases other
    | _ => rfl
  | @results members checks object results =>
    rw [ofDocument_of_isObjectText object]
    rcases ofEntries_ofList_cases members with ⟨others, read, same⟩ | ⟨name, first, -⟩
    · rw [read, same.unique results]
      rfl
    · obtain ⟨value, last, flaw⟩ := first.1
      exact absurd (results.tellsSuccess last) flaw
  | @flawed members name object first =>
    rw [ofDocument_of_isObjectText object]
    rcases ofEntries_ofList_cases members with ⟨checks, -, results⟩ | ⟨other, least, refused⟩
    · obtain ⟨value, last, flaw⟩ := first.1
      exact absurd (results.tellsSuccess last) flaw
    · rw [refused, first.unique least]
      rfl
  | notJson solid refused =>
    simp only [ofDocument, solid, refused]
    rfl

/-- The text is blank, holds a value that is no object, or is an object in which every value that
counts tells whether its check succeeded. -/
def Readable (text : String) : Prop :=
  Space.isBlankText text = true ∨
  (∃ value, Json.ofText? text = some value ∧ value.fields? = none) ∨
  ∃ members, IsObjectText text members ∧
    ∀ key value, LastUnder members key value → TellsSuccess value

theorem DocumentEnds.readable {path : Path} (ends : DocumentEnds path text (.ok checks)) :
    Readable text := by
  cases ends with
  | blank blank => exact .inl blank
  | noObject solid found other => exact .inr (.inl ⟨_, found, other⟩)
  | results object results =>
    exact .inr (.inr ⟨_, object, fun key value last => results.tellsSuccess last⟩)

theorem Readable.exists_results (readable : Readable text) (path : Path) :
    ∃ checks, DocumentEnds path text (.ok checks) := by
  rcases readable with blank | ⟨value, found, other⟩ | ⟨members, object, tells⟩
  · exact ⟨[], .blank blank⟩
  · cases blank : Space.isBlankText text with
    | true => exact ⟨[], .blank blank⟩
    | false => exact ⟨[], .noObject blank found other⟩
  · rcases ofEntries_ofList_cases members with ⟨checks, -, results⟩ | ⟨name, first, -⟩
    · exact ⟨checks, .results object results⟩
    · obtain ⟨value, last, flaw⟩ := first.1
      exact absurd (tells name value last) flaw

end ConfigHeader.Check
