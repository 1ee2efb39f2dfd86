import ConfigHeader.Proofs.Template.Division
import ConfigHeader.Proofs.Template.MarkerFilling

/-! Contents divided at the markers that have a value. Markers may share an `@`, and then the first
of them counts: the `@` that ends a marker with a value is spent, and any other may begin the next
marker. So a content is divided in exactly one way, and the pass fills the markers of the division. -/
namespace ConfigHeader.Template

variable {values : KeyMap String} {name content part rest : Bytes}

/-- The name is an identifier that has a value. -/
structure Known (values : KeyMap String) (name : Bytes) : Prop where
  identifier : IsIdentifier name
  valued : (values.find? (nameText name)).isSome = true

theorem marker_inj {first second : Bytes} (identifier : IsIdentifier first)
    (identifier' : IsIdentifier second) (leads : marker first <+: content)
    (leads' : marker second <+: content) : first = second := by
  obtain ⟨tail, parts⟩ := leads
  obtain ⟨tail', parts'⟩ := leads'
  have found := markerName?_eq_some_iff.mpr ⟨identifier, tail, parts.symm⟩
  rw [markerName?_eq_some_iff.mpr ⟨identifier', tail', parts'.symm⟩] at found
  exact (Option.some.inj found).symm

/-- The markers whose names have values. -/
def knownMarkers (values : KeyMap String) : Markup Bytes where
  text := marker
  Stands name content := Known values name ∧ marker name <+: content
  leads _ _ stands := stands.2
  filled _ _ _ := List.cons_ne_nil _ _
  unique _ _ _ stands stands' :=
    marker_inj stands.1.identifier stands'.1.identifier stands.2 stands'.2

/-- The value of a name, as it is written in the place of the marker. -/
def valueBytes (values : KeyMap String) (name : Bytes) : Bytes :=
  textBytes ((values.find? (nameText name)).getD "")

theorem markerValue?_eq_some_iff {value : String} :
    markerValue? values content = some (name, value) ↔
      (knownMarkers values).Stands name content ∧ values.find? (nameText name) = some value := by
  constructor
  · intro found
    obtain ⟨read, named, result⟩ := Option.bind_eq_some_iff.mp found
    obtain ⟨value', present, same⟩ := Option.map_eq_some_iff.mp result
    obtain ⟨rfl, rfl⟩ := Prod.mk.inj same
    obtain ⟨identifier, tail, parts⟩ := markerName?_eq_some_iff.mp named
    exact ⟨⟨⟨identifier, by rw [present]; rfl⟩, tail, parts.symm⟩, present⟩
  · rintro ⟨⟨known, tail, parts⟩, present⟩
    have named := markerName?_eq_some_iff.mpr ⟨known.identifier, tail, parts.symm⟩
    rw [markerValue?, named, Option.bind_some, present]
    rfl

theorem markerValue?_eq_none_iff :
    markerValue? values content = none ↔
      ∀ name, ¬ (knownMarkers values).Stands name content := by
  constructor
  · intro unread name stands
    obtain ⟨value, present⟩ := Option.isSome_iff_exists.mp stands.1.valued
    rw [markerValue?_eq_some_iff.mpr ⟨stands, present⟩] at unread
    cases unread
  · intro absent
    apply Option.eq_none_iff_forall_ne_some.mpr
    rintro ⟨name, value⟩ found
    exact absent name (markerValue?_eq_some_iff.mp found).1

theorem fillMarkers_replaces (values : KeyMap String) :
    (knownMarkers values).Replaces (valueBytes values) (fillMarkers values) where
  nil := rfl
  copied _ _ absent := fillMarkers_cons (markerValue?_eq_none_iff.mpr absent)
  replaced name rest stands := by
    obtain ⟨value, present⟩ := Option.isSome_iff_exists.mp stands.1.valued
    rw [valueBytes, present]
    exact fillMarkers_marker_append (markerValue?_eq_some_iff.mpr ⟨stands, present⟩)

theorem fillMarkers_known_append (known : Known values name) (rest : Bytes) :
    fillMarkers values (marker name ++ rest) = valueBytes values name ++ fillMarkers values rest :=
  (fillMarkers_replaces values).replaced name rest ⟨known, List.prefix_append _ _⟩

theorem absent_of_atSign_not_mem (inside : Byte.atSign ∉ part) (rest : Bytes) :
    (knownMarkers values).Absent part rest := by
  rintro before after rfl filled name ⟨-, tail, parts⟩
  obtain ⟨first, more, rfl⟩ := List.exists_cons_of_ne_nil filled
  have same : Byte.atSign = first := (List.cons.inj parts).1
  exact inside (by simp [same])

theorem atSign_not_mem_name (identifier : IsIdentifier name) : Byte.atSign ∉ name :=
  identifier.not_mem rfl

theorem fillMarkers_append_of_atSign_not_mem (inside : Byte.atSign ∉ part) (rest : Bytes) :
    fillMarkers values (part ++ rest) = part ++ fillMarkers values rest :=
  (fillMarkers_replaces values).append_of_absent (absent_of_atSign_not_mem inside rest)

/-- A span whose name has no value is copied up to the `@` that ends it. -/
theorem fillMarkers_unknown_append (identifier : IsIdentifier name) (unknown : ¬ Known values name)
    (rest : Bytes) :
    fillMarkers values (Byte.atSign :: name ++ Byte.atSign :: rest) =
      Byte.atSign :: name ++ fillMarkers values (Byte.atSign :: rest) := by
  have unread : ∀ other, ¬ (knownMarkers values).Stands other
      (Byte.atSign :: (name ++ Byte.atSign :: rest)) := by
    rintro other ⟨known, leads⟩
    have here : marker name <+: Byte.atSign :: (name ++ Byte.atSign :: rest) :=
      ⟨rest, by simp [marker]⟩
    rw [marker_inj known.identifier identifier leads here] at known
    exact unknown known
  rw [List.cons_append, (fillMarkers_replaces values).copied _ _ unread,
    fillMarkers_append_of_atSign_not_mem (atSign_not_mem_name identifier), List.cons_append]

/-- A content is divided at its known markers in exactly one way, and the pass writes the values in
their places. The `@` that ends a span without a value may begin a marker, that of a marker with a
value does not, and values are written as they are. -/
theorem fillMarkers_by_division (values : KeyMap String) (content : Bytes) :
    (∃ division : Division Bytes,
      (∀ other : Division Bytes, other.IsOf (knownMarkers values) content ↔ other = division) ∧
      fillMarkers values content = division.withItems (valueBytes values)) ∧
    (∀ name next rest, IsIdentifier name → ¬ Known values name → Known values next →
      fillMarkers values (Byte.atSign :: name ++ marker next ++ rest) =
        Byte.atSign :: name ++ valueBytes values next ++ fillMarkers values rest) ∧
    (∀ name next rest, Known values name → IsIdentifier next →
      fillMarkers values (marker name ++ next ++ Byte.atSign :: rest) =
        valueBytes values name ++ next ++ fillMarkers values (Byte.atSign :: rest)) ∧
    ∀ name rest, Known values name →
      fillMarkers values (marker name ++ rest) =
        valueBytes values name ++ fillMarkers values rest := by
  refine ⟨?_, ?_, ?_, fun name rest known => fillMarkers_known_append known rest⟩
  · obtain ⟨division, isOf⟩ := Division.exists_isOf (knownMarkers values) content
    refine ⟨division, fun other => ⟨fun isOf' => isOf'.unique isOf, fun same => same ▸ isOf⟩, ?_⟩
    exact isOf.pass_eq (fillMarkers_replaces values)
  · intro name next rest identifier unknown known
    have shared := fillMarkers_unknown_append identifier unknown (next ++ Byte.atSign :: rest)
    have filled := fillMarkers_known_append known rest
    simp only [marker, List.cons_append, List.append_assoc, List.nil_append] at shared filled ⊢
    rw [shared, filled]
  · intro name next rest known identifier
    rw [List.append_assoc, fillMarkers_known_append known,
      fillMarkers_append_of_atSign_not_mem (atSign_not_mem_name identifier), List.append_assoc]

/-- Values of which one is written like a marker of the other. -/
def nestedValues : KeyMap String :=
  KeyMap.ofList [("A", "@B@"), ("B", "1")]

theorem fillMarkers_by_division_of_shared_ends :
    fillMarkers nestedValues (textBytes "@X@A@@B@") = textBytes "@X@B@1" ∧
      fillMarkers nestedValues (textBytes "@A@B@") = textBytes "@B@B@" ∧
      fillMarkers nestedValues (textBytes "@A@@B@") = textBytes "@B@1" := by
  have identifier {first : UInt8} (start : Byte.isNameStart first = true) : IsIdentifier [first] :=
    ⟨first, [], rfl, start, by simp⟩
  obtain ⟨-, unknown, spent, filled⟩ :=
    fillMarkers_by_division nestedValues (textBytes "@X@A@@B@")
  have knownA : Known nestedValues (textBytes "A") := ⟨identifier (by decide), by decide⟩
  have unknownX : ¬ Known nestedValues (textBytes "X") := fun known => by
    have valued := known.valued
    revert valued
    decide
  refine ⟨?_, ?_, ?_⟩
  · exact (unknown (textBytes "X") (textBytes "A") (textBytes "@B@") (identifier (by decide))
      unknownX knownA).trans (by decide)
  · exact (spent (textBytes "A") (textBytes "B") [] knownA (identifier (by decide))).trans
      (by decide)
  · exact (filled (textBytes "A") (textBytes "@B@") knownA).trans (by decide)

end ConfigHeader.Template
