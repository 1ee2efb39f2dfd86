import ConfigHeader.Proofs.KeyMapLookup
import ConfigHeader.Proofs.Template.MarkerDivision

namespace ConfigHeader.Template

variable {values : KeyMap String} {content : Bytes}

/-- A marker that has a value stands somewhere in the content. -/
def HoldsMarker (values : KeyMap String) (content : Bytes) : Prop :=
  ∃ before name after, content = before ++ marker name ++ after ∧ Known values name

/-- Two `@` stand outside the markers of the content that have values, at least one such marker
stands between them, and what the pass leaves between them is a name that has a value. -/
def Rejoins (values : KeyMap String) (content : Bytes) : Prop :=
  ∃ before between after : Division Bytes,
    (before.append ((between.append (after.cons Byte.atSign)).cons Byte.atSign)).IsOf
      (knownMarkers values) content ∧
    between.items ≠ [] ∧ Known values (between.withItems (valueBytes values))

/-- No value holds an `@`. -/
def Unmarked (values : KeyMap String) : Prop :=
  ∀ key value, values.find? key = some value → '@' ∉ value.toList

theorem absent_iff_not_holdsMarker :
    (knownMarkers values).Absent content [] ↔ ¬ HoldsMarker values content := by
  constructor
  · rintro absent ⟨before, name, after, rfl, known⟩
    refine absent before (marker name ++ after) (List.append_assoc ..) (List.cons_ne_nil _ _) name ?_
    exact ⟨known, after, (List.append_nil _).symm⟩
  · rintro unheld before after rfl - name ⟨known, rest, parts⟩
    rw [List.append_nil] at parts
    exact unheld ⟨before, name, rest, by rw [← parts, List.append_assoc], known⟩

theorem Unmarked.atSign_not_mem (unmarked : Unmarked values) (name : Bytes) :
    Byte.atSign ∉ valueBytes values name := by
  rw [valueBytes]
  cases found : values.find? (nameText name) with
  | none => simp [textBytes]
  | some value => exact atSign_not_mem_textBytes (unmarked _ _ found)

theorem count_marker {name : Bytes} (identifier : IsIdentifier name) :
    (marker name).count Byte.atSign = 2 := by
  simp [marker, List.count_eq_zero.mpr (atSign_not_mem_name identifier)]

theorem Division.Exact.known {division : Division Bytes}
    (exact : division.Exact (knownMarkers values)) {name : Bytes} (member : name ∈ division.items) :
    Known values name := by
  induction division with
  | last plain => cases member
  | next plain item later ih =>
    obtain ⟨-, stands, others⟩ := exact
    rcases List.mem_cons.mp member with rfl | later
    · exact stands.1
    · exact ih others later

/-- A second pass fills nothing if no marker with a value is left to it, and otherwise it takes the
two `@` of each one away. -/
theorem fillMarkers_eq_self_iff (unmarked : Unmarked values) :
    fillMarkers values content = content ↔ ¬ HoldsMarker values content := by
  rw [← absent_iff_not_holdsMarker]
  constructor
  · intro same
    obtain ⟨division, isOf⟩ := Division.exists_isOf (knownMarkers values) content
    have lost : ∀ name ∈ division.items, (marker name).count Byte.atSign =
        (valueBytes values name).count Byte.atSign + 2 := by
      intro name member
      rw [count_marker (isOf.exact.known member).identifier,
        List.count_eq_zero.mpr (unmarked.atSign_not_mem name)]
    have counts := Division.count_withItems lost
    have text : division.withItems marker = content := isOf.text
    rw [text, ← isOf.pass_eq (fillMarkers_replaces values), same] at counts
    exact isOf.absent (List.length_eq_zero_iff.mp (by omega))
  · intro absent
    have copied := (fillMarkers_replaces values).append_of_absent absent
    rwa [List.append_nil, fillMarkers_nil, List.append_nil] at copied

theorem Rejoins.holdsMarker (rejoins : Rejoins values content) :
    HoldsMarker values (fillMarkers values content) := by
  obtain ⟨before, between, after, isOf, -, known⟩ := rejoins
  refine ⟨before.withItems (valueBytes values), between.withItems (valueBytes values),
    after.withItems (valueBytes values), ?_, known⟩
  rw [isOf.pass_eq (fillMarkers_replaces values)]
  simp [marker]

/-- The `@` of a marker that is left stand in the content, since no value has any, and a marker
stands between them, since otherwise the pass had filled the one that is left. -/
theorem HoldsMarker.rejoins (unmarked : Unmarked values)
    (holds : HoldsMarker values (fillMarkers values content)) : Rejoins values content := by
  obtain ⟨before, name, after, parts, known⟩ := holds
  obtain ⟨division, isOf⟩ := Division.exists_isOf (knownMarkers values) content
  rw [isOf.pass_eq (fillMarkers_replaces values), marker] at parts
  have opening : division.withItems (valueBytes values) =
      before ++ Byte.atSign :: (name ++ Byte.atSign :: after) := by
    rw [parts]
    simp
  obtain ⟨front, back, rfl, -, behind⟩ :=
    Division.exists_append_cons (fun item _ => unmarked.atSign_not_mem item) opening
  obtain ⟨between, last, rfl, inside, -⟩ :=
    Division.exists_append_cons (fun item _ => unmarked.atSign_not_mem item) behind
  rw [← inside] at known
  refine ⟨front, between, last, isOf, fun none => ?_, known⟩
  obtain ⟨unread, -⟩ := Division.exact_cons_iff.mp isOf.exact.of_append
  have same : between.text (knownMarkers values) = between.withItems (valueBytes values) :=
    Division.withItems_congr fun item member => by simp [none] at member
  refine unread _ ⟨known, last.text (knownMarkers values), ?_⟩
  simp only [Division.text, Division.withItems_append, Division.withItems_cons, marker] at same ⊢
  rw [same]
  simp

/-- A pass whose values hold no `@` leaves a marker that has a value exactly where values that it
fills in join with `@` that it has passed over, and exactly then a second pass changes the text. -/
theorem fillMarkers_leaves_marker_iff (unmarked : Unmarked values) (content : Bytes) :
    (HoldsMarker values (fillMarkers values content) ↔ Rejoins values content) ∧
      (fillMarkers values (fillMarkers values content) = fillMarkers values content ↔
        ¬ Rejoins values content) := by
  have left : HoldsMarker values (fillMarkers values content) ↔ Rejoins values content :=
    ⟨fun holds => holds.rejoins unmarked, Rejoins.holdsMarker⟩
  exact ⟨left, (fillMarkers_eq_self_iff unmarked).trans (not_congr left)⟩

/-- Values of which one is empty, so that the bytes around its marker meet. -/
def valuesWithEmpty : KeyMap String :=
  KeyMap.ofList [("A", "x"), ("E", "")]

theorem unmarked_valuesWithEmpty : Unmarked valuesWithEmpty := by
  intro key value found
  have bare : ∀ entry ∈ valuesWithEmpty.entries, '@' ∉ entry.2.toList := by decide
  exact bare (key, value) (KeyMap.mem_entries_iff.mpr found)

theorem holdsMarker_filled :
    HoldsMarker valuesWithEmpty (fillMarkers valuesWithEmpty (textBytes "@@E@A@")) := by
  refine ⟨[], textBytes "A", [], by decide, ⟨?_, by decide⟩⟩
  exact ⟨0x41, [], by decide, by decide, by simp⟩

theorem fillMarkers_leaves_marker_around_empty_value :
    Unmarked valuesWithEmpty ∧ Rejoins valuesWithEmpty (textBytes "@@E@A@") ∧
      fillMarkers valuesWithEmpty (fillMarkers valuesWithEmpty (textBytes "@@E@A@")) ≠
        fillMarkers valuesWithEmpty (textBytes "@@E@A@") := by
  obtain ⟨left, again⟩ := fillMarkers_leaves_marker_iff unmarked_valuesWithEmpty
    (textBytes "@@E@A@")
  have rejoins := left.mp holdsMarker_filled
  exact ⟨unmarked_valuesWithEmpty, rejoins, fun same => again.mp same rejoins⟩

/-- The first of two `@` is passed over, and with it the empty value leaves a marker behind. -/
theorem not_all_markers_filled :
    ¬ ∀ (values : KeyMap String) (content : Bytes), Unmarked values →
      ¬ HoldsMarker values (fillMarkers values content) ∧
        fillMarkers values (fillMarkers values content) = fillMarkers values content := by
  intro settled
  obtain ⟨unheld, -⟩ := settled valuesWithEmpty (textBytes "@@E@A@") unmarked_valuesWithEmpty
  exact unheld holdsMarker_filled

end ConfigHeader.Template
