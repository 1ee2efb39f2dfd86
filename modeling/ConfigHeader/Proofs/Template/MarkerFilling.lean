import ConfigHeader.Proofs.Template.DirectiveGrammar
import ConfigHeader.Proofs.TextBytes
import ConfigHeader.Template.Marker

/-! The pass over markers. A marker holds neither newlines nor blanks, so the pass goes on anew
behind every byte that can be no part of a marker. -/
namespace ConfigHeader.Template

variable {values : KeyMap String}

/-- The name of the marker at the front is the identifier between two `@`. -/
theorem markerName?_eq_some_iff {content name : Bytes} :
    markerName? content = some name ↔
      IsIdentifier name ∧ ∃ tail, content = marker name ++ tail := by
  constructor
  · intro found
    cases content with
    | nil => cases found
    | cons first rest =>
      simp only [markerName?] at found
      split at found
      · rename_i parts
        obtain ⟨opening, filled, closing⟩ := parts
        obtain rfl := Option.some.inj found
        obtain ⟨tail, rest_eq⟩ := List.head?_eq_some_iff.mp closing
        refine ⟨(leadingName_eq_nil_or rest).resolve_left filled, tail, ?_⟩
        have whole := leadingName_append_drop rest
        rw [rest_eq] at whole
        simpa [opening, marker] using whole.symm
      · cases found
  · rintro ⟨identifier, tail, rfl⟩
    have closing : ∀ byte ∈ (Byte.atSign :: tail).head?, Byte.isNamePart byte = false := by
      simp
      decide
    have name_eq : leadingName (name ++ Byte.atSign :: tail) = name :=
      leadingName_append identifier closing
    simp [marker, markerName?, name_eq, identifier.ne_nil]

theorem byte_of_mem_marker {name : Bytes} (identifier : IsIdentifier name) {byte : UInt8}
    (member : byte ∈ marker name) : byte = Byte.atSign ∨ Byte.isNamePart byte = true := by
  simp only [marker, List.cons_append, List.mem_cons, List.mem_append, List.not_mem_nil,
    or_false] at member
  rcases member with opening | inside | closing
  · exact .inl opening
  · exact .inr (identifier.namePart inside)
  · exact .inl closing

/-- Whether a byte can be no part of a marker. -/
def endsMarkers (byte : UInt8) : Bool :=
  byte != Byte.atSign && !Byte.isNamePart byte

theorem markerName?_append_cons (first second : Bytes) {byte : UInt8}
    (ends : endsMarkers byte = true) (filled : first ≠ []) :
    markerName? (first ++ byte :: second) = markerName? first := by
  obtain ⟨other, notPart⟩ : byte ≠ Byte.atSign ∧ Byte.isNamePart byte = false := by
    simpa [endsMarkers] using ends
  apply Option.ext
  intro name
  rw [markerName?_eq_some_iff, markerName?_eq_some_iff]
  constructor
  · rintro ⟨identifier, tail, same⟩
    refine ⟨identifier, ?_⟩
    rcases List.append_eq_append_iff.mp same with ⟨more, extended, later⟩ | ⟨more, parts, -⟩
    · cases more with
      | nil => exact ⟨[], by simpa using extended.symm⟩
      | cons head more =>
        have inside : byte ∈ marker name := by
          rw [extended, (List.cons.inj later).1]
          simp
        rcases byte_of_mem_marker identifier inside with opening | part
        · exact absurd opening other
        · simp [notPart] at part
    · exact ⟨more, parts⟩
  · rintro ⟨identifier, tail, rfl⟩
    exact ⟨identifier, tail ++ byte :: second, by simp⟩

private theorem fill_scan_skip (skipped : Nat) (content : Bytes) :
    fillMarkers.scan values skipped content =
      fillMarkers.scan values 0 (content.drop skipped) := by
  induction content generalizing skipped with
  | nil => cases skipped <;> simp [fillMarkers.scan]
  | cons first rest ih =>
    cases skipped with
    | zero => rfl
    | succ skipped => simpa [fillMarkers.scan] using ih skipped

@[simp] theorem fillMarkers_nil : fillMarkers values [] = [] := rfl

theorem fillMarkers_cons {first : UInt8} {rest : Bytes}
    (unread : markerValue? values (first :: rest) = none) :
    fillMarkers values (first :: rest) = first :: fillMarkers values rest := by
  rw [fillMarkers, fillMarkers.scan, unread]
  rfl

theorem fillMarkers_marker_append {name tail : Bytes} {value : String}
    (found : markerValue? values (marker name ++ tail) = some (name, value)) :
    fillMarkers values (marker name ++ tail) = textBytes value ++ fillMarkers values tail := by
  rw [marker, List.cons_append, List.cons_append] at found ⊢
  rw [fillMarkers, fillMarkers.scan, found]
  simp only
  rw [fill_scan_skip, List.append_assoc]
  simp [fillMarkers]

/-- Induction over the pass: a byte is copied or a marker is filled. -/
@[elab_as_elim]
theorem fillInduction (values : KeyMap String) {motive : Bytes → Prop} (nil : motive [])
    (copied : ∀ first rest, markerValue? values (first :: rest) = none → motive rest →
      motive (first :: rest))
    (filled : ∀ name value tail, IsIdentifier name → values.find? (nameText name) = some value →
      markerValue? values (marker name ++ tail) = some (name, value) → motive tail →
      motive (marker name ++ tail))
    (content : Bytes) : motive content := by
  cases content with
  | nil => exact nil
  | cons first rest =>
    cases found : markerValue? values (first :: rest) with
    | none => exact copied first rest found (fillInduction values nil copied filled rest)
    | some entry =>
      obtain ⟨read, named, result⟩ := Option.bind_eq_some_iff.mp found
      obtain ⟨value, present, rfl⟩ := Option.map_eq_some_iff.mp result
      obtain ⟨identifier, tail, parts⟩ := markerName?_eq_some_iff.mp named
      have shorter : tail.length < rest.length + 1 := by
        have lengths := congrArg List.length parts
        simp [marker] at lengths
        omega
      rw [parts] at found ⊢
      exact filled read value tail identifier present found (fillInduction values nil copied filled tail)
termination_by content.length

theorem markerValue?_append_cons (first second : Bytes) {byte : UInt8}
    (ends : endsMarkers byte = true) (filled : first ≠ []) :
    markerValue? values (first ++ byte :: second) = markerValue? values first := by
  rw [markerValue?, markerName?_append_cons _ _ ends filled, markerValue?]

/-- The pass goes on anew behind a byte that can be no part of a marker. -/
theorem fillMarkers_append_cons (values : KeyMap String) (first second : Bytes) {byte : UInt8}
    (ends : endsMarkers byte = true) :
    fillMarkers values (first ++ byte :: second) =
      fillMarkers values first ++ byte :: fillMarkers values second := by
  induction first using fillInduction values with
  | nil =>
    have other : byte ≠ Byte.atSign := by
      rintro rfl
      exact absurd ends (by decide)
    have unread : markerValue? values (byte :: second) = none := by
      simp [markerValue?, markerName?, other]
    simp [fillMarkers_cons unread]
  | copied head rest unread ih =>
    have still : markerValue? values (head :: (rest ++ byte :: second)) = none :=
      (markerValue?_append_cons (head :: rest) second ends (by simp)).trans unread
    rw [List.cons_append, fillMarkers_cons still, ih, fillMarkers_cons unread, List.cons_append]
  | filled name value tail identifier present found ih =>
    have still : markerValue? values (marker name ++ (tail ++ byte :: second)) =
        some (name, value) := by
      rw [← List.append_assoc, markerValue?_append_cons _ _ ends (by simp [marker]), found]
    rw [List.append_assoc, fillMarkers_marker_append still, fillMarkers_marker_append found, ih,
      List.append_assoc]

theorem fillMarkers_lineLocal : Bytes.LineLocal (fillMarkers values) :=
  .of_lines fillMarkers_nil fun line rest _ => fillMarkers_append_cons values line rest (by decide)

/-- The pass takes its bytes from the content and from the values. -/
theorem mem_fillMarkers {content : Bytes} {byte : UInt8}
    (member : byte ∈ fillMarkers values content) :
    byte ∈ content ∨ ∃ name value, values.find? name = some value ∧ byte ∈ textBytes value := by
  induction content using fillInduction values with
  | nil => simp at member
  | copied head rest unread ih =>
    rw [fillMarkers_cons unread] at member
    rcases List.mem_cons.mp member with same | later
    · exact .inl (by simp [same])
    · exact (ih later).imp_left (List.mem_cons_of_mem _)
  | filled name value tail identifier present found ih =>
    rw [fillMarkers_marker_append found] at member
    rcases List.mem_append.mp member with inserted | later
    · exact .inr ⟨_, value, present, inserted⟩
    · exact (ih later).imp_left (List.mem_append_right _)

theorem fillMarkers_eq_self {content : Bytes} (absent : Byte.atSign ∉ content) :
    fillMarkers values content = content := by
  induction content with
  | nil => rfl
  | cons head rest ih =>
    obtain ⟨other, later⟩ : Byte.atSign ≠ head ∧ Byte.atSign ∉ rest := by simpa using absent
    have unread : markerValue? values (head :: rest) = none := by
      simp [markerValue?, markerName?, Ne.symm other]
    rw [fillMarkers_cons unread, ih later]

/-- A part without `@` that begins behind any marker before it is copied. -/
theorem fillMarkers_append_of_absent (first : Bytes) {second : Bytes}
    (starts : ∀ byte ∈ second.head?, endsMarkers byte = true) (absent : Byte.atSign ∉ second) :
    fillMarkers values (first ++ second) = fillMarkers values first ++ second := by
  cases second with
  | nil => simp
  | cons byte rest =>
    rw [fillMarkers_append_cons _ _ _ (starts byte (by simp)),
      fillMarkers_eq_self fun member => absent (List.mem_cons_of_mem _ member)]

theorem fillMarkers_linewise
    (single : ∀ name value, values.find? name = some value → '\n' ∉ value.toList) :
    Bytes.Linewise (fillMarkers values) (fillMarkers values) := by
  have fresh (content : Bytes) (inside : Byte.newline ∉ content) :
      Byte.newline ∉ fillMarkers values content := by
    intro member
    rcases mem_fillMarkers member with copied | ⟨name, value, present, inserted⟩
    · exact inside copied
    · exact newline_not_mem_textBytes (single name value present) inserted
  exact ⟨fun line rest _ => fillMarkers_append_cons values line rest (by decide), fresh, fresh⟩

end ConfigHeader.Template
