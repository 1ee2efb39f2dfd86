import ConfigHeader.Proofs.Json.RoundTrip

namespace ConfigHeader.Json

variable {step indent depth : ℕ} {value : Json} {space input rest : List Char}

theorem isSpacing_lineBreak (indent : ℕ) : IsSpacing (lineBreak indent) := by
  intro char member
  rcases List.mem_cons.mp member with rfl | blank
  · decide
  · rw [List.eq_of_mem_replicate blank]
    decide

theorem readValue?_append (spacing : IsSpacing space) (input : List Char) :
    readValue? depth (space ++ input) = readValue? depth input := by
  cases depth with
  | zero => rw [readValue?, readValue?, skipSpace_append spacing]
  | succ depth => rw [readValue?, readValue?, skipSpace_append spacing]

theorem readField?_append {item : List Char → Option (Json × List Char)}
    (spacing : IsSpacing space) (input : List Char) :
    readField? item (space ++ input) = readField? item input := by
  rw [readField?, readField?, skipSpace_append spacing]

/-- An item on a line of its own, in an array with this indent. -/
def indentedItem (step indent : ℕ) (item : Json) : List Char :=
  lineBreak (indent + step) ++ item.writeIndented step (indent + step)

/-- A field without the line break before it. -/
def spacedField (step indent : ℕ) (field : String × Json) : List Char :=
  quote field.1 ++ ':' :: ' ' :: field.2.writeIndented step indent

/-- A field on a line of its own, in an object with this indent. -/
def indentedField (step indent : ℕ) (field : String × Json) : List Char :=
  lineBreak (indent + step) ++ spacedField step (indent + step) field

theorem writeIndentedItems_eq (items : List Json) : writeIndentedItems step indent items =
    writtenTail (indentedItem step indent) (lineBreak indent) ']' items := by
  induction items with
  | nil => rfl
  | cons item items ih => simp [writeIndentedItems, writtenTail, indentedItem, ih]

theorem writeIndentedFields_eq (fields : List (String × Json)) :
    writeIndentedFields step indent fields =
      writtenTail (indentedField step indent) (lineBreak indent) '\x7d' fields := by
  induction fields with
  | nil => rfl
  | cons field fields ih =>
    simp [writeIndentedFields, writtenTail, indentedField, spacedField, ih]

/-- A value that holds no others has no lines to break. -/
theorem writeIndented_scalar (scalar : Fits 0 value) :
    value.writeIndented step indent = value.write := by
  cases value with
  | bool value => cases value <;> rfl
  | array items => exact scalar.elim
  | object fields => exact scalar.elim
  | _ => rfl

theorem opens_writeIndented (value : Json) : Opens ']' (value.writeIndented step indent) := by
  cases value with
  | array items => cases items <;> exact ⟨'[', _, rfl, by decide, by decide⟩
  | object fields => cases fields <;> exact ⟨'\x7b', _, rfl, by decide, by decide⟩
  | _ =>
    rw [writeIndented_scalar]
    · exact opens_of_scalar trivial
    · trivial

/-- A field is read if its value is, whatever it is indented by. -/
theorem readsAll_spacedField {fields : List (String × Json)}
    (read : ∀ field ∈ fields, ∀ rest, EndsValue rest →
      readValue? depth (field.2.writeIndented step indent ++ rest) = some (field.2, rest)) :
    ReadsAll (readField? (readValue? depth)) (spacedField step indent) fields := by
  intro field member rest ends
  have gap : IsSpacing [' '] := by simp [IsSpacing, isSpace]
  rw [spacedField, List.append_assoc, List.cons_append]
  apply readField?_written
  rw [List.cons_append, ← List.singleton_append, readValue?_append gap]
  exact read field member rest ends

/-- A value is read back from what is written for it with line breaks. -/
theorem readValue?_writeIndented (step indent : ℕ) (fits : Fits depth value)
    (ends : EndsValue rest) :
    readValue? depth (value.writeIndented step indent ++ rest) = some (value, rest) := by
  induction depth generalizing value indent rest with
  | zero =>
    rw [writeIndented_scalar fits]
    exact readValue?_scalar 0 fits ends
  | succ depth ih =>
    have leading := isSpacing_lineBreak (indent + step)
    cases value with
    | array items =>
      cases items with
      | nil => exact readValue?_emptyArray depth rest
      | cons item items =>
        have first (rest : List Char) (ends : EndsValue rest) :=
          ih (indent + step) (fits item List.mem_cons_self) ends
        have others : ReadsAll (readValue? depth) (indentedItem step indent) items := by
          intro value member rest ends
          rw [indentedItem, List.append_assoc, readValue?_append leading]
          exact ih (indent + step) (fits value (List.mem_cons_of_mem _ member)) ends
        have read := readValue?_array leading (isSpacing_lineBreak indent)
          (opens_writeIndented item) first others rest
        simpa only [writeIndented, writeIndentedItems_eq, List.cons_append, List.append_assoc]
          using read
    | object fields =>
      cases fields with
      | nil => exact readValue?_emptyObject depth rest
      | cons field fields =>
        have spaced : ReadsAll (readField? (readValue? depth)) (spacedField step (indent + step))
            (field :: fields) :=
          readsAll_spacedField fun field member rest ends =>
            ih (indent + step) (fits.2 field member) ends
        have others : ReadsAll (readField? (readValue? depth)) (indentedField step indent)
            fields := by
          intro field member rest ends
          rw [indentedField, List.append_assoc, readField?_append leading]
          exact spaced field (List.mem_cons_of_mem _ member) rest ends
        have read := readValue?_object fits.1 leading (isSpacing_lineBreak indent)
          (opens_quote field.1 _) (spaced field List.mem_cons_self) others rest
        simpa only [writeIndented, writeIndentedFields_eq, spacedField, List.cons_append,
          List.append_assoc] using read
    | _ =>
      rw [writeIndented_scalar]
      · exact readValue?_scalar _ trivial ends
      · trivial

/-- A value is read back from its indented text, also with white space behind that. -/
theorem ofText?_indentedText (step : ℕ) (fits : Fits nestingLimit value) {ending : String}
    (spacing : IsSpacing ending.toList) :
    ofText? (value.indentedText step ++ ending) = some value := by
  have ends : EndsValue ending.toList :=
    fun char first => .inl (spacing char (List.mem_of_mem_head? first))
  have blank : skipSpace ending.toList = [] := List.dropWhile_eq_nil_iff.mpr spacing
  rw [ofText?, indentedText, String.toList_append, String.toList_ofList,
    readValue?_writeIndented step 0 fits ends]
  simp only [blank, if_true]

end ConfigHeader.Json
