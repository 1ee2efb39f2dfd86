import ConfigHeader.Proofs.Check.RoundTrip
import ConfigHeader.Proofs.Json.DeeperReading

namespace ConfigHeader.Check

open Json

variable {value : Json} {fields : List (String × Json)} {stored : String}

/-- A definition and a marker write the same text for a value. -/
theorem defineText_eq_substText (stored : String) : defineText stored = substText stored := by
  unfold defineText substText
  cases ofText? stored with
  | none => rfl
  | some value =>
    cases value with
    | bool value => cases value <;> rfl
    | _ => rfl

/-- The text of a value is read again, except where it is nested too deep; there it is an array or an
object, and its text stands as it is. -/
theorem substText_compactText (ordered : value.Ordered) :
    substText value.compactText = markerText value := by
  rw [substText, if_neg (compactText_ne value)]
  cases read : ofText? value.compactText with
  | none =>
    have deep : ¬ Fits nestingLimit value := by
      intro fits
      rw [ofText?_compactText fits] at read
      cases read
    cases value with
    | array items => rfl
    | object fields => rfl
    | _ => exact absurd (fits_of_scalar (by trivial)) deep
  | some found =>
    rw [ofText?_compactText_of_ordered ordered read]
    cases value <;> rfl

theorem markerText_ne (filled : value ≠ .null) (visible : value ≠ .string "") :
    markerText value ≠ "" := by
  cases value with
  | null => exact absurd rfl filled
  | string text =>
    intro empty
    exact visible (congrArg Json.string empty)
  | _ => exact compactText_ne _

/-- The text that the value in an object stands for: none without a value, a text as it is, and the
JSON text of any other value. -/
def recordedText (fields : List (String × Json)) : String :=
  match fields.lookup "value" with
  | none => ""
  | some .null => ""
  | some (.string text) => text
  | some value => value.compactText

theorem recordedText_eq (fields : List (String × Json)) :
    recordedText fields = markerText ((fields.lookup "value").getD .null) := by
  unfold recordedText
  cases fields.lookup "value" with
  | none => rfl
  | some value => cases value <;> rfl

theorem substText_valueOfFields (ordered : (Json.object fields).Ordered) :
    substText ((valueOfFields fields).getD "") = recordedText fields := by
  rcases valueOfFields_cases fields with ⟨empty, nothing⟩ | ⟨value, found, -, -, written⟩
  · have text : recordedText fields = "" := by
      rw [recordedText_eq]
      rcases empty with absent | empty
      · exact congrArg markerText absent
      · exact congrArg markerText empty
    rw [text]
    rcases nothing with absent | empty
    · rw [absent]
      rfl
    · rw [empty]
      rfl
  · rw [written, Option.getD_some, substText_compactText (ordered.of_lookup found),
      recordedText_eq, found, Option.getD_some]

theorem recordedText_ne (written : valueOfFields fields = some stored) (filled : stored ≠ "") :
    recordedText fields ≠ "" := by
  rcases valueOfFields_cases fields with ⟨-, nothing⟩ | ⟨value, found, present, visible, -⟩
  · rw [written] at nothing
    simp [filled] at nothing
  · rw [recordedText_eq, found, Option.getD_some]
    exact markerText_ne present visible

/-- The value of an object that is read as a result gives a definition and a marker the text that it
stands for; a value that is stored and not empty never gives the empty text, and a result enables
sources exactly if it is a success whose text is neither empty nor `0`. For whatever text is stored,
a definition and a marker write the same. -/
theorem recorded_value_texts :
    (∀ (name : String) (fields : List (String × Json)) (check : Check),
      (Json.object fields).Ordered → ofJson? name (.object fields) = some check →
        defineText check.storedValue = recordedText fields ∧
        substText check.storedValue = recordedText fields ∧
        (∀ stored, check.value = some stored → stored ≠ "" →
          defineText stored ≠ "" ∧ substText stored ≠ "") ∧
        (check.enables = true ↔ fields.lookup "success" = some (.bool true) ∧
          recordedText fields ≠ "" ∧ recordedText fields ≠ "0")) ∧
    ∀ stored, defineText stored = substText stored := by
  refine ⟨fun name fields check ordered found => ?_, defineText_eq_substText⟩
  obtain ⟨_, same, success, -, written⟩ := ofJson?_cases found
  obtain rfl := Json.object.inj same
  have text : substText check.storedValue = recordedText fields := by
    rw [storedValue, written, substText_valueOfFields ordered]
  refine ⟨(defineText_eq_substText _).trans text, text, fun stored held filled => ?_, ?_⟩
  · have visible := recordedText_ne (written.symm.trans held) filled
    rw [defineText_eq_substText, and_self]
    rwa [← text, storedValue, held] at visible
  · rw [enables, text, success]
    simp [and_assoc]

theorem recorded_value_texts_escaped :
    ∃ fields check,
      ofText? "\x7b\"value\":\"\\\"\\\\\\u0001é\",\"success\":true\x7d" = some (.object fields) ∧
      ofJson? "A" (.object fields) = some check ∧
      check.value = some "\"\\\"\\\\\\u0001é\"" ∧
      defineText check.storedValue = "\"\\\x01é" ∧ check.enables = true := by
  have read : ofText? "\x7b\"value\":\"\\\"\\\\\\u0001é\",\"success\":true\x7d" =
      some (.object [("success", .bool true), ("value", .string "\"\\\x01é")]) := by
    cbv
  have ordered := ordered_of_ofText? read
  refine ⟨_, ⟨"A", none, none, some "\"\\\"\\\\\\u0001é\"", true, false, false, .define, false⟩,
    read, rfl, rfl, ?_⟩
  obtain ⟨text, -, -, enabled⟩ := recorded_value_texts.1 "A" _ _ ordered rfl
  exact ⟨text, enabled.mpr ⟨rfl, by decide, by decide⟩⟩

end ConfigHeader.Check
