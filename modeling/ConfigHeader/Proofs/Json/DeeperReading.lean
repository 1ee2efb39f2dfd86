import ConfigHeader.Proofs.Json.RoundTrip

/-! Reading at a greater depth. A reader that may go deeper reads all that another one reads, so
the depth decides whether a text is read and never what is read: a value that is nested too deep is
refused, and no other value is read from its text. -/
namespace ConfigHeader.Json

variable {α : Type} {item deeper : List Char → Option (α × List Char)} {close : Char}
  {input rest : List Char}

/-- What one reader reads, the other reads too. -/
def Extends (item deeper : List Char → Option (α × List Char)) : Prop :=
  ∀ input value rest, item input = some (value, rest) → deeper input = some (value, rest)

theorem Extends.readItems? (extend : Extends item deeper) (room : ℕ) :
    Extends (readItems? item close room) (readItems? deeper close room) := by
  induction room with
  | zero =>
    intro input items rest found
    cases found
  | succ room ih =>
    intro input items rest found
    rw [Json.readItems?] at found ⊢
    cases first : item input with
    | none => simp [first] at found
    | some read =>
      rw [first] at found
      rw [extend _ _ _ first]
      dsimp only at found ⊢
      split at found
      · cases found
      · split at found
        · rename_i closing
          rw [if_pos closing]
          exact found
        · rename_i other
          rw [if_neg other]
          split at found
          · rename_i comma
            obtain ⟨⟨items, behind⟩, later, same⟩ := Option.map_eq_some_iff.mp found
            rw [if_pos comma, ih _ _ _ later, Option.map_some]
            exact congrArg some same
          · cases found

theorem Extends.readSequence? (extend : Extends item deeper) :
    Extends (readSequence? item close) (readSequence? deeper close) := by
  intro input items rest found
  unfold Json.readSequence? at found ⊢
  split at found
  · cases found
  · split at found
    · rename_i closing
      rw [if_pos closing]
      exact found
    · rename_i other
      rw [if_neg other]
      exact extend.readItems? _ _ _ _ found

theorem Extends.readField? {item deeper : List Char → Option (Json × List Char)}
    (extend : Extends item deeper) : Extends (readField? item) (readField? deeper) := by
  intro input field rest found
  unfold Json.readField? at found ⊢
  split at found
  · split at found
    · cases found
    · split at found
      · obtain ⟨⟨value, behind⟩, read, same⟩ := Option.map_eq_some_iff.mp found
        dsimp only
        rw [extend _ _ _ read, Option.map_some]
        exact congrArg some same
      · cases found
  · cases found

theorem readScalar?_bracket (rest : List Char) : readScalar? ('[' :: rest) = none := rfl

theorem readScalar?_brace (rest : List Char) : readScalar? ('\x7b' :: rest) = none := rfl

theorem extends_readValue?_succ (depth : ℕ) :
    Extends (readValue? depth) (readValue? (depth + 1)) := by
  induction depth with
  | zero =>
    intro input value rest found
    rw [readValue?] at found
    rw [Nat.zero_add, readValue?]
    split
    · rename_i opening
      rw [opening, readScalar?_bracket] at found
      cases found
    · rename_i opening
      rw [opening, readScalar?_brace] at found
      cases found
    · exact found
  | succ depth ih =>
    intro input value rest found
    rw [readValue?] at found ⊢
    split at found
    · obtain ⟨⟨items, behind⟩, read, same⟩ := Option.map_eq_some_iff.mp found
      rw [ih.readSequence? _ _ _ read, Option.map_some]
      exact congrArg some same
    · obtain ⟨⟨fields, behind⟩, read, same⟩ := Option.map_eq_some_iff.mp found
      rw [ih.readField?.readSequence? _ _ _ read, Option.map_some]
      exact congrArg some same
    · exact found

theorem readValue?_mono {depth limit : ℕ} (less : depth ≤ limit) :
    Extends (readValue? depth) (readValue? limit) := by
  induction less with
  | refl => exact fun _ _ _ found => found
  | step _ ih => exact fun _ _ _ found => extends_readValue?_succ _ _ _ _ (ih _ _ _ found)

/-- The keys of every object are in order, as they are in all that is read. -/
inductive Ordered : Json → Prop where
  | scalar {value : Json} (scalar : Fits 0 value) : Ordered value
  | array {items : List Json} (inner : ∀ item ∈ items, Ordered item) : Ordered (.array items)
  | object {fields : List (String × Json)} (sorted : Fields.Sorted fields)
      (inner : ∀ field ∈ fields, Ordered field.2) : Ordered (.object fields)

theorem Ordered.of_lookup {fields : List (String × Json)} {key : String} {value : Json}
    (ordered : (Json.object fields).Ordered) (found : fields.lookup key = some value) :
    value.Ordered := by
  obtain ⟨before, after, parts, -⟩ := List.lookup_eq_some_iff.mp found
  cases ordered with
  | scalar scalar => exact scalar.elim
  | object sorted inner => exact inner (key, value) (by simp [parts])

theorem Fits.ordered {depth : ℕ} {value : Json} (fits : Fits depth value) : value.Ordered := by
  induction depth generalizing value with
  | zero => exact .scalar fits
  | succ depth ih =>
    cases value with
    | array items => exact .array fun item member => ih (fits item member)
    | object fields => exact .object fits.1 fun field member => ih (fits.2 field member)
    | _ => exact .scalar trivial

/-- Every value that is read has its keys in order. -/
theorem ordered_of_ofText? {text : String} {value : Json} (found : ofText? text = some value) :
    value.Ordered :=
  (fits_of_ofText? found).ordered

/-- A bound for each of the values is a bound for all of them. -/
theorem exists_common_depth {values : List Json}
    (bounded : ∀ value ∈ values, ∃ depth, Fits depth value) :
    ∃ depth, ∀ value ∈ values, Fits depth value := by
  induction values with
  | nil => exact ⟨0, by simp⟩
  | cons value values ih =>
    obtain ⟨first, fits⟩ := bounded value List.mem_cons_self
    obtain ⟨later, others⟩ := ih fun other member => bounded other (List.mem_cons_of_mem _ member)
    refine ⟨max first later, fun other member => ?_⟩
    rcases List.mem_cons.mp member with same | inside
    · exact same ▸ fits.mono (le_max_left first later)
    · exact (others other inside).mono (le_max_right first later)

theorem Ordered.exists_depth {value : Json} (ordered : value.Ordered) :
    ∃ depth, Fits depth value := by
  induction ordered with
  | scalar scalar => exact ⟨0, scalar⟩
  | array inner ih =>
    obtain ⟨depth, fits⟩ := exists_common_depth ih
    exact ⟨depth + 1, fits⟩
  | @object fields sorted inner ih =>
    have bounded : ∀ value ∈ fields.map Prod.snd, ∃ depth, Fits depth value := by
      simpa using fun value key member => ih (key, value) member
    obtain ⟨depth, fits⟩ := exists_common_depth bounded
    exact ⟨depth + 1, sorted, fun field member => fits field.2 (List.mem_map_of_mem member)⟩

/-- No other value is read from what is written for a value, however deep the value is nested. -/
theorem ofText?_compactText_of_ordered {value found : Json} (ordered : value.Ordered)
    (read : ofText? value.compactText = some found) : found = value := by
  obtain ⟨depth, fits⟩ := ordered.exists_depth
  unfold ofText? at read
  split at read
  · rename_i other rest readOther
    have whole := @readValue?_write _ _ fits [] (by simp [EndsValue])
    rw [compactText, String.toList_ofList] at readOther
    have deep := readValue?_mono (le_max_left nestingLimit depth) _ _ _ readOther
    have deepWhole := readValue?_mono (le_max_right nestingLimit depth) _ _ _ whole
    rw [List.append_nil, deep] at deepWhole
    obtain ⟨rfl, -⟩ := Prod.mk.inj (Option.some.inj deepWhole)
    split at read
    · exact (Option.some.inj read).symm
    · cases read
  · cases read

end ConfigHeader.Json
