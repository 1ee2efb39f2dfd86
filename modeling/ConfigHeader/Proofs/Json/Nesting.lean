import ConfigHeader.Json.Reader
import ConfigHeader.Json.Writer

namespace ConfigHeader

namespace Fields

variable {α : Type} {fields : List (String × α)}

theorem insert_of_last {key : String} {value : α} (last : ∀ entry ∈ fields, entry.1 < key) :
    insert key value fields = fields ++ [(key, value)] := by
  induction fields with
  | nil => rfl
  | cons head rest ih =>
    have before := last head (by simp)
    have notAfter : ¬ key < head.1 := fun after => Std.lt_irrefl (Std.lt_trans before after)
    have other : key ≠ head.1 := fun same => Std.lt_irrefl (same ▸ before)
    rw [insert, if_neg notAfter, if_neg other, ih fun entry member =>
      last entry (List.mem_cons_of_mem _ member), List.cons_append]

/-- Fields that are in order stay as they are when they are set one after another. -/
theorem foldl_insert_of_sorted (earlier : List (String × α)) (sorted : Sorted (earlier ++ fields)) :
    fields.foldl (fun sorted field => insert field.1 field.2 sorted) earlier = earlier ++ fields := by
  induction fields generalizing earlier with
  | nil => simp
  | cons field fields ih =>
    have last : ∀ entry ∈ earlier, entry.1 < field.1 := fun entry member =>
      (List.pairwise_append.mp sorted).2.2 entry member field (by simp)
    rw [List.foldl_cons, insert_of_last last, ih _ (by simpa using sorted)]
    simp

theorem foldl_insert (earlier : List (String × α)) (sorted : Sorted earlier) :
    Sorted (fields.foldl (fun sorted field => insert field.1 field.2 sorted) earlier) ∧
      ∀ entry ∈ fields.foldl (fun sorted field => insert field.1 field.2 sorted) earlier,
        entry ∈ earlier ∨ entry ∈ fields := by
  induction fields generalizing earlier with
  | nil => exact ⟨sorted, fun entry member => .inl member⟩
  | cons field fields ih =>
    obtain ⟨ordered, origin⟩ := ih _ (sorted_insert field.1 field.2 sorted)
    refine ⟨ordered, fun entry member => ?_⟩
    rcases origin entry member with new | later
    · rcases mem_of_mem_insert new with same | old
      · exact .inr (by simp [same])
      · exact .inl old
    · exact .inr (List.mem_cons_of_mem _ later)

end Fields

namespace Json

/-- At most `depth` arrays and objects stand inside one another, and all keys are in order. -/
def Fits : Nat → Json → Prop
  | depth + 1, .array items => ∀ item ∈ items, Fits depth item
  | depth + 1, .object fields => Fields.Sorted fields ∧ ∀ field ∈ fields, Fits depth field.2
  | 0, .array _ => False
  | 0, .object _ => False
  | _, _ => True

theorem Fits.mono {depth limit : Nat} {value : Json} (fits : Fits depth value)
    (deeper : depth ≤ limit) : Fits limit value := by
  induction depth generalizing limit value with
  | zero =>
    cases value with
    | array items => exact fits.elim
    | object fields => exact fits.elim
    | _ => simp [Fits]
  | succ depth ih =>
    obtain ⟨limit, rfl⟩ := Nat.exists_eq_add_of_le' (show 1 ≤ limit by omega)
    cases value with
    | array items =>
      intro item member
      exact ih (fits item member) (by omega)
    | object fields =>
      exact ⟨fits.1, fun field member => ih (fits.2 field member) (by omega)⟩
    | _ => simp [Fits]

theorem fits_of_scalar {depth : Nat} {value : Json} (scalar : Fits 0 value) : Fits depth value :=
  scalar.mono (Nat.zero_le _)

/-- An object is built from fields that are in order without a change. -/
theorem ofFields_of_sorted {fields : List (String × Json)} (sorted : Fields.Sorted fields) :
    ofFields fields = .object fields := by
  rw [ofFields, Fields.foldl_insert_of_sorted [] (by simpa using sorted), List.nil_append]

theorem fits_ofFields {depth : Nat} {fields : List (String × Json)}
    (inner : ∀ field ∈ fields, Fits depth field.2) : Fits (depth + 1) (ofFields fields) := by
  obtain ⟨sorted, origin⟩ := @Fields.foldl_insert _ fields [] List.Pairwise.nil
  refine ⟨sorted, fun field member => inner field ?_⟩
  simpa using origin field member

end Json

end ConfigHeader
