/-! Maps from texts to values, kept in the byte order of their keys. The order is that of the
entries themselves, so two maps with the same lookups are equal, and a later entry for a key takes
the place of an earlier one. -/
namespace ConfigHeader

namespace Fields

variable {α : Type}

/-- Sets the value of a key in a list of entries that is in the order of its keys. -/
def insert (key : String) (value : α) : List (String × α) → List (String × α)
  | [] => [(key, value)]
  | (head, current) :: rest =>
    if key < head then (key, value) :: (head, current) :: rest
    else if key = head then (key, value) :: rest
    else (head, current) :: insert key value rest

def Sorted (fields : List (String × α)) : Prop :=
  fields.Pairwise fun left right => left.1 < right.1

theorem mem_of_mem_insert {key : String} {value : α} {entry : String × α}
    {fields : List (String × α)} (member : entry ∈ insert key value fields) :
    entry = (key, value) ∨ entry ∈ fields := by
  induction fields with
  | nil => exact Or.inl (by simpa [insert] using member)
  | cons head rest ih =>
    unfold insert at member
    split at member
    · exact List.mem_cons.mp member
    · split at member
      · rcases List.mem_cons.mp member with same | old
        · exact Or.inl same
        · exact Or.inr (List.mem_cons_of_mem _ old)
      · rcases List.mem_cons.mp member with same | later
        · exact Or.inr (by simp [same])
        · rcases ih later with same | old
          · exact Or.inl same
          · exact Or.inr (List.mem_cons_of_mem _ old)

theorem sorted_insert (key : String) (value : α) {fields : List (String × α)}
    (sorted : Sorted fields) : Sorted (insert key value fields) := by
  induction fields with
  | nil => simp [insert, Sorted]
  | cons head rest ih =>
    obtain ⟨below, tail⟩ := List.pairwise_cons.mp sorted
    unfold insert
    split
    · rename_i before
      refine List.pairwise_cons.mpr ⟨fun entry member => ?_, sorted⟩
      rcases List.mem_cons.mp member with same | later
      · exact same ▸ before
      · exact Std.lt_trans before (below entry later)
    · rename_i notBefore
      split
      · rename_i same
        exact List.pairwise_cons.mpr ⟨fun entry member => same ▸ below entry member, tail⟩
      · rename_i different
        refine List.pairwise_cons.mpr ⟨fun entry member => ?_, ih tail⟩
        rcases mem_of_mem_insert member with new | old
        · rcases Std.lt_trichotomy key head.1 with less | equal | greater
          · exact absurd less notBefore
          · exact absurd equal different
          · exact new ▸ greater
        · exact below entry old

theorem lookup_cons (key wanted : String) (value : α) (rest : List (String × α)) :
    ((key, value) :: rest).lookup wanted =
      if wanted = key then some value else rest.lookup wanted := by
  by_cases same : wanted = key
  · simp [same]
  · have different : (wanted == key) = false := beq_eq_false_iff_ne.mpr same
    simp [List.lookup_cons, different, same]

/-- An insertion is seen at its own key and nowhere else. -/
theorem lookup_insert (key wanted : String) (value : α) (fields : List (String × α)) :
    (insert key value fields).lookup wanted =
      if wanted = key then some value else fields.lookup wanted := by
  induction fields with
  | nil => simp only [insert, lookup_cons, List.lookup_nil]
  | cons entry rest ih =>
    obtain ⟨head, current⟩ := entry
    unfold insert
    split
    · simp only [lookup_cons]
    · split
      · rename_i same
        simp only [lookup_cons, same]
        split <;> rfl
      · rename_i different
        simp only [lookup_cons, ih]
        by_cases atHead : wanted = head
        · have elsewhere : wanted ≠ key := fun same => different (same.symm.trans atHead)
          simp [atHead, Ne.symm different]
        · simp [atHead]

end Fields

/-- A map whose entries are in the byte order of their keys. -/
structure KeyMap (α : Type) where
  entries : List (String × α)
  sorted : Fields.Sorted entries

namespace KeyMap

variable {α β : Type}

instance : EmptyCollection (KeyMap α) := ⟨⟨[], List.Pairwise.nil⟩⟩

instance : Inhabited (KeyMap α) := ⟨∅⟩

def insert (map : KeyMap α) (key : String) (value : α) : KeyMap α :=
  ⟨Fields.insert key value map.entries, Fields.sorted_insert key value map.sorted⟩

def find? (map : KeyMap α) (key : String) : Option α :=
  map.entries.lookup key

def contains (map : KeyMap α) (key : String) : Bool :=
  (map.find? key).isSome

def keys (map : KeyMap α) : List String :=
  map.entries.map Prod.fst

/-- The map that holds for each key its last value in the list. -/
def ofList (pairs : List (String × α)) : KeyMap α :=
  pairs.foldl (fun map pair => map.insert pair.1 pair.2) ∅

/-- The entries of both maps, those of `other` where they share a key. -/
def override (map other : KeyMap α) : KeyMap α :=
  other.entries.foldl (fun merged pair => merged.insert pair.1 pair.2) map

def mapValues (change : α → β) (map : KeyMap α) : KeyMap β where
  entries := map.entries.map fun pair => (pair.1, change pair.2)
  sorted := List.pairwise_map.mpr (map.sorted.imp id)

theorem find?_insert (map : KeyMap α) (key wanted : String) (value : α) :
    (map.insert key value).find? wanted = if wanted = key then some value else map.find? wanted :=
  Fields.lookup_insert key wanted value map.entries

@[simp] theorem find?_empty (key : String) : (∅ : KeyMap α).find? key = none := rfl

end KeyMap

end ConfigHeader
