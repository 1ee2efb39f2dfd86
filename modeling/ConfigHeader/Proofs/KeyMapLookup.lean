import ConfigHeader.KeyMap
import Mathlib.Data.List.Nodup

/-! Look-up in maps, and in maps that are built from lists: the last value of a key counts. A map is
known by its look-ups, since its entries are in the order of their keys. -/
namespace ConfigHeader

/-- Of the values that are set for a key the last one is found. -/
theorem Fields.lookup_foldl_insert {α : Type} (key : String) (pairs earlier : List (String × α)) :
    (pairs.foldl (fun fields pair => insert pair.1 pair.2 fields) earlier).lookup key =
      (pairs.reverse.lookup key).or (earlier.lookup key) := by
  induction pairs generalizing earlier with
  | nil => simp
  | cons pair pairs ih =>
    rw [List.foldl_cons, ih, List.reverse_cons, List.lookup_append, lookup_insert, lookup_cons]
    split <;> simp

namespace KeyMap

variable {α : Type}

theorem entries_foldl_insert (pairs : List (String × α)) (map : KeyMap α) :
    (pairs.foldl (fun map pair => map.insert pair.1 pair.2) map).entries =
      pairs.foldl (fun fields pair => Fields.insert pair.1 pair.2 fields) map.entries := by
  induction pairs generalizing map with
  | nil => rfl
  | cons pair pairs ih => rw [List.foldl_cons, ih, List.foldl_cons, insert]

/-- The last value of a key counts. -/
theorem find?_ofList (key : String) (pairs : List (String × α)) :
    (ofList pairs).find? key = pairs.reverse.lookup key := by
  rw [ofList, find?, entries_foldl_insert, Fields.lookup_foldl_insert]
  simp [EmptyCollection.emptyCollection]

theorem mem_of_find?_ofList {key : String} {value : α} {pairs : List (String × α)}
    (found : (ofList pairs).find? key = some value) : (key, value) ∈ pairs := by
  rw [find?_ofList] at found
  obtain ⟨later, earlier, parts, -⟩ := List.lookup_eq_some_iff.mp found
  exact List.mem_reverse.mp (by simp [parts])

theorem find?_ofList_isSome_iff {key : String} {pairs : List (String × α)} :
    ((ofList pairs).find? key).isSome = true ↔ key ∈ pairs.map Prod.fst := by
  rw [find?_ofList, List.lookup_isSome_iff, List.mem_map]
  constructor
  · rintro ⟨pair, member, same⟩
    exact ⟨pair, List.mem_reverse.mp member, (eq_of_beq same).symm⟩
  · rintro ⟨pair, member, rfl⟩
    exact ⟨pair, List.mem_reverse.mpr member, beq_self_eq_true _⟩

theorem mem_keys_iff {map : KeyMap α} {key : String} :
    key ∈ map.keys ↔ (map.find? key).isSome = true := by
  rw [find?, List.lookup_isSome_iff, keys, List.mem_map]
  constructor
  · rintro ⟨pair, member, rfl⟩
    exact ⟨pair, member, beq_self_eq_true _⟩
  · rintro ⟨pair, member, same⟩
    exact ⟨pair, member, (eq_of_beq same).symm⟩

theorem mem_keys_ofList_iff {key : String} {pairs : List (String × α)} :
    key ∈ (ofList pairs).keys ↔ key ∈ pairs.map Prod.fst := by
  rw [mem_keys_iff, find?_ofList_isSome_iff]

/-- The values of later pairs hide those of earlier ones. -/
theorem find?_ofList_append (key : String) (first second : List (String × α)) :
    (ofList (first ++ second)).find? key =
      ((ofList second).find? key).or ((ofList first).find? key) := by
  rw [find?_ofList, find?_ofList, find?_ofList, List.reverse_append, List.lookup_append]

/-- Where a key is set to one value only, that value is found. -/
theorem find?_ofList_eq_some_iff_of_unique {key : String} {value : α} {pairs : List (String × α)}
    (unique : ∀ left right, (key, left) ∈ pairs → (key, right) ∈ pairs → left = right) :
    (ofList pairs).find? key = some value ↔ (key, value) ∈ pairs := by
  constructor
  · exact mem_of_find?_ofList
  · intro member
    have listed : key ∈ pairs.map Prod.fst := List.mem_map.mpr ⟨_, member, rfl⟩
    obtain ⟨other, found⟩ := Option.isSome_iff_exists.mp (find?_ofList_isSome_iff.mpr listed)
    rw [found, unique other value (mem_of_find?_ofList found) member]

/-- Where no key repeats, what is found is what was set. -/
theorem find?_ofList_eq_some_iff {key : String} {value : α} {pairs : List (String × α)}
    (distinct : (pairs.map Prod.fst).Nodup) :
    (ofList pairs).find? key = some value ↔ (key, value) ∈ pairs := by
  apply find?_ofList_eq_some_iff_of_unique
  intro left right leftMember rightMember
  exact (Prod.mk.inj (List.inj_on_of_nodup_map distinct leftMember rightMember rfl)).2

theorem nodup_keys (map : KeyMap α) : map.keys.Nodup := by
  apply List.pairwise_map.mpr
  apply map.sorted.imp
  intro left right before same
  rw [same] at before
  exact Std.lt_irrefl before

theorem nodup_entries (map : KeyMap α) : map.entries.Nodup :=
  .of_map Prod.fst map.nodup_keys

theorem mem_entries_iff {map : KeyMap α} {key : String} {value : α} :
    (key, value) ∈ map.entries ↔ map.find? key = some value := by
  constructor
  · intro member
    obtain ⟨before, after, parts⟩ := List.append_of_mem member
    refine List.lookup_eq_some_iff.mpr ⟨before, after, parts, fun pair earlier => ?_⟩
    have sorted := map.sorted
    rw [parts] at sorted
    have less := (List.pairwise_append.mp sorted).2.2 pair earlier (key, value) (by simp)
    rw [bne_iff_ne]
    intro same
    rw [same] at less
    exact Std.lt_irrefl less
  · intro found
    obtain ⟨before, after, parts, -⟩ := List.lookup_eq_some_iff.mp found
    simp [parts]

theorem find?_mapValues {β : Type} (change : α → β) (map : KeyMap α) (key : String) :
    (map.mapValues change).find? key = (map.find? key).map change := by
  have entries (pairs : List (String × α)) :
      (pairs.map fun pair => (pair.1, change pair.2)).lookup key = (pairs.lookup key).map change := by
    induction pairs with
    | nil => rfl
    | cons pair pairs ih =>
      rw [List.map_cons, Fields.lookup_cons, ih, ← Prod.eta pair, Fields.lookup_cons]
      split <;> rfl
  exact entries map.entries

theorem keys_mapValues {β : Type} (change : α → β) (map : KeyMap α) :
    (map.mapValues change).keys = map.keys := by
  simp [keys, mapValues]

/-- Maps with the same look-ups are equal. -/
theorem ext_find? {map other : KeyMap α} (same : ∀ key, map.find? key = other.find? key) :
    map = other := by
  have members : ∀ pair, pair ∈ map.entries ↔ pair ∈ other.entries := by
    intro pair
    rw [mem_entries_iff, mem_entries_iff, same]
  have perm := (List.perm_ext_iff_of_nodup map.nodup_entries other.nodup_entries).mpr members
  have entries : map.entries = other.entries := by
    apply perm.eq_of_pairwise _ map.sorted other.sorted
    intro left right _ _ before after
    exact absurd (Std.lt_trans before after) Std.lt_irrefl
  cases map
  cases other
  cases entries
  rfl

/-- A map is made of its own entries. -/
theorem ofList_entries (map : KeyMap α) : ofList map.entries = map := by
  apply ext_find?
  intro key
  apply Option.ext
  intro value
  rw [find?_ofList_eq_some_iff map.nodup_keys, mem_entries_iff]

/-- What is found in the map on top hides what is found below it. -/
theorem find?_override (map other : KeyMap α) (key : String) :
    (map.override other).find? key = (other.find? key).or (map.find? key) := by
  have onTop : other.find? key = other.entries.reverse.lookup key := by
    rw [← find?_ofList, ofList_entries]
  rw [onTop, override, find?, entries_foldl_insert, Fields.lookup_foldl_insert, find?]

theorem override_assoc (first second third : KeyMap α) :
    (first.override second).override third = first.override (second.override third) := by
  apply ext_find?
  intro key
  simp only [find?_override, Option.or_assoc]

theorem empty_override (map : KeyMap α) : (∅ : KeyMap α).override map = map := by
  apply ext_find?
  intro key
  simp [find?_override]

theorem override_empty (map : KeyMap α) : map.override ∅ = map := rfl

theorem mapValues_override {β : Type} (change : α → β) (map other : KeyMap α) :
    (map.override other).mapValues change =
      (map.mapValues change).override (other.mapValues change) := by
  apply ext_find?
  intro key
  simp only [find?_mapValues, find?_override, Option.map_or]

theorem mapValues_eq_self {change : α → α} {map : KeyMap α}
    (fixed : ∀ entry ∈ map.entries, change entry.2 = entry.2) : map.mapValues change = map := by
  apply ext_find?
  intro key
  rw [find?_mapValues]
  cases found : map.find? key with
  | none => rfl
  | some value => exact congrArg some (fixed _ (mem_entries_iff.mpr found))

end KeyMap

end ConfigHeader
