import ConfigHeader.Catalog.Basic

/-! First entries. Of the entries with one key the first one counts; the others either say the same
as the first one or disagree with it. -/
namespace ConfigHeader.Catalog

variable {role : Role} {key : String} {entry : Entry} {entries others : List Entry}

/-- The entries whose key no entry before them has, in their order. -/
def firstEntries (role : Role) : List Entry → List Entry
  | [] => []
  | entry :: rest =>
    entry :: (firstEntries role rest).filter fun later =>
      role.key later.check ≠ role.key entry.check

/-- The first of the entries with a key. -/
def firstFor (role : Role) (key : String) (entries : List Entry) : Option Entry :=
  entries.find? fun entry => role.key entry.check = key

/-- What is seen of an entry is the same for all entries with its key. -/
def AgreeOn {α : Type} (role : Role) (view : Check → α) (entries : List Entry) : Prop :=
  ∀ left ∈ entries, ∀ right ∈ entries, role.key left.check = role.key right.check →
    view left.check = view right.check

theorem firstFor_cons (first : Entry) (rest : List Entry) :
    firstFor role key (first :: rest) =
      if role.key first.check = key then some first else firstFor role key rest := by
  rw [firstFor, List.find?_cons]
  by_cases same : role.key first.check = key
  · simp [same]
  · simp [same, firstFor]

theorem key_of_firstFor (found : firstFor role key entries = some entry) :
    role.key entry.check = key := by
  simpa using List.find?_some found

theorem mem_of_firstFor (found : firstFor role key entries = some entry) : entry ∈ entries :=
  List.mem_of_find?_eq_some found

theorem firstFor_eq_none_iff :
    firstFor role key entries = none ↔ ∀ entry ∈ entries, role.key entry.check ≠ key := by
  simp [firstFor]

theorem exists_firstFor (role : Role) (member : entry ∈ entries) :
    ∃ first, firstFor role (role.key entry.check) entries = some first := by
  cases found : firstFor role (role.key entry.check) entries with
  | none => exact absurd rfl (firstFor_eq_none_iff.mp found entry member)
  | some first => exact ⟨first, rfl⟩

theorem firstFor_append :
    firstFor role key (entries ++ others) =
      (firstFor role key entries).or (firstFor role key others) :=
  List.find?_append

/-- Behind an entry with another key the same entry is the first one. -/
theorem firstFor_filter {other : String} (differ : key ≠ other) :
    firstFor role key (entries.filter fun entry => role.key entry.check ≠ other) =
      firstFor role key entries := by
  induction entries with
  | nil => rfl
  | cons first rest ih =>
    by_cases same : role.key first.check = other
    · have elsewhere : role.key first.check ≠ key := fun here => differ (here.symm.trans same)
      rw [List.filter_cons_of_neg (by simpa using same), ih, firstFor_cons, if_neg elsewhere]
    · rw [List.filter_cons_of_pos (by simpa using same), firstFor_cons, ih, firstFor_cons]

theorem firstEntries_sublist (entries : List Entry) : (firstEntries role entries).Sublist entries := by
  induction entries with
  | nil => exact .slnil
  | cons entry rest ih => exact (List.filter_sublist.trans ih).cons_cons entry

/-- Leaving out the later entries of a key changes no look-up. -/
theorem firstFor_firstEntries :
    firstFor role key (firstEntries role entries) = firstFor role key entries := by
  induction entries with
  | nil => rfl
  | cons entry rest ih =>
    rw [firstEntries, firstFor_cons, firstFor_cons]
    by_cases same : role.key entry.check = key
    · rw [if_pos same, if_pos same]
    · rw [if_neg same, if_neg same, firstFor_filter (Ne.symm same), ih]

theorem mem_keys_firstEntries :
    key ∈ (firstEntries role entries).map (fun entry => role.key entry.check) ↔
      key ∈ entries.map fun entry => role.key entry.check := by
  constructor
  · intro member
    exact ((firstEntries_sublist entries).map _).mem member
  · intro member
    obtain ⟨entry, inside, same⟩ := List.mem_map.mp member
    obtain ⟨first, found⟩ := exists_firstFor role inside
    rw [← firstFor_firstEntries, same] at found
    exact List.mem_map.mpr ⟨first, mem_of_firstFor found, key_of_firstFor found⟩

/-- One more entry counts if its key is new. -/
theorem firstEntries_concat (entries : List Entry) (entry : Entry) :
    firstEntries role (entries ++ [entry]) =
      if (firstFor role (role.key entry.check) entries).isSome then firstEntries role entries
      else firstEntries role entries ++ [entry] := by
  induction entries with
  | nil => rfl
  | cons first rest ih =>
    rw [List.cons_append, firstEntries, ih, firstFor_cons]
    by_cases same : role.key first.check = role.key entry.check
    · rw [if_pos same, Option.isSome_some, if_pos rfl, firstEntries]
      split
      · rfl
      · simp [same]
    · rw [if_neg same]
      split
      · rfl
      · simp [firstEntries, Ne.symm same]

/-- Where no key repeats, every entry is the first of its key. -/
theorem firstEntries_of_nodup (distinct : (entries.map fun entry => role.key entry.check).Nodup) :
    firstEntries role entries = entries := by
  induction entries with
  | nil => rfl
  | cons entry rest ih =>
    obtain ⟨fresh, later⟩ := List.nodup_cons.mp distinct
    rw [firstEntries, ih later, List.filter_eq_self.mpr]
    intro other member
    have differ : role.key other.check ≠ role.key entry.check := by
      intro same
      exact fresh (List.mem_map.mpr ⟨other, member, same⟩)
    simpa using differ

/-- Where the entries of a key agree, the first one shows what any of them shows. -/
theorem AgreeOn.firstFor_eq_some_iff {α : Type} {view : Check → α} (agree : AgreeOn role view entries)
    {seen : α} :
    (firstFor role key entries).map (fun entry => view entry.check) = some seen ↔
      ∃ entry ∈ entries, role.key entry.check = key ∧ view entry.check = seen := by
  constructor
  · intro found
    obtain ⟨first, here, same⟩ := Option.map_eq_some_iff.mp found
    exact ⟨first, mem_of_firstFor here, key_of_firstFor here, same⟩
  · intro shown
    obtain ⟨entry, member, keyed, rfl⟩ := shown
    obtain ⟨first, found⟩ := exists_firstFor role member
    rw [← keyed, found, Option.map_some]
    exact congrArg some
      (agree first (mem_of_firstFor found) entry member (key_of_firstFor found))

theorem AgreeOn.of_subset {α : Type} {view : Check → α} (agree : AgreeOn role view entries)
    (subset : others ⊆ entries) : AgreeOn role view others :=
  fun left leftMember right rightMember same =>
    agree left (subset leftMember) right (subset rightMember) same

/-- What is shown of a key does not depend on the order of the entries. -/
theorem AgreeOn.firstFor_perm {α : Type} {view : Check → α} (agree : AgreeOn role view entries)
    (perm : entries.Perm others) :
    (firstFor role key entries).map (fun entry => view entry.check) =
      (firstFor role key others).map fun entry => view entry.check := by
  have permuted : AgreeOn role view others := agree.of_subset perm.symm.subset
  apply Option.ext
  intro seen
  rw [agree.firstFor_eq_some_iff, permuted.firstFor_eq_some_iff]
  simp only [perm.mem_iff]

end ConfigHeader.Catalog
