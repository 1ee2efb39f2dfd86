import ConfigHeader.Check.Basic
import ConfigHeader.Path

/-! Catalogs of check results. A catalog holds one result for each key, in the order in which the
keys were first seen, and what counts as the key depends on the role of the catalog. -/
namespace ConfigHeader

/-- What the results of a catalog are for. -/
inductive Role where
  /-- Results that are looked up by the name of the check and never written. -/
  | cache
  | define
  | subst
deriving DecidableEq, Repr

namespace Role

def name : Role → String
  | cache => "cache"
  | define => "define"
  | subst => "subst"

def key : Role → Check → String
  | cache, check => check.name
  | define, check => check.definedName
  | subst, check => check.markerName

end Role

/-- Two results that share a key and do not agree. -/
structure Conflict where
  role : Role
  key : String
  first : Check.Verdict
  firstSource : Path
  second : Check.Verdict
  secondSource : Path
deriving DecidableEq, Repr

structure Catalog.Entry where
  check : Check
  source : Path
deriving DecidableEq, Repr

/-- A catalog of results. -/
structure Catalog (role : Role) where
  /-- The results in the order in which their keys were first seen. -/
  entries : List Catalog.Entry
  index : KeyMap Nat
  /-- The index holds the position of each result under its key, and nothing else. -/
  indexed : ∀ key position, index.find? key = some position ↔
    (entries[position]?).map (fun entry => role.key entry.check) = some key

namespace Catalog

variable {role : Role}

def empty (role : Role) : Catalog role where
  entries := []
  index := ∅
  indexed := by simp

instance : EmptyCollection (Catalog role) := ⟨empty role⟩

instance : Inhabited (Catalog role) := ⟨∅⟩

theorem lt_length_of_find? {catalog : Catalog role} {key : String} {position : Nat}
    (found : catalog.index.find? key = some position) : position < catalog.entries.length := by
  obtain ⟨entry, held, _⟩ := Option.map_eq_some_iff.mp ((catalog.indexed key position).mp found)
  exact (List.getElem?_eq_some_iff.mp held).1

def find? (catalog : Catalog role) (key : String) : Option Entry :=
  (catalog.index.find? key).bind fun position => catalog.entries[position]?

private theorem indexed_append (catalog : Catalog role) (entry : Entry)
    (absent : catalog.index.find? (role.key entry.check) = none) (key : String) (position : Nat) :
    (catalog.index.insert (role.key entry.check) catalog.entries.length).find? key = some position ↔
      ((catalog.entries ++ [entry])[position]?).map (fun entry => role.key entry.check) =
        some key := by
  rw [KeyMap.find?_insert]
  by_cases same : key = role.key entry.check
  · subst same
    rw [if_pos rfl]
    constructor
    · intro atEnd
      simp [← Option.some.inj atEnd]
    · intro held
      rcases Nat.lt_trichotomy position catalog.entries.length with inside | atEnd | beyond
      · rw [List.getElem?_append_left inside] at held
        rw [(catalog.indexed _ position).mpr held] at absent
        cases absent
      · rw [atEnd]
      · rw [List.getElem?_eq_none (by simp; omega)] at held
        cases held
  · rw [if_neg same, catalog.indexed key position]
    rcases Nat.lt_trichotomy position catalog.entries.length with inside | atEnd | beyond
    · rw [List.getElem?_append_left inside]
    · subst atEnd
      simp [Ne.symm same]
    · rw [List.getElem?_eq_none (by omega), List.getElem?_eq_none (by simp; omega)]

def append (catalog : Catalog role) (entry : Entry)
    (absent : catalog.index.find? (role.key entry.check) = none) : Catalog role where
  entries := catalog.entries ++ [entry]
  index := catalog.index.insert (role.key entry.check) catalog.entries.length
  indexed := indexed_append catalog entry absent

end Catalog

/-- Actions on a catalog that may meet a conflict. Such an action keeps what was added before. -/
abbrev CatalogAction (role : Role) := ExceptT Conflict (StateM (Catalog role))

namespace Catalog

variable {role : Role}

/-- Adds a result from a file. The first result of a key stays: one that agrees with it is passed
over, and one that does not is a conflict. Tells whether the result was added. -/
def insert (check : Check) (source : Path) : CatalogAction role Bool := do
  let catalog ← get
  match found : catalog.index.find? (role.key check) with
  | none =>
    set (catalog.append ⟨check, source⟩ found)
    return true
  | some position =>
    have inside := lt_length_of_find? found
    let first := catalog.entries[position]
    if first.check.verdict = check.verdict then return false
    let conflict : Conflict :=
      { role, key := role.key check
        first := first.check.verdict
        firstSource := first.source
        second := check.verdict
        secondSource := source }
    throw conflict

/-- The catalog with the results of a file, unless one of them is a conflict. -/
def insertAll (catalog : Catalog role) (checks : List Check) (source : Path) :
    Except Conflict (Catalog role) :=
  let insertion := checks.forM fun check => do
    let _ ← insert check source
  let (outcome, after) := insertion.run catalog
  outcome.map fun _ => after

def checks (catalog : Catalog role) : List Check :=
  catalog.entries.map Entry.check

def keys (catalog : Catalog role) : List String :=
  catalog.checks.map role.key

def size (catalog : Catalog role) : Nat :=
  catalog.entries.length

def isEmpty (catalog : Catalog role) : Bool :=
  catalog.entries.isEmpty

end Catalog

end ConfigHeader
