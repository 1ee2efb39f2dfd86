import ConfigHeader.Proofs.Catalog.FirstEntries
import ConfigHeader.Proofs.KeyMapLookup
import Mathlib.Data.List.Induction

namespace ConfigHeader

/-- The conflict of an entry of a catalog with a later one. -/
def Conflict.between (role : Role) (first second : Catalog.Entry) : Conflict where
  role := role
  key := role.key second.check
  first := first.check.verdict
  firstSource := first.source
  second := second.check.verdict
  secondSource := second.source

namespace Catalog

variable {role : Role} {catalog : Catalog role} {key : String} {check : Check} {source : Path}
  {first : Entry}

theorem keys_eq_map (catalog : Catalog role) :
    catalog.keys = catalog.entries.map fun entry => role.key entry.check := by
  simp [keys, checks]

theorem index_eq_some_iff (catalog : Catalog role) {position : Nat} :
    catalog.index.find? key = some position ↔ catalog.keys[position]? = some key := by
  rw [catalog.indexed, keys_eq_map, List.getElem?_map]

/-- Of two entries with one key the index could lead to one only. -/
theorem nodup_keys (catalog : Catalog role) : catalog.keys.Nodup := by
  rw [List.nodup_iff_getElem?_ne_getElem?]
  intro earlier later before inside same
  have held := List.getElem?_eq_getElem inside
  have atLater := catalog.index_eq_some_iff.mpr held
  have atEarlier := catalog.index_eq_some_iff.mpr (same.trans held)
  rw [atLater] at atEarlier
  have positions := Option.some.inj atEarlier
  omega

theorem find?_eq_some_iff :
    catalog.find? key = some first ↔ first ∈ catalog.entries ∧ role.key first.check = key := by
  rw [find?, Option.bind_eq_some_iff]
  constructor
  · intro found
    obtain ⟨position, indexed, held⟩ := found
    have keyed := (catalog.indexed key position).mp indexed
    rw [held] at keyed
    exact ⟨List.mem_of_getElem? held, Option.some.inj keyed⟩
  · intro member
    obtain ⟨position, held⟩ := List.mem_iff_getElem?.mp member.1
    refine ⟨position, (catalog.indexed key position).mpr ?_, held⟩
    rw [held, Option.map_some, member.2]

theorem find?_eq_firstFor (catalog : Catalog role) (key : String) :
    catalog.find? key = firstFor role key catalog.entries := by
  cases found : firstFor role key catalog.entries with
  | none =>
    apply Option.eq_none_iff_forall_ne_some.mpr
    intro entry held
    obtain ⟨member, same⟩ := find?_eq_some_iff.mp held
    exact firstFor_eq_none_iff.mp found entry member same
  | some entry => exact find?_eq_some_iff.mpr ⟨mem_of_firstFor found, key_of_firstFor found⟩

theorem find?_eq_none_iff : catalog.find? key = none ↔ key ∉ catalog.keys := by
  rw [find?_eq_firstFor, firstFor_eq_none_iff, keys_eq_map]
  simp

/-- Two results agree if they succeed alike and have one value. -/
theorem verdict_eq_iff {left right : Check} :
    left.verdict = right.verdict ↔ left.success = right.success ∧ left.value = right.value := by
  simp [Check.verdict]

private theorem run_insert (catalog : Catalog role) (check : Check) (source : Path) :
    (insert check source).run catalog =
      match indexed : catalog.index.find? (role.key check) with
      | none => (.ok true, catalog.append ⟨check, source⟩ indexed)
      | some position =>
        have inside := lt_length_of_find? indexed
        if catalog.entries[position].check.verdict = check.verdict then (.ok false, catalog)
        else (.error (.between role catalog.entries[position] ⟨check, source⟩), catalog) := by
  unfold insert
  change (StateT.run (ExceptT.run (match indexed : catalog.index.find? (role.key check) with
    | none => _
    | some position => _)) catalog) = _
  split
  · rfl
  · dsimp only
    split <;> rfl

theorem run_insert_of_absent (absent : catalog.find? (role.key check) = none) :
    ∃ after, (insert check source).run catalog = (.ok true, after) ∧
      after.entries = catalog.entries ++ [⟨check, source⟩] := by
  rw [run_insert]
  split
  · exact ⟨_, rfl, rfl⟩
  · rename_i position indexed
    have inside := lt_length_of_find? indexed
    rw [find?, indexed, Option.bind_some, List.getElem?_eq_getElem inside] at absent
    cases absent

private theorem run_insert_of_found (found : catalog.find? (role.key check) = some first) :
    (insert check source).run catalog =
      if first.check.verdict = check.verdict then (.ok false, catalog)
      else (.error (.between role first ⟨check, source⟩), catalog) := by
  rw [run_insert]
  split
  · rename_i absent
    rw [find?, absent] at found
    cases found
  · rename_i position indexed
    have inside := lt_length_of_find? indexed
    rw [find?, indexed, Option.bind_some, List.getElem?_eq_getElem inside] at found
    cases found
    rfl

/-- How the offer of a result to a catalog ends. -/
inductive InsertEnds (catalog : Catalog role) (check : Check) (source : Path) :
    Except Conflict Bool × Catalog role → Prop where
  | added {after : Catalog role} (absent : catalog.find? (role.key check) = none)
    (entries : after.entries = catalog.entries ++ [⟨check, source⟩]) :
    InsertEnds catalog check source (.ok true, after)
  | passed {first : Entry} (found : catalog.find? (role.key check) = some first)
    (same : first.check.verdict = check.verdict) :
    InsertEnds catalog check source (.ok false, catalog)
  | refused {first : Entry} (found : catalog.find? (role.key check) = some first)
    (differ : first.check.verdict ≠ check.verdict) :
    InsertEnds catalog check source (.error (.between role first ⟨check, source⟩), catalog)

/-- Whatever is inserted, its key is new, or it agrees with what is there, or it does not. -/
theorem insert_ends (catalog : Catalog role) (check : Check) (source : Path) :
    InsertEnds catalog check source ((insert check source).run catalog) := by
  cases found : catalog.find? (role.key check) with
  | none =>
    obtain ⟨after, ran, entries⟩ := run_insert_of_absent found
    rw [ran]
    exact .added found entries
  | some first =>
    rw [run_insert_of_found found]
    split
    · rename_i same
      exact .passed found same
    · rename_i differ
      exact .refused found differ

/-- A result is added exactly if its key is new. -/
theorem insert_adds_iff :
    (∃ after, (insert check source).run catalog = (.ok true, after) ∧
        after.entries = catalog.entries ++ [⟨check, source⟩]) ↔
      role.key check ∉ catalog.keys := by
  rw [← find?_eq_none_iff]
  constructor
  · rintro ⟨after, ran, -⟩
    have ends := insert_ends catalog check source
    rw [ran] at ends
    cases ends with
    | added absent entries => exact absent
  · exact run_insert_of_absent

/-- A result is passed over exactly if the entry with its key agrees with it. -/
theorem insert_passes_iff {after : Catalog role} :
    (insert check source).run catalog = (.ok false, after) ↔
      after = catalog ∧ ∃ first ∈ catalog.entries, role.key first.check = role.key check ∧
        first.check.success = check.success ∧ first.check.value = check.value := by
  constructor
  · intro ran
    have ends := insert_ends catalog check source
    rw [ran] at ends
    cases ends with
    | passed found same =>
      obtain ⟨member, keyed⟩ := find?_eq_some_iff.mp found
      exact ⟨rfl, _, member, keyed, verdict_eq_iff.mp same⟩
  · rintro ⟨rfl, first, member, keyed, same⟩
    have found := find?_eq_some_iff.mpr ⟨member, keyed⟩
    rw [run_insert_of_found found, if_pos (verdict_eq_iff.mpr same)]

/-- A conflict comes up exactly if the entry with the key does not agree, and it tells of both. -/
theorem insert_refuses_iff {conflict : Conflict} {after : Catalog role} :
    (insert check source).run catalog = (.error conflict, after) ↔
      after = catalog ∧ ∃ first ∈ catalog.entries, role.key first.check = role.key check ∧
        ¬ (first.check.success = check.success ∧ first.check.value = check.value) ∧
        conflict = .between role first ⟨check, source⟩ := by
  constructor
  · intro ran
    have ends := insert_ends catalog check source
    rw [ran] at ends
    cases ends with
    | refused found differ =>
      obtain ⟨member, keyed⟩ := find?_eq_some_iff.mp found
      exact ⟨rfl, _, member, keyed, fun same => differ (verdict_eq_iff.mpr same), rfl⟩
  · rintro ⟨rfl, first, member, keyed, differ, rfl⟩
    have found := find?_eq_some_iff.mpr ⟨member, keyed⟩
    rw [run_insert_of_found found, if_neg fun same => differ (verdict_eq_iff.mp same)]

/-- The catalog that is left when a result was offered to it, whatever came of that. -/
def offer (catalog : Catalog role) (entry : Entry) : Catalog role :=
  ((insert entry.check entry.source).run catalog).2

/-- The catalog after these results were offered to an empty one, in their order. -/
def ofOffers (role : Role) (offered : List Entry) : Catalog role :=
  offered.foldl offer ∅

theorem ofOffers_concat (earlier : List Entry) (entry : Entry) :
    ofOffers role (earlier ++ [entry]) = (ofOffers role earlier).offer entry :=
  List.foldl_append

/-- A result whose key is there changes nothing, be it passed over or refused. -/
theorem offer_of_found {entry : Entry} (found : catalog.find? (role.key entry.check) = some first) :
    catalog.offer entry = catalog := by
  rw [offer, run_insert_of_found found]
  split <;> rfl

theorem entries_offer_of_absent {entry : Entry}
    (absent : catalog.find? (role.key entry.check) = none) :
    (catalog.offer entry).entries = catalog.entries ++ [entry] := by
  obtain ⟨after, ran, entries⟩ := run_insert_of_absent absent
  rw [offer, ran]
  exact entries

/-- A result changes the catalog exactly if its key is new. -/
theorem offer_eq_self_iff {entry : Entry} :
    catalog.offer entry = catalog ↔ role.key entry.check ∈ catalog.keys := by
  cases found : catalog.find? (role.key entry.check) with
  | none =>
    have grown := entries_offer_of_absent found
    refine iff_of_false (fun same => ?_) (find?_eq_none_iff.mp found)
    rw [same] at grown
    simp at grown
  | some first =>
    refine iff_of_true (offer_of_found found) ?_
    obtain ⟨member, keyed⟩ := find?_eq_some_iff.mp found
    rw [keys_eq_map]
    exact List.mem_map.mpr ⟨first, member, keyed⟩

/-- After any run of offers the catalog holds the first entry of each key. -/
theorem entries_ofOffers (role : Role) (offered : List Entry) :
    (ofOffers role offered).entries = firstEntries role offered := by
  induction offered using List.reverseRecOn with
  | nil => rfl
  | append_singleton earlier entry ih =>
    rw [ofOffers_concat, firstEntries_concat]
    have looked : (ofOffers role earlier).find? (role.key entry.check) =
        firstFor role (role.key entry.check) earlier := by
      rw [find?_eq_firstFor, ih, firstFor_firstEntries]
    cases found : firstFor role (role.key entry.check) earlier with
    | none =>
      rw [entries_offer_of_absent (looked.trans found), ih]
      rfl
    | some first =>
      rw [offer_of_found (looked.trans found), ih]
      rfl

/-- What a catalog tells of itself is told of its entries, and no key repeats. -/
structure Consistent (catalog : Catalog role) : Prop where
  indexed : ∀ key position, catalog.index.find? key = some position ↔
    ∃ entry, catalog.entries[position]? = some entry ∧ role.key entry.check = key
  distinct : catalog.keys.Nodup
  /-- At each position there is one entry, and the results, the keys and the look-ups tell of it. -/
  aligned : ∀ position < catalog.size, ∃ entry, catalog.entries[position]? = some entry ∧
    catalog.checks[position]? = some entry.check ∧
    catalog.keys[position]? = some (role.key entry.check) ∧
    catalog.find? (role.key entry.check) = some entry
  sizes : catalog.checks.length = catalog.size ∧ catalog.keys.length = catalog.size
  isEmpty : catalog.isEmpty = true ↔ catalog.size = 0

theorem consistent (catalog : Catalog role) : catalog.Consistent where
  indexed key position := by rw [catalog.indexed, Option.map_eq_some_iff]
  distinct := catalog.nodup_keys
  aligned position inside := by
    have held : catalog.entries[position]? = some catalog.entries[position] :=
      List.getElem?_eq_getElem inside
    refine ⟨catalog.entries[position], held, ?_, ?_, ?_⟩
    · rw [checks, List.getElem?_map, held, Option.map_some]
    · rw [keys_eq_map, List.getElem?_map, held, Option.map_some]
    · exact find?_eq_some_iff.mpr ⟨List.getElem_mem inside, rfl⟩
  sizes := by simp [checks, keys_eq_map, Catalog.size]
  isEmpty := by rw [Catalog.isEmpty, List.isEmpty_iff, Catalog.size, List.length_eq_zero_iff]

/-- Whatever was offered to a catalog, it holds the first entry of each key and is consistent. The
next result is added if its key is new. Otherwise the catalog stays as it is, and the result is
passed over if it succeeds as the entry with its key does and has the same value, or else refused
with the successes, values and files of both. -/
theorem offered_results_contract (role : Role) (offered : List Entry) (check : Check)
    (source : Path) :
    (ofOffers role offered).entries = firstEntries role offered ∧
      (ofOffers role offered).Consistent ∧
      ((∃ after, (insert check source).run (ofOffers role offered) = (.ok true, after) ∧
          after.entries = (ofOffers role offered).entries ++ [⟨check, source⟩]) ↔
        role.key check ∉ (ofOffers role offered).keys) ∧
      (∀ after, (insert check source).run (ofOffers role offered) = (.ok false, after) ↔
        after = ofOffers role offered ∧
          ∃ first ∈ (ofOffers role offered).entries, role.key first.check = role.key check ∧
            first.check.success = check.success ∧ first.check.value = check.value) ∧
      (∀ conflict after,
        (insert check source).run (ofOffers role offered) = (.error conflict, after) ↔
          after = ofOffers role offered ∧
            ∃ first ∈ (ofOffers role offered).entries, role.key first.check = role.key check ∧
              ¬ (first.check.success = check.success ∧ first.check.value = check.value) ∧
              conflict =
                { role, key := role.key check
                  first := ⟨first.check.success, first.check.value⟩
                  firstSource := first.source
                  second := ⟨check.success, check.value⟩
                  secondSource := source }) ∧
      (ofOffers role (offered ++ [⟨check, source⟩]) = ofOffers role offered ↔
        role.key check ∈ (ofOffers role offered).keys) := by
  refine ⟨entries_ofOffers role offered, consistent _, insert_adds_iff,
    fun after => insert_passes_iff, fun conflict after => insert_refuses_iff, ?_⟩
  rw [ofOffers_concat]
  exact offer_eq_self_iff

/-- Three results for `A`: a second one that agrees with the first, and one that does not. -/
def repeatedResults : List Entry :=
  [⟨{ name := "A", value := some "1", success := true }, ⟨"a.json"⟩⟩,
    ⟨{ name := "B", define := some "A", value := some "1", success := true }, ⟨"b.json"⟩⟩,
    ⟨{ name := "A", value := some "1", success := false }, ⟨"c.json"⟩⟩]

theorem offered_results_contract_of_repeated_results :
    (insert { name := "C", define := some "A", value := some "1", success := true } ⟨"d.json"⟩).run
        (ofOffers .define repeatedResults) = (.ok false, ofOffers .define repeatedResults) ∧
    (insert { name := "A", value := some "2", success := true } ⟨"d.json"⟩).run
        (ofOffers .define repeatedResults) =
      (.error
        { role := .define, key := "A"
          first := ⟨true, some "1"⟩, firstSource := ⟨"a.json"⟩
          second := ⟨true, some "2"⟩, secondSource := ⟨"d.json"⟩ },
        ofOffers .define repeatedResults) := by
  have contract := offered_results_contract .define repeatedResults
  have held : (ofOffers .define repeatedResults).entries =
      [⟨{ name := "A", value := some "1", success := true }, ⟨"a.json"⟩⟩] :=
    (contract { name := "A", value := none, success := true } ⟨"d.json"⟩).1.trans (by decide)
  refine ⟨((contract _ _).2.2.2.1 _).mpr ⟨rfl, ?_⟩, ((contract _ _).2.2.2.2.1 _ _).mpr ⟨rfl, ?_⟩⟩
  · rw [held]
    exact ⟨_, List.mem_singleton_self _, rfl, rfl, rfl⟩
  · rw [held]
    exact ⟨_, List.mem_singleton_self _, rfl, by decide, rfl⟩

end Catalog

end ConfigHeader
