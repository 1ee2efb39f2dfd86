import ConfigHeader.Proofs.Json.RoundTrip
import ConfigHeader.Proofs.KeyMapLookup
import ConfigHeader.Text.Space

/-! The members of an object as they stand in a text. A key may stand there more than once, and then
the value that stands last is the one that the object holds. -/
namespace ConfigHeader.Json

variable {text : String} {members fields : List (String × Json)} {key : String} {value : Json}

/-- The text is an object with these members, in the order in which they stand there. -/
def IsObjectText (text : String) (members : List (String × Json)) : Prop :=
  ∃ rest behind, skipSpace text.toList = '\x7b' :: rest ∧
    readSequence? (readField? (readValue? (nestingLimit - 1))) '\x7d' rest =
      some (members, behind) ∧
    skipSpace behind = []

/-- Of the members with the key, the last one has the value. -/
def LastUnder (members : List (String × Json)) (key : String) (value : Json) : Prop :=
  ∃ before after, members = before ++ (key, value) :: after ∧ ∀ later ∈ after, later.1 ≠ key

theorem lastUnder_iff_lookup :
    LastUnder members key value ↔ members.reverse.lookup key = some value := by
  rw [List.lookup_eq_some_iff]
  constructor
  · intro last
    obtain ⟨before, after, rfl, absent⟩ := last
    refine ⟨after.reverse, before.reverse, by simp, fun later member => ?_⟩
    exact bne_iff_ne.mpr (absent later (List.mem_reverse.mp member)).symm
  · intro found
    obtain ⟨after, before, parts, absent⟩ := found
    refine ⟨before.reverse, after.reverse, ?_, fun later member => ?_⟩
    · rw [← List.reverse_reverse members, parts]
      simp
    · exact (bne_iff_ne.mp (absent later (List.mem_reverse.mp member))).symm

theorem LastUnder.unique {other : Json} (first : LastUnder members key value)
    (second : LastUnder members key other) : value = other := by
  have found := lastUnder_iff_lookup.mp first
  rw [lastUnder_iff_lookup.mp second] at found
  exact (Option.some.inj found).symm

theorem LastUnder.mem (last : LastUnder members key value) : (key, value) ∈ members := by
  obtain ⟨before, after, rfl, -⟩ := last
  simp

theorem ofFields_eq (members : List (String × Json)) :
    ofFields members = .object (KeyMap.ofList members).entries := by
  rw [ofFields, KeyMap.ofList, KeyMap.entries_foldl_insert]
  rfl

/-- The object holds for each key the value that stands last in the text. -/
theorem mem_entries_iff_lastUnder :
    (key, value) ∈ (KeyMap.ofList members).entries ↔ LastUnder members key value := by
  rw [KeyMap.mem_entries_iff, KeyMap.find?_ofList, lastUnder_iff_lookup]

theorem readValue?_opening (depth : ℕ) {input rest : List Char}
    (opening : skipSpace input = '\x7b' :: rest) :
    readValue? (depth + 1) input =
      (readSequence? (readField? (readValue? depth)) '\x7d' rest).map fun (fields, rest) =>
        (ofFields fields, rest) := by
  rw [readValue?, opening]
  rfl

theorem IsObjectText.ofText? (object : IsObjectText text members) :
    ofText? text = some (ofFields members) := by
  obtain ⟨rest, behind, opening, read, ended⟩ := object
  have whole : readValue? nestingLimit text.toList = some (ofFields members, behind) := by
    rw [show nestingLimit = nestingLimit - 1 + 1 from rfl, readValue?_opening _ opening, read]
    rfl
  rw [Json.ofText?, whole]
  exact if_pos ended

theorem IsObjectText.unique {others : List (String × Json)} (first : IsObjectText text members)
    (second : IsObjectText text others) : members = others := by
  obtain ⟨rest, behind, opening, read, -⟩ := first
  obtain ⟨rest', behind', opening', read', -⟩ := second
  obtain ⟨-, rfl⟩ := List.cons.inj (opening.symm.trans opening')
  exact (Prod.mk.inj (Option.some.inj (read.symm.trans read'))).1

theorem IsObjectText.not_blank (object : IsObjectText text members) :
    Space.isBlankText text = false := by
  obtain ⟨rest, -, opening, -⟩ := object
  have member : '\x7b' ∈ text.toList := by
    apply (List.dropWhile_suffix isSpace).mem
    rw [← skipSpace, opening]
    exact List.mem_cons_self
  have solid : Space.isSpace '\x7b' = false := by decide
  cases blank : Space.isBlankText text with
  | false => rfl
  | true => exact absurd (List.all_eq_true.mp blank _ member) (by simp [solid])

/-- A text that is read as an object holds its members. -/
theorem exists_members (found : ofText? text = some (.object fields)) :
    ∃ members, IsObjectText text members ∧ ofFields members = .object fields := by
  unfold Json.ofText? at found
  split at found
  · rename_i value behind read
    split at found
    · rename_i ended
      obtain rfl := Option.some.inj found
      rw [show nestingLimit = nestingLimit - 1 + 1 from rfl, readValue?] at read
      split at read
      · obtain ⟨items, -, same⟩ := Option.map_eq_some_iff.mp read
        cases same
      · rename_i rest opening
        obtain ⟨⟨members, after⟩, inside, same⟩ := Option.map_eq_some_iff.mp read
        obtain ⟨held, rfl⟩ := Prod.mk.inj same
        exact ⟨members, ⟨rest, _, opening, inside, ended⟩, held⟩
      · cases fits_of_readScalar? read
    · cases found
  · cases found

end ConfigHeader.Json
