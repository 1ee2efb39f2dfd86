import ConfigHeader.Proofs.Template.InlinedFiles
import Mathlib.Data.List.Chain
import Mathlib.Data.List.Pairwise
import Mathlib.Data.List.Sort

/-! Which occurrences of a search string are found. They are the leftmost ones that do not overlap,
and no others could be: whatever else occurs begins inside one of them. A search that compares the
search string at one position after another ends with them, unless the search string is empty; then
it never ends, and so no replacement may ask for it. -/
namespace ConfigHeader.Template

variable {needle content rest replacement : Bytes} {first : UInt8} {positions : List Nat}

def OccursAt (needle content : Bytes) (position : Nat) : Prop :=
  needle <+: content.drop position

theorem occursAt_append (position : Nat) :
    OccursAt needle (needle ++ rest) (position + needle.length) ↔
      OccursAt needle rest position := by
  rw [OccursAt, Nat.add_comm, List.drop_length_add_append, OccursAt]

/-- Occurrences in their order that do not overlap, such that every occurrence begins inside one of
them. -/
structure Leftmost (needle content : Bytes) (positions : List Nat) : Prop where
  increasing : positions.Pairwise (· < ·)
  occurs : ∀ position ∈ positions, OccursAt needle content position
  apart : positions.IsChain fun position next => position + needle.length ≤ next
  covers : ∀ position, OccursAt needle content position →
    ∃ listed ∈ positions, listed ≤ position ∧ position < listed + needle.length

namespace Leftmost

variable {other : List Nat}

theorem pairwise (leftmost : Leftmost needle content positions) :
    positions.Pairwise fun position next => position + needle.length ≤ next := by
  have : IsTrans Nat fun position next => position + needle.length ≤ next :=
    ⟨fun first second third before after => by omega⟩
  exact List.isChain_iff_pairwise.mp leftmost.apart

/-- No listed occurrence begins inside another one. -/
theorem eq_of_inside (leftmost : Leftmost needle content positions) {listed position : Nat}
    (member : listed ∈ positions) (member' : position ∈ positions) (below : listed ≤ position)
    (inside : position < listed + needle.length) : listed = position := by
  have : Std.Symm fun position next : Nat =>
      position + needle.length ≤ next ∨ next + needle.length ≤ position := ⟨fun _ _ => Or.symm⟩
  have apart : positions.Pairwise fun position next =>
      position + needle.length ≤ next ∨ next + needle.length ≤ position :=
    leftmost.pairwise.imp .inl
  by_contra different
  rcases apart.forall member member' different with after | before
  · omega
  · omega

/-- A position of one list is in another one too, if they share all positions before it: it begins
inside an occurrence that the other one lists, and that is itself or one of those before it. -/
theorem mem_of_mem (leftmost : Leftmost needle content positions)
    (leftmost' : Leftmost needle content other) {position : Nat}
    (shared : ∀ earlier < position, earlier ∈ other → earlier ∈ positions)
    (member : position ∈ positions) : position ∈ other := by
  obtain ⟨listed, member', below, inside⟩ :=
    leftmost'.covers position (leftmost.occurs position member)
  rcases Nat.lt_or_eq_of_le below with less | rfl
  · have same := leftmost.eq_of_inside (shared listed less member') member below inside
    omega
  · exact member'

theorem unique (leftmost : Leftmost needle content positions)
    (leftmost' : Leftmost needle content other) : positions = other := by
  refine leftmost.increasing.eq_of_mem_iff leftmost'.increasing fun position => ?_
  -- from left to right: where both lists agree before a position, neither has it alone
  induction position using Nat.strong_induction_on with
  | h position ih =>
    exact ⟨leftmost.mem_of_mem leftmost' fun earlier less => (ih earlier less).mpr,
      leftmost'.mem_of_mem leftmost fun earlier less => (ih earlier less).mp⟩

/-- Where the search string does not begin, nothing is listed. -/
theorem passed (other : ¬ needle <+: first :: rest) (leftmost : Leftmost needle rest positions) :
    Leftmost needle (first :: rest) (positions.map (· + 1)) where
  increasing := List.pairwise_map.mpr (leftmost.increasing.imp fun less => by omega)
  occurs := by
    intro position member
    obtain ⟨position, listed, rfl⟩ := List.mem_map.mp member
    exact leftmost.occurs position listed
  apart := (List.isChain_map _).mpr (leftmost.apart.imp fun _ _ apart => by omega)
  covers := by
    intro position occurs
    cases position with
    | zero => exact absurd occurs other
    | succ position =>
      obtain ⟨listed, member, below, inside⟩ := leftmost.covers position occurs
      exact ⟨listed + 1, List.mem_map_of_mem member, by omega, by omega⟩

theorem found (filled : needle ≠ []) (leftmost : Leftmost needle rest positions) :
    Leftmost needle (needle ++ rest) (0 :: positions.map (· + needle.length)) where
  increasing := by
    have positive := List.length_pos_iff.mpr filled
    refine List.pairwise_cons.mpr ⟨fun position member => ?_, ?_⟩
    · obtain ⟨position, -, rfl⟩ := List.mem_map.mp member
      omega
    · exact List.pairwise_map.mpr (leftmost.increasing.imp fun less => by omega)
  occurs := by
    intro position member
    rcases List.mem_cons.mp member with rfl | later
    · exact ⟨rest, rfl⟩
    · obtain ⟨position, listed, rfl⟩ := List.mem_map.mp later
      exact (occursAt_append _).mpr (leftmost.occurs position listed)
  apart := by
    refine List.isChain_cons.mpr ⟨fun position member => ?_, ?_⟩
    · obtain ⟨position, -, rfl⟩ := List.mem_map.mp (List.mem_of_mem_head? member)
      omega
    · exact (List.isChain_map _).mpr (leftmost.apart.imp fun _ _ apart => by omega)
  covers := by
    intro position occurs
    by_cases inside : position < needle.length
    · exact ⟨0, List.mem_cons_self, by omega, by omega⟩
    · obtain ⟨later, rfl⟩ := Nat.exists_eq_add_of_le' (Nat.le_of_not_lt inside)
      obtain ⟨listed, member, below, inside⟩ :=
        leftmost.covers later ((occursAt_append _).mp occurs)
      exact ⟨listed + needle.length, List.mem_cons_of_mem _ (List.mem_map_of_mem member),
        by omega, by omega⟩

end Leftmost

/-- The search lists the leftmost occurrences. -/
theorem leftmost_occurrences (filled : needle ≠ []) (content : Bytes) :
    Leftmost needle content (occurrences needle content) := by
  induction content using searchInduction filled with
  | nil => exact ⟨.nil, by simp, .nil, fun position occurs => absurd occurs (by simpa [OccursAt])⟩
  | passed first rest other ih =>
    rw [occurrences_cons other]
    exact ih.passed other
  | found rest ih =>
    rw [occurrences_append filled]
    exact ih.found filled

theorem leftmost_iff (filled : needle ≠ []) (content : Bytes) :
    Leftmost needle content positions ↔ positions = occurrences needle content := by
  constructor
  · intro leftmost
    exact leftmost.unique (leftmost_occurrences filled content)
  · rintro rfl
    exact leftmost_occurrences filled content

section Search

/-- The search from a position on, with what was found before it: the search string is compared once
in each step. There is no answer if the search has not ended within the steps. -/
def searchFrom (needle content : Bytes) : Nat → Nat → List Nat → Option (List Nat)
  | 0, _, _ => none
  | steps + 1, position, found =>
    if position + needle.length ≤ content.length then
      if needle.isPrefixOf (content.drop position) then
        searchFrom needle content steps (position + needle.length) (found ++ [position])
      else searchFrom needle content steps (position + 1) found
    else some found

def searchWithin (steps : Nat) (needle content : Bytes) : Option (List Nat) :=
  searchFrom needle content steps 0 []

/-- The search with as many steps as it takes, if it ends at all. -/
def searchToEnd (needle content : Bytes) : Option (List Nat) :=
  searchWithin (content.length + 1) needle content

theorem occurrences_of_short (filled : needle ≠ []) (short : content.length < needle.length) :
    occurrences needle content = [] := by
  refine List.eq_nil_iff_forall_not_mem.mpr fun position member => ?_
  have occurs := ((leftmost_occurrences filled content).occurs position member).length_le
  rw [List.length_drop] at occurs
  omega

theorem searchFrom_eq (filled : needle ≠ []) {steps position : Nat} (found : List Nat)
    (within : position ≤ content.length) (enough : content.length < position + steps) :
    searchFrom needle content steps position found = some (found ++
      (occurrences needle (content.drop position)).map (· + position)) := by
  induction steps generalizing position found with
  | zero => omega
  | succ steps ih =>
    have positive := List.length_pos_iff.mpr filled
    rw [searchFrom]
    by_cases fits : position + needle.length ≤ content.length
    · rw [if_pos fits]
      by_cases here : needle <+: content.drop position
      · obtain ⟨rest, parts⟩ := here
        have behind : content.drop (position + needle.length) = rest := by
          rw [← List.drop_drop, ← parts, List.drop_left]
        rw [if_pos (List.isPrefixOf_iff_prefix.mpr ⟨rest, parts⟩),
          ih _ fits (by omega), behind, ← parts, occurrences_append filled]
        simp [Function.comp_def, Nat.add_comm, Nat.add_left_comm]
      · have parts := List.drop_eq_getElem_cons (show position < content.length by omega)
        rw [if_neg (by rwa [List.isPrefixOf_iff_prefix]), ih found (by omega) (by omega)]
        rw [parts] at here ⊢
        rw [occurrences_cons here]
        simp [Function.comp_def, Nat.add_comm, Nat.add_left_comm]
    · rw [if_neg fits, occurrences_of_short filled (by rw [List.length_drop]; omega)]
      simp

/-- The search for a search string that is not empty ends. -/
theorem searchWithin_eq (filled : needle ≠ []) {steps : Nat} (enough : content.length < steps) :
    searchWithin steps needle content = some (occurrences needle content) := by
  rw [searchWithin, searchFrom_eq filled [] (by omega) (by omega)]
  simp

/-- An empty search string is found where the search stands, so the search never moves on. -/
theorem searchFrom_empty (content : Bytes) (steps : Nat) {position : Nat}
    (within : position ≤ content.length) (found : List Nat) :
    searchFrom [] content steps position found = none := by
  induction steps generalizing found with
  | zero => rfl
  | succ steps ih =>
    rw [searchFrom, if_pos (by simpa using within), if_pos (by simp)]
    exact ih _

end Search

section Pieces

/-- The parts of a content from a position on: before, between and behind what stands, in one width,
at further positions. -/
def piecesFrom (start width : Nat) (positions : List Nat) (content : Bytes) : List Bytes :=
  List.zipWith (fun start stop => content.extract start stop)
    (start :: positions.map (· + width)) (positions ++ [content.length])

/-- What is copied from a position on, if all that is replaced stands behind it. -/
theorem copy_eq_intercalate {width copied : Nat} (content replacement : Bytes)
    (behind : ∀ position ∈ positions.head?, copied ≤ position)
    (apart : positions.IsChain fun position next => position + width ≤ next) :
    copyReplacing.copy replacement width copied positions (content.drop copied) =
      replacement.intercalate (piecesFrom copied width positions content) := by
  induction positions generalizing copied with
  | nil =>
    have whole : content.extract copied content.length = content.drop copied :=
      List.take_of_length_le (by simp)
    simp [copyReplacing.copy, piecesFrom, whole]
  | cons position later ih =>
    obtain ⟨next, others⟩ := List.isChain_cons.mp apart
    have below : copied ≤ position := behind position rfl
    have dropped : (content.drop copied).drop (position + width - copied) =
        content.drop (position + width) := by
      rw [List.drop_drop]
      congr 1
      omega
    rw [copyReplacing.copy, dropped, ih next others]
    cases later <;> simp [piecesFrom, List.intercalate_cons_cons]

theorem replaceLiteral_eq_intercalate (filled : needle ≠ []) (content replacement : Bytes) :
    replaceLiteral content needle replacement =
      replacement.intercalate (piecesFrom 0 needle.length (occurrences needle content) content) :=
  copy_eq_intercalate content replacement (by simp) (leftmost_occurrences filled content).apart

theorem length_replaceLiteral (filled : needle ≠ []) (content replacement : Bytes) :
    ((replaceLiteral content needle replacement).length : Int) = content.length +
      (occurrences needle content).length * (replacement.length - needle.length) := by
  induction content using searchInduction filled with
  | nil => simp
  | passed first rest other ih =>
    rw [replaceLiteral_cons other, occurrences_cons other, List.length_map, List.length_cons,
      List.length_cons]
    omega
  | found rest ih =>
    rw [replaceLiteral_append filled, occurrences_append filled, List.length_cons, List.length_map,
      List.length_append, List.length_append, Int.natCast_succ, Int.add_mul, Int.one_mul]
    omega

theorem replaceLiteral_self (filled : needle ≠ []) (content : Bytes) :
    replaceLiteral content needle needle = content := by
  induction content using searchInduction filled with
  | nil => rfl
  | passed first rest other ih => rw [replaceLiteral_cons other, ih]
  | found rest ih => rw [replaceLiteral_append filled, ih]

end Pieces

section Runs

variable {FilePath FileFault : Type} {find : Bytes → Bytes → Option (List Nat)}

/-- One replacement by a text after another, each with the positions that a search gives. There is
no result if a search gives none. -/
def substituteTextsBy (find : Bytes → Bytes → Option (List Nat)) (substitutions : KeyMap String)
    (content : Bytes) : Option Bytes :=
  substitutions.entries.foldlM
    (fun content (search, replacement) =>
      if search = "" then some content
      else do
        let positions ← find (textBytes search) content
        return copyReplacing (textBytes replacement) (textBytes search).length positions content)
    content

/-- One inlined file after another, each with the positions that a search gives. -/
def inlineFilesBy (find : Bytes → Bytes → Option (List Nat))
    (read : FilePath → Except FileFault Bytes) (inlines : KeyMap FilePath) (content : Bytes) :
    ExceptT (InlineFailure FilePath FileFault) Option Bytes :=
  inlines.entries.foldlM
    (fun content (search, path) =>
      if search = "" then pure content
      else
        match read path with
        | .ok replacement => do
          let positions ← ExceptT.lift (find (textBytes search) content)
          return positions.foldr (splice replacement (textBytes search).length) content
        | .error fault => throw { search, path, fault })
    content

section Finding

variable (finds : ∀ needle content : Bytes, needle ≠ [] →
  find needle content = some (occurrences needle content))
include finds

/-- What a search does with an empty search string does not matter to a run over substitutions. -/
theorem substituteTextsBy_eq (substitutions : KeyMap String) (content : Bytes) :
    substituteTextsBy find substitutions content =
      some (substituteTexts substitutions content) := by
  rw [substituteTextsBy, substituteTexts]
  generalize substitutions.entries = entries
  induction entries generalizing content with
  | nil => rfl
  | cons entry entries ih =>
    rw [List.foldlM_cons, List.foldl_cons]
    by_cases empty : entry.1 = ""
    · simp only [empty, if_true]
      exact ih content
    · simp only [empty, if_false, finds _ content (textBytes_ne_nil empty)]
      exact ih _

theorem inlineFilesBy_eq (read : FilePath → Except FileFault Bytes) (inlines : KeyMap FilePath)
    (content : Bytes) :
    (inlineFilesBy find read inlines content).run = some (inlineFiles read inlines content) := by
  rw [inlineFilesBy, inlineFiles]
  generalize inlines.entries = entries
  induction entries generalizing content with
  | nil => rfl
  | cons entry entries ih =>
    rw [List.foldlM_cons, List.foldlM_cons]
    by_cases empty : entry.1 = ""
    · simp only [empty, if_true]
      exact ih content
    · cases found : read entry.2 with
      | error fault =>
        simp only [empty, if_false, found]
        rfl
      | ok replacement =>
        simp only [empty, if_false, found, finds _ content (textBytes_ne_nil empty)]
        exact ih _

end Finding

theorem substituteTexts_singleton {wanted : String} (filled : wanted ≠ "") (text : String)
    (content : Bytes) : substituteTexts (.ofList [(wanted, text)]) content =
      replaceLiteral content (textBytes wanted) (textBytes text) :=
  if_neg filled

end Runs

/-- A search for a string that is not empty ends with the leftmost occurrences, which no other list
is, and a replacement puts something else between the parts of the content around them. A search for
an empty string does not end, and no run over substitutions or inlined files asks for one. -/
theorem occurrences_are_leftmost {FilePath FileFault : Type} (content : Bytes) :
    (∀ needle : Bytes, needle ≠ [] →
      (∀ steps, content.length < steps →
        searchWithin steps needle content = some (occurrences needle content)) ∧
      (∀ positions, Leftmost needle content positions ↔ positions = occurrences needle content) ∧
      (∀ replacement : Bytes,
        replaceLiteral content needle replacement = replacement.intercalate
          (piecesFrom 0 needle.length (occurrences needle content) content) ∧
        ((replaceLiteral content needle replacement).length : Int) = content.length +
          (occurrences needle content).length * (replacement.length - needle.length)) ∧
      replaceLiteral content needle needle = content) ∧
    (∀ wanted text : String, wanted ≠ "" → substituteTexts (.ofList [(wanted, text)]) content =
      replaceLiteral content (textBytes wanted) (textBytes text)) ∧
    (∀ steps, searchWithin steps [] content = none) ∧
    (∀ substitutions, substituteTextsBy searchToEnd substitutions content =
      some (substituteTexts substitutions content)) ∧
    ∀ (read : FilePath → Except FileFault Bytes) (inlines : KeyMap FilePath),
      (inlineFilesBy searchToEnd read inlines content).run =
        some (inlineFiles read inlines content) := by
  have finds (needle content : Bytes) (filled : needle ≠ []) :
      searchToEnd needle content = some (occurrences needle content) :=
    searchWithin_eq filled (Nat.lt_succ_self _)
  refine ⟨fun needle filled => ⟨?_, ?_, fun replacement => ⟨?_, ?_⟩, ?_⟩, ?_, ?_, ?_, ?_⟩
  · exact fun steps => searchWithin_eq filled
  · exact fun positions => leftmost_iff filled content
  · exact replaceLiteral_eq_intercalate filled content replacement
  · exact length_replaceLiteral filled content replacement
  · exact replaceLiteral_self filled content
  · exact fun wanted text filled => substituteTexts_singleton filled text content
  · exact fun steps => searchFrom_empty content steps (Nat.zero_le _) []
  · exact fun substitutions => substituteTextsBy_eq finds substitutions content
  · exact fun read inlines => inlineFilesBy_eq finds read inlines content

theorem occurrences_are_leftmost_of_overlapping :
    textBytes "aba" ≠ [] ∧
    searchToEnd (textBytes "aba") (textBytes "ababaxaba") = some [0, 6] ∧
    Leftmost (textBytes "aba") (textBytes "ababaxaba") [0, 6] ∧
    replaceLiteral (textBytes "ababaxaba") (textBytes "aba") (textBytes "c") =
      (textBytes "c").intercalate [textBytes "", textBytes "bax", textBytes ""] ∧
    substituteTextsBy searchToEnd (.ofList [("", "a"), ("aba", "c")]) (textBytes "ababaxaba") =
      some (textBytes "cbaxc") := by
  have filled : textBytes "aba" ≠ [] := by decide
  have found : occurrences (textBytes "aba") (textBytes "ababaxaba") = [0, 6] := by decide
  obtain ⟨searches, -, -, runs, -⟩ :=
    @occurrences_are_leftmost Unit Unit (textBytes "ababaxaba")
  obtain ⟨ends, leftmost, replaced, -⟩ := searches _ filled
  rw [found] at ends leftmost replaced
  refine ⟨filled, ends _ (Nat.lt_succ_self _), (leftmost _).mpr rfl, (replaced _).1, ?_⟩
  rw [runs]
  decide +kernel

end ConfigHeader.Template
