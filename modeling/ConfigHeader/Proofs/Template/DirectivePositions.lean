import ConfigHeader.Proofs.Template.DirectiveGrammar

/-! `#undef` lines by their positions. A cursor that goes over a content from a `#` on, and asks for
every byte by its position, finds the line that is read from there and the position where it ends;
it never asks for what lies outside the content. -/
namespace ConfigHeader

/-- A position, or a part between two positions, that a content does not have. -/
inductive OutOfRange where
  | byte (position : Nat)
  | part (start stop : Nat)
deriving DecidableEq, Repr

namespace Bytes

variable {content front rest : Bytes} {first : UInt8} {position : Nat}

def byteAt (content : Bytes) (position : Nat) : Except OutOfRange UInt8 :=
  match content[position]? with
  | some byte => .ok byte
  | none => .error (.byte position)

def part (content : Bytes) (start stop : Nat) : Except OutOfRange Bytes :=
  if start ≤ stop ∧ stop ≤ content.length then .ok (content.extract start stop)
  else .error (.part start stop)

/-- Whether the byte at a position passes a test. At the end there is none that does. -/
def passesAt (content : Bytes) (test : UInt8 → Bool) (position : Nat) : Except OutOfRange Bool :=
  if position < content.length then do
    let byte ← content.byteAt position
    return test byte
  else return false

/-- The first position, from a given one on, whose byte fails a test, or the end. -/
def runEnd (content : Bytes) (test : UInt8 → Bool) (position : Nat) : Except OutOfRange Nat :=
  if position < content.length then do
    let byte ← content.byteAt position
    if test byte then content.runEnd test (position + 1) else return position
  else return position
termination_by content.length - position

/-- The position is one of the content, or its end, and the rest follows from there. -/
structure RestAt (content : Bytes) (position : Nat) (rest : Bytes) : Prop where
  within : position ≤ content.length
  drop : content.drop position = rest

namespace RestAt

theorem of_drop (begins : content.drop position = first :: rest) :
    content.RestAt position (first :: rest) := by
  refine ⟨?_, begins⟩
  by_contra beyond
  rw [List.drop_eq_nil_of_le (by omega)] at begins
  cases begins

theorem length (here : content.RestAt position rest) :
    content.length = position + rest.length := by
  have lengths := congrArg List.length here.drop
  rw [List.length_drop] at lengths
  have within := here.within
  omega

/-- The cursor moves on behind a part. -/
theorem behind (here : content.RestAt position (front ++ rest)) :
    content.RestAt (position + front.length) rest := by
  refine ⟨?_, ?_⟩
  · rw [here.length, List.length_append]
    omega
  · rw [← List.drop_drop, here.drop, List.drop_left]

theorem next (here : content.RestAt position (first :: rest)) :
    content.RestAt (position + 1) rest := by
  rw [← List.singleton_append] at here
  exact here.behind

theorem getElem?_eq (here : content.RestAt position rest) : content[position]? = rest.head? := by
  rw [← List.head?_drop, here.drop]

theorem byteAt_eq (here : content.RestAt position (first :: rest)) :
    content.byteAt position = .ok first := by
  rw [byteAt, here.getElem?_eq, List.head?_cons]

theorem extract_eq (here : content.RestAt position (front ++ rest)) :
    content.extract position (position + front.length) = front := by
  rw [List.extract, here.drop, Nat.add_sub_cancel_left, List.take_left]

theorem part_eq (here : content.RestAt position (front ++ rest)) :
    content.part position (position + front.length) = .ok front := by
  rw [part, if_pos ⟨Nat.le_add_right _ _, here.behind.within⟩, here.extract_eq]

theorem rest_eq (here : content.RestAt position rest) :
    content.part position content.length = .ok rest := by
  have whole : content.RestAt position (rest ++ []) := by rwa [List.append_nil]
  rw [here.length]
  exact whole.part_eq

theorem run (here : content.RestAt position rest) (test : UInt8 → Bool) :
    content.RestAt position (rest.takeWhile test ++ rest.dropWhile test) := by
  rwa [List.takeWhile_append_dropWhile]

theorem passesAt_eq (here : content.RestAt position rest) (test : UInt8 → Bool) :
    content.passesAt test position = .ok (rest.head?.any test) := by
  have length := here.length
  cases rest with
  | nil => exact if_neg (by simp [length])
  | cons first rest =>
    rw [passesAt, if_pos (by simp [length]), here.byteAt_eq]
    rfl

theorem runEnd_eq (here : content.RestAt position rest) (test : UInt8 → Bool) :
    content.runEnd test position = .ok (position + (rest.takeWhile test).length) := by
  induction rest generalizing position with
  | nil =>
    rw [runEnd, if_neg (by simp [here.length])]
    rfl
  | cons first rest ih =>
    rw [runEnd, if_pos (by simp [here.length]), here.byteAt_eq]
    cases passes : test first with
    | false => simp [passes, bind, Except.bind, pure, Except.pure]
    | true =>
      simp only [bind, Except.bind, passes, if_true, ih here.next, List.takeWhile_cons_of_pos,
        List.length_cons]
      congr 1
      omega

end RestAt

end Bytes

namespace Template.UndefDirective

open Bytes

variable {content : Bytes} {position : Nat}

/-- The line at the `#` of a position, and the position behind its newlines. -/
def readAt (content : Bytes) (position : Nat) :
    Except OutOfRange (Option (UndefDirective × Nat)) := do
  let wordStart ← content.runEnd Byte.isBlank (position + 1)
  let spacing ← content.part (position + 1) wordStart
  let worded ← content.part wordStart content.length
  if keyword.isPrefixOf worded then
    let gapStart := wordStart + keyword.length
    if ← content.passesAt Byte.isBlank gapStart then
      let nameStart ← content.runEnd Byte.isBlank gapStart
      let gap ← content.part gapStart nameStart
      if ← content.passesAt Byte.isNameStart nameStart then
        let nameEnd ← content.runEnd Byte.isNamePart nameStart
        let name ← content.part nameStart nameEnd
        let stop ← content.runEnd (· == Byte.newline) nameEnd
        if stop = nameEnd then return none
        else
          let newlines ← content.part nameEnd stop
          return some ({ spacing, gap, name, newlines }, stop)
      else return none
    else return none
  else return none

private theorem takeWhile_eq_nil_iff {test : UInt8 → Bool} {rest : Bytes} :
    rest.takeWhile test = [] ↔ rest.head?.any test = false := by
  cases rest <;> simp

theorem leadingName_of_no_start {named : Bytes} (none : named.head?.any Byte.isNameStart = false) :
    leadingName named = [] := by
  cases named with
  | nil => rfl
  | cons first rest => exact if_neg (by simpa using none)

theorem leadingName_of_start {named : Bytes} (start : named.head?.any Byte.isNameStart = true) :
    leadingName named = named.takeWhile Byte.isNamePart ∧ leadingName named ≠ [] := by
  cases named with
  | nil => cases start
  | cons first rest =>
    have begins : Byte.isNameStart first = true := start
    simp [leadingName, begins, Byte.isNamePart]

theorem drop_leadingName {named : Bytes} (start : named.head?.any Byte.isNameStart = true) :
    named.drop (leadingName named).length = named.dropWhile Byte.isNamePart := by
  have parts : leadingName named ++ named.drop (leadingName named).length =
      named.takeWhile Byte.isNamePart ++ named.dropWhile Byte.isNamePart :=
    (leadingName_append_drop named).trans List.takeWhile_append_dropWhile.symm
  rw [← (leadingName_of_start start).1] at parts
  exact List.append_cancel_left parts

/-- The reader behind the keyword, by what the next byte is in each place. -/
theorem read?_of_keyword {rest tail : Bytes}
    (worded : rest.dropWhile Byte.isBlank = keyword ++ tail) :
    read? (Byte.hash :: rest) =
      if tail.head?.any Byte.isBlank then
        let named := tail.dropWhile Byte.isBlank
        if named.head?.any Byte.isNameStart then
          let newlines := (named.dropWhile Byte.isNamePart).takeWhile (· == Byte.newline)
          if newlines = [] then none
          else some ⟨rest.takeWhile Byte.isBlank, tail.takeWhile Byte.isBlank,
            named.takeWhile Byte.isNamePart, newlines⟩
        else none
      else none := by
  simp only [read?, if_true, worded, Bytes.after?_append]
  cases blank : tail.head?.any Byte.isBlank with
  | false => exact if_pos (.inl (takeWhile_eq_nil_iff.mpr blank))
  | true =>
    have gap_ne : tail.takeWhile Byte.isBlank ≠ [] := fun empty => by
      rw [takeWhile_eq_nil_iff.mp empty] at blank
      cases blank
    generalize tail.dropWhile Byte.isBlank = named
    cases start : named.head?.any Byte.isNameStart with
    | false => exact if_pos (.inr (.inl (leadingName_of_no_start start)))
    | true =>
      obtain ⟨name, name_ne⟩ := leadingName_of_start start
      simp only [gap_ne, name_ne, drop_leadingName start, false_or, if_true]
      rw [name]

private theorem ok_bind {α β : Type} (value : α) (next : α → Except OutOfRange β) :
    (Except.ok value >>= next) = next value := rfl

/-- The cursor reads what the reader takes from the rest, and asks only for what is there. -/
theorem readAt_eq {rest : Bytes} (here : content.RestAt position (Byte.hash :: rest)) :
    readAt content position = .ok ((read? (Byte.hash :: rest)).map fun line =>
      (line, position + line.text.length)) := by
  have atSpacing := here.next
  have atWord := (atSpacing.run Byte.isBlank).behind
  simp only [readAt, atSpacing.runEnd_eq, (atSpacing.run Byte.isBlank).part_eq, atWord.rest_eq,
    ok_bind]
  cases begins : keyword.isPrefixOf (rest.dropWhile Byte.isBlank) with
  | false =>
    rw [read?, if_pos rfl, Bytes.after?, begins]
    rfl
  | true =>
    obtain ⟨tail, worded⟩ := List.isPrefixOf_iff_prefix.mp begins
    rw [← worded] at atWord
    -- each position that the cursor comes to, with the rest of the content behind it
    have atGap := atWord.behind
    have atName := (atGap.run Byte.isBlank).behind
    have atEnd := (atName.run Byte.isNamePart).behind
    simp only [if_true, read?_of_keyword worded.symm, atGap.passesAt_eq, atGap.runEnd_eq,
      (atGap.run Byte.isBlank).part_eq, atName.passesAt_eq, atName.runEnd_eq,
      (atName.run Byte.isNamePart).part_eq, atEnd.runEnd_eq,
      (atEnd.run (· == Byte.newline)).part_eq, ok_bind]
    cases tail.head?.any Byte.isBlank with
    | false => rfl
    | true =>
      cases (tail.dropWhile Byte.isBlank).head?.any Byte.isNameStart with
      | false => rfl
      | true =>
        by_cases ended : ((tail.dropWhile Byte.isBlank).dropWhile Byte.isNamePart).takeWhile
            (· == Byte.newline) = []
        · simp only [if_true, ended, List.length_nil, Nat.add_zero]
          rfl
        · have moved := List.length_pos_iff.mpr ended
          simp only [if_true]
          rw [if_neg (by omega), if_neg ended]
          refine congrArg (fun stop => Except.ok (some (_, stop))) ?_
          simp only [text, List.length_append, List.length_cons]
          omega

/-- The line takes up the content between two positions. Its name and its newlines end only where
the content has no more of them. -/
structure Occupies (line : UndefDirective) (content : Bytes) (start stop : Nat) : Prop where
  formed : line.Formed
  before : start < stop
  within : stop ≤ content.length
  text : content.extract start stop = line.text
  name_ends : ∀ byte ∈ content[start + line.head.length]?, Byte.isNamePart byte = false
  newlines_end : content[stop]? ≠ some Byte.newline
  hash_not_mem : Byte.hash ∉ content.extract (start + 1) stop

theorem opens_drop_iff {line : UndefDirective} :
    line.Opens (content.drop position) ↔
      line.Occupies content position (position + line.text.length) := by
  constructor
  · rintro ⟨formed, tail, same, stop⟩
    have here : content.RestAt position (line.text ++ tail) := .of_drop same
    have atNewlines : content.RestAt (position + line.head.length) (line.newlines ++ tail) := by
      rw [text_eq_head_append, List.append_assoc] at here
      exact here.behind
    obtain ⟨body, headed, absent, -⟩ := formed.toSpelled.head_eq
    have length : position + line.text.length = position + 1 + (body ++ line.newlines).length := by
      simp only [text_eq_head_append, headed, List.cons_append, List.length_cons]
      omega
    have atBody : content.RestAt (position + 1) (body ++ line.newlines ++ tail) := by
      rw [text_eq_head_append, headed] at here
      exact here.next
    refine ⟨formed, by omega, here.behind.within, here.extract_eq, ?_, ?_, ?_⟩
    · obtain ⟨byte, more, newlines⟩ := List.exists_cons_of_ne_nil formed.newlines_ne
      obtain rfl := formed.newlines byte (by simp [newlines])
      rw [atNewlines.getElem?_eq, newlines]
      simp
      decide
    · rwa [here.behind.getElem?_eq]
    · rw [length, atBody.extract_eq, List.mem_append, not_or]
      exact ⟨absent, fun member => absurd (formed.newlines _ member) (by decide)⟩
  · intro occupied
    refine ⟨occupied.formed, content.drop (position + line.text.length), ?_, ?_⟩
    · have parts := List.take_append_drop line.text.length (content.drop position)
      have text := occupied.text
      rw [List.extract, Nat.add_sub_cancel_left] at text
      rw [text, List.drop_drop] at parts
      exact parts.symm
    · rw [List.head?_drop]
      exact occupied.newlines_end

/-- A line is read exactly if its parts up to a newline behind its name are there. -/
theorem isSome_read?_iff {content : Bytes} : (read? content).isSome ↔
    ∃ spacing gap name rest,
      content = Byte.hash :: spacing ++ keyword ++ gap ++ name ++ Byte.newline :: rest ∧
      (∀ byte ∈ spacing, Byte.isBlank byte = true) ∧ (∀ byte ∈ gap, Byte.isBlank byte = true) ∧
      gap ≠ [] ∧ IsIdentifier name := by
  constructor
  · intro read
    obtain ⟨line, found⟩ := Option.isSome_iff_exists.mp read
    obtain ⟨formed, tail, rfl, -⟩ := formed_of_read? found
    obtain ⟨byte, more, newlines⟩ := List.exists_cons_of_ne_nil formed.newlines_ne
    obtain rfl := formed.newlines byte (by simp [newlines])
    exact ⟨line.spacing, line.gap, line.name, more ++ tail, by simp [text, newlines],
      formed.spacing, formed.gap, formed.gap_ne, formed.name⟩
  · rintro ⟨spacing, gap, name, rest, rfl, blanks, gapBlanks, gap_ne, identifier⟩
    have spelled : Spelled ⟨spacing, gap, name, []⟩ := ⟨blanks, gapBlanks, gap_ne, identifier⟩
    exact Option.isSome_iff_exists.mpr ⟨_, read?_head_append spelled rest⟩

/-- From a `#` on, a line is read exactly if the content there is spelled like one, and it takes up
the content up to the end of its newlines. -/
theorem read?_by_positions (content : Bytes) (position : Nat)
    (hash : content[position]? = some Byte.hash) :
    readAt content position = .ok ((read? (content.drop position)).map fun line =>
      (line, position + line.text.length)) ∧
    ((read? (content.drop position)).isSome ↔
      ∃ spacing gap name rest, content.drop position =
          Byte.hash :: spacing ++ keyword ++ gap ++ name ++ Byte.newline :: rest ∧
        (∀ byte ∈ spacing, Byte.isBlank byte = true) ∧ (∀ byte ∈ gap, Byte.isBlank byte = true) ∧
        gap ≠ [] ∧ IsIdentifier name) ∧
    ∀ line : UndefDirective, read? (content.drop position) = some line ↔
      line.Occupies content position (position + line.text.length) := by
  refine ⟨?_, isSome_read?_iff, fun line => read?_eq_some_iff.trans opens_drop_iff⟩
  have begins : content.drop position = Byte.hash :: content.drop (position + 1) := by
    rw [← List.head?_drop] at hash
    rw [← List.tail_drop]
    exact (List.cons_head?_tail hash).symm
  rw [begins]
  exact readAt_eq (.of_drop begins)

theorem read?_by_positions_between_hashes :
    (textBytes "a##\t undef  B_1\n\n#undef C")[2]? = some Byte.hash ∧
    readAt (textBytes "a##\t undef  B_1\n\n#undef C") 2 = .ok (some
      (⟨textBytes "\t ", textBytes "  ", textBytes "B_1", textBytes "\n\n"⟩, 17)) ∧
    Occupies ⟨textBytes "\t ", textBytes "  ", textBytes "B_1", textBytes "\n\n"⟩
      (textBytes "a##\t undef  B_1\n\n#undef C") 2 17 := by
  have hash : (textBytes "a##\t undef  B_1\n\n#undef C")[2]? = some Byte.hash := by decide
  obtain ⟨cursor, -, occupies⟩ := read?_by_positions _ _ hash
  have found : read? ((textBytes "a##\t undef  B_1\n\n#undef C").drop 2) =
      some ⟨textBytes "\t ", textBytes "  ", textBytes "B_1", textBytes "\n\n"⟩ := by decide
  rw [found] at cursor
  exact ⟨hash, cursor, (occupies _).mp found⟩

end Template.UndefDirective

end ConfigHeader
