import ConfigHeader.Proofs.Lines
import ConfigHeader.Proofs.Runs
import ConfigHeader.Template.UndefDirective

namespace ConfigHeader

/-- A C identifier: a letter or an underscore, then letters, underscores and digits. -/
def IsIdentifier (name : Bytes) : Prop :=
  ∃ first rest, name = first :: rest ∧ Byte.isNameStart first = true ∧
    ∀ byte ∈ rest, Byte.isNamePart byte = true

namespace IsIdentifier

theorem namePart {name : Bytes} (identifier : IsIdentifier name) {byte : UInt8}
    (member : byte ∈ name) : Byte.isNamePart byte = true := by
  obtain ⟨first, rest, rfl, start, parts⟩ := identifier
  rcases List.mem_cons.mp member with same | later
  · simp [same, Byte.isNamePart, start]
  · exact parts byte later

theorem not_mem {name : Bytes} (identifier : IsIdentifier name) {byte : UInt8}
    (other : Byte.isNamePart byte = false) : byte ∉ name :=
  not_mem_run (fun _ member => identifier.namePart member) other

theorem ne_nil {name : Bytes} (identifier : IsIdentifier name) : name ≠ [] := by
  obtain ⟨first, rest, rfl, -⟩ := identifier
  simp

end IsIdentifier

theorem leadingName_eq_nil_or (content : Bytes) :
    leadingName content = [] ∨ IsIdentifier (leadingName content) := by
  cases content with
  | nil => exact .inl rfl
  | cons first rest =>
    simp only [leadingName]
    split
    · rename_i start
      exact .inr ⟨first, _, rfl, start, fun byte member => List.mem_takeWhile_imp member⟩
    · exact .inl rfl

/-- The identifier at the front ends where a byte is no part of a name. -/
theorem leadingName_append {name rest : Bytes} (identifier : IsIdentifier name)
    (stop : ∀ byte ∈ rest.head?, Byte.isNamePart byte = false) :
    leadingName (name ++ rest) = name := by
  obtain ⟨first, parts, rfl, start, inside⟩ := identifier
  simp only [List.cons_append, leadingName, start, if_true, takeWhile_run inside stop]

theorem leadingName_append_drop (content : Bytes) :
    leadingName content ++ content.drop (leadingName content).length = content := by
  cases content with
  | nil => rfl
  | cons first rest =>
    simp only [leadingName]
    split
    · simp only [List.length_cons, List.drop_succ_cons, List.cons_append, List.cons.injEq, true_and]
      exact List.prefix_iff_eq_append.mp (List.takeWhile_prefix _)
    · rfl

theorem Byte.isBlank_of_isNamePart {byte : UInt8} (part : Byte.isNamePart byte = true) :
    Byte.isBlank byte = false := by
  cases blank : Byte.isBlank byte with
  | false => rfl
  | true =>
    rcases (by simpa [Byte.isBlank] using blank : byte = 0x20 ∨ byte = 0x09) with rfl | rfl
    · exact absurd part (by decide)
    · exact absurd part (by decide)

theorem Bytes.after?_append (head rest : Bytes) : Bytes.after? head (head ++ rest) = some rest := by
  simp [Bytes.after?]

theorem Bytes.eq_append_of_after? {head content rest : Bytes}
    (found : Bytes.after? head content = some rest) : content = head ++ rest := by
  unfold Bytes.after? at found
  split at found
  · rename_i leads
    obtain ⟨more, rfl⟩ := List.isPrefixOf_iff_prefix.mp leads
    simpa using found
  · cases found

namespace Template.UndefDirective

/-- The parts before the newlines are spelled as their names say. -/
structure Spelled (line : UndefDirective) : Prop where
  spacing : ∀ byte ∈ line.spacing, Byte.isBlank byte = true
  gap : ∀ byte ∈ line.gap, Byte.isBlank byte = true
  gap_ne : line.gap ≠ []
  name : IsIdentifier line.name

/-- All parts are spelled as their names say. -/
structure Formed (line : UndefDirective) : Prop extends Spelled line where
  newlines : ∀ byte ∈ line.newlines, byte = Byte.newline
  newlines_ne : line.newlines ≠ []

/-- The line stands at the front of a content, and all newlines behind its name belong to it. -/
def Opens (line : UndefDirective) (content : Bytes) : Prop :=
  line.Formed ∧ ∃ tail, content = line.text ++ tail ∧ tail.head? ≠ some Byte.newline

/-- The line without its newlines. -/
def head (line : UndefDirective) : Bytes :=
  Byte.hash :: line.spacing ++ keyword ++ line.gap ++ line.name

/-- The line of a name, with one space before the name and no newline. -/
def ofName (name : Bytes) : UndefDirective :=
  ⟨[], [0x20], name, []⟩

theorem spelled_ofName {name : Bytes} (identifier : IsIdentifier name) : (ofName name).Spelled :=
  ⟨by simp [ofName], by simp [ofName, Byte.isBlank], by simp [ofName], identifier⟩

theorem text_eq_head_append (line : UndefDirective) : line.text = line.head ++ line.newlines := rfl

theorem keyword_eq : keyword = [0x75, 0x6e, 0x64, 0x65, 0x66] := by decide

private theorem keyword_stop (rest : Bytes) :
    ∀ byte ∈ (keyword ++ rest).head?, Byte.isBlank byte = false := by
  rw [keyword_eq]
  simp
  decide

private theorem name_stop {name : Bytes} (identifier : IsIdentifier name) (rest : Bytes) :
    ∀ byte ∈ (name ++ rest).head?, Byte.isBlank byte = false := by
  intro byte first
  have member : byte ∈ name := by
    obtain ⟨start, parts, rfl, -⟩ := identifier
    simp_all
  exact Byte.isBlank_of_isNamePart (identifier.namePart member)

/-- Behind its first byte the line holds no other `#`. -/
theorem Spelled.head_eq {line : UndefDirective} (spelled : line.Spelled) :
    ∃ body, line.head = Byte.hash :: body ∧ Byte.hash ∉ body ∧ Byte.newline ∉ body := by
  refine ⟨line.spacing ++ keyword ++ line.gap ++ line.name, rfl, ?_, ?_⟩
  · simp only [keyword_eq, List.mem_append, not_or]
    exact ⟨⟨⟨not_mem_run spelled.spacing rfl, by decide⟩, not_mem_run spelled.gap rfl⟩,
      spelled.name.not_mem rfl⟩
  · simp only [keyword_eq, List.mem_append, not_or]
    exact ⟨⟨⟨not_mem_run spelled.spacing rfl, by decide⟩, not_mem_run spelled.gap rfl⟩,
      spelled.name.not_mem rfl⟩

theorem Spelled.newline_not_mem {line : UndefDirective} (spelled : line.Spelled) :
    Byte.newline ∉ line.head := by
  obtain ⟨body, same, -, absent⟩ := spelled.head_eq
  simp [same, absent]
  decide

/-- What is read is a formed line, and no newline follows it. -/
theorem formed_of_read? {content : Bytes} {line : UndefDirective}
    (found : read? content = some line) : line.Opens content := by
  cases content with
  | nil => cases found
  | cons first rest =>
    simp only [read?] at found
    split at found
    · rename_i hash
      split at found
      · cases found
      · rename_i tail after
        split at found
        · cases found
        · rename_i parts
          obtain ⟨gap, name, newlines⟩ : _ ∧ _ ∧ _ := by simpa only [not_or] using parts
          obtain rfl := Option.some.inj found
          have named_parts : tail.takeWhile Byte.isBlank ++ tail.dropWhile Byte.isBlank = tail :=
            List.takeWhile_append_dropWhile
          generalize tail.dropWhile Byte.isBlank = named at *
          refine ⟨⟨⟨?_, ?_, gap, ?_⟩, ?_, newlines⟩,
            (named.drop (leadingName named).length).dropWhile (· == Byte.newline), ?_, ?_⟩
          · exact fun byte member => List.mem_takeWhile_imp member
          · exact fun byte member => List.mem_takeWhile_imp member
          · exact (leadingName_eq_nil_or _).resolve_left name
          · exact fun byte member => by simpa using List.mem_takeWhile_imp member
          · simp only [text, hash, List.cons_append, List.append_assoc]
            rw [List.takeWhile_append_dropWhile, leadingName_append_drop, named_parts,
              ← Bytes.eq_append_of_after? after, List.takeWhile_append_dropWhile]
          · intro continues
            simpa using head?_dropWhile continues
    · cases found

/-- A formed line is read as soon as no newline follows it. -/
theorem read?_text_append {line : UndefDirective} (formed : line.Formed) {tail : Bytes}
    (stop : tail.head? ≠ some Byte.newline) : read? (line.text ++ tail) = some line := by
  obtain ⟨spacing, gap, name, newlines⟩ := line
  obtain ⟨⟨blanks, gapBlanks, gap_ne, identifier⟩, lineEnds, newlines_ne⟩ := formed
  have nameEnds : ∀ byte ∈ (newlines ++ tail).head?, Byte.isNamePart byte = false := by
    obtain ⟨byte, others, rfl⟩ := List.exists_cons_of_ne_nil newlines_ne
    have same : byte = Byte.newline := lineEnds byte (by simp)
    simp [same]
    decide
  have run : ∀ byte ∈ newlines, (byte == Byte.newline) = true :=
    fun byte member => by simpa using lineEnds byte member
  have runEnds : ∀ byte ∈ tail.head?, (byte == Byte.newline) = false := by
    intro byte first
    rw [beq_eq_false_iff_ne]
    rintro rfl
    exact stop first
  simp only [read?, text, List.cons_append, List.append_assoc, if_true,
    dropWhile_run blanks (keyword_stop _), Bytes.after?_append,
    dropWhile_run gapBlanks (name_stop identifier _), leadingName_append identifier nameEnds,
    List.drop_left, takeWhile_run run runEnds, takeWhile_run blanks (keyword_stop _),
    takeWhile_run gapBlanks (name_stop identifier _)]
  exact if_neg (by simp [gap_ne, identifier.ne_nil, newlines_ne])

/-- The reader takes exactly the formed lines, each with all the newlines that follow it. -/
theorem read?_eq_some_iff {content : Bytes} {line : UndefDirective} :
    read? content = some line ↔ line.Opens content := by
  constructor
  · exact formed_of_read?
  · rintro ⟨formed, tail, rfl, stop⟩
    exact read?_text_append formed stop

theorem read?_cons_of_ne {first : UInt8} (rest : Bytes) (other : first ≠ Byte.hash) :
    read? (first :: rest) = none := by
  rw [read?, if_neg other]

theorem newline_mem_of_read? {content : Bytes} {line : UndefDirective}
    (found : read? content = some line) : Byte.newline ∈ content := by
  obtain ⟨formed, tail, rfl, -⟩ := formed_of_read? found
  obtain ⟨byte, more, newlines⟩ := List.exists_cons_of_ne_nil formed.newlines_ne
  have newline : byte = Byte.newline := formed.newlines byte (by simp [newlines])
  simp [text, newlines, newline]

/-- What ends in a newline behind the head of a line is read, with all the newlines there. -/
theorem read?_head_append {line : UndefDirective} (spelled : line.Spelled) (rest : Bytes) :
    read? (line.head ++ Byte.newline :: rest) = some { line with
      newlines := (Byte.newline :: rest).takeWhile (· == Byte.newline) } := by
  refine read?_eq_some_iff.mpr ⟨⟨⟨spelled.spacing, spelled.gap, spelled.gap_ne, spelled.name⟩,
    fun byte member => by simpa using List.mem_takeWhile_imp member, by simp⟩,
    (Byte.newline :: rest).dropWhile (· == Byte.newline), ?_, ?_⟩
  · rw [text_eq_head_append, List.append_assoc, List.takeWhile_append_dropWhile]
    rfl
  · intro continues
    simpa using head?_dropWhile continues

/-- The head of the line that is read stands before the first newline. -/
theorem head_of_read? {front rest : Bytes} {line : UndefDirective}
    (inside : Byte.newline ∉ front)
    (found : read? (front ++ Byte.newline :: rest) = some line) :
    line.Spelled ∧ front = line.head := by
  obtain ⟨formed, tail, same, -⟩ := formed_of_read? found
  obtain ⟨byte, more, newlines⟩ := List.exists_cons_of_ne_nil formed.newlines_ne
  have newline : byte = Byte.newline := formed.newlines byte (by simp [newlines])
  rw [text_eq_head_append, newlines, newline, List.append_assoc, List.cons_append] at same
  exact ⟨formed.toSpelled, ((Bytes.firstLine_inj inside formed.newline_not_mem).mp same).1⟩

end Template.UndefDirective

end ConfigHeader
