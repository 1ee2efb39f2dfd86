import ConfigHeader.CommandLine.ArgumentsFile
import ConfigHeader.Proofs.Lines
import ConfigHeader.Proofs.Runs
import ConfigHeader.Proofs.Utf8Reading

namespace ConfigHeader

namespace Space

variable {chars before after : List Char}

/-- A text of which neither end is white space is what remains of it between white space. -/
theorem trim_padded (filled : chars ≠ []) (front : ∀ char ∈ chars.head?, isSpace char = false)
    (back : ∀ char ∈ chars.getLast?, isSpace char = false)
    (leading : ∀ char ∈ before, isSpace char = true)
    (trailing : ∀ char ∈ after, isSpace char = true) : trim (before ++ chars ++ after) = chars := by
  have first : ∀ char ∈ (chars ++ after).head?, isSpace char = false := by
    rwa [List.head?_append_of_ne_nil _ filled]
  have last : ∀ char ∈ chars.reverse.head?, isSpace char = false := by
    rwa [List.head?_reverse]
  have reversed : ∀ char ∈ after.reverse, isSpace char = true := by simpa using trailing
  rw [trim, List.append_assoc, dropWhile_run leading first, List.reverse_append,
    dropWhile_run reversed last, List.reverse_reverse]

theorem trim_of_space (space : ∀ char ∈ chars, isSpace char = true) : trim chars = [] := by
  rw [trim, List.dropWhile_eq_nil_iff.mpr space]
  rfl

/-- What is trimmed is white space, and none is left at the ends. -/
theorem trim_parts (chars : List Char) :
    ∃ before after, chars = before ++ trim chars ++ after ∧
      (∀ char ∈ before, isSpace char = true) ∧ (∀ char ∈ after, isSpace char = true) ∧
      (∀ char ∈ (trim chars).head?, isSpace char = false) ∧
      ∀ char ∈ (trim chars).getLast?, isSpace char = false := by
  have whole : chars.takeWhile isSpace ++ chars.dropWhile isSpace = chars :=
    List.takeWhile_append_dropWhile
  have ended : trim chars ++ (chars.dropWhile isSpace).rtakeWhile isSpace =
      chars.dropWhile isSpace := List.rdropWhile_append_rtakeWhile
  refine ⟨chars.takeWhile isSpace, (chars.dropWhile isSpace).rtakeWhile isSpace, ?_, ?_, ?_, ?_, ?_⟩
  · rw [List.append_assoc, ended, whole]
  · exact fun char member => List.mem_takeWhile_imp member
  · exact fun char member => List.mem_rtakeWhile_imp member
  · intro char first
    apply @head?_dropWhile _ isSpace chars
    rw [← ended, List.head?_append, Option.mem_def.mp first]
    rfl
  · intro char last
    rw [trim, List.getLast?_reverse] at last
    exact head?_dropWhile last

end Space

namespace CommandLine

open Space (isSpace trim)

/-- White space that stays on its line. -/
def IsPadding (chars : List Char) : Prop :=
  ∀ char ∈ chars, isSpace char = true ∧ char ≠ '\n'

/-- A text that is not empty, stays on one line and has no white space at its ends. -/
structure IsArgument (text : String) : Prop where
  filled : text ≠ ""
  unbroken : '\n' ∉ text.toList
  front : ∀ char ∈ text.toList.head?, isSpace char = false
  back : ∀ char ∈ text.toList.getLast?, isSpace char = false

/-- What stands on a line: no argument, or one with white space around it. -/
inductive LineHolds : List Char → List String → Prop where
  | blank {line : List Char} (padding : IsPadding line) : LineHolds line []
  | argument {before after : List Char} {argument : String} (leading : IsPadding before)
    (formed : IsArgument argument) (trailing : IsPadding after) :
    LineHolds (before ++ argument.toList ++ after) [argument]

inductive LineEnd : List Char → Prop where
  | newline : LineEnd ['\n']
  | returned : LineEnd ['\r', '\n']

/-- What stands on the lines of a text, of which the last one need not be ended. -/
inductive Lists : List Char → List String → Prop where
  | last {line : List Char} {held : List String} (holds : LineHolds line held) : Lists line held
  | line {line ending rest : List Char} {held later : List String} (holds : LineHolds line held)
    (ended : LineEnd ending) (others : Lists rest later) :
    Lists (line ++ ending ++ rest) (held ++ later)

variable {line chars : List Char} {held : List String}

theorem IsPadding.append {first second : List Char} (left : IsPadding first)
    (right : IsPadding second) : IsPadding (first ++ second) := by
  intro char member
  rcases List.mem_append.mp member with early | late
  · exact left char early
  · exact right char late

theorem IsPadding.space (padding : IsPadding chars) : ∀ char ∈ chars, isSpace char = true :=
  fun char member => (padding char member).1

theorem IsPadding.newline_not_mem (padding : IsPadding chars) : '\n' ∉ chars :=
  fun member => (padding '\n' member).2 rfl

theorem LineHolds.newline_not_mem (holds : LineHolds line held) : '\n' ∉ line := by
  cases holds with
  | blank padding => exact padding.newline_not_mem
  | argument leading formed trailing =>
    simp [leading.newline_not_mem, formed.unbroken, trailing.newline_not_mem]

/-- More white space at the end of a line changes nothing. -/
theorem LineHolds.append_padding {more : List Char} (holds : LineHolds line held)
    (padding : IsPadding more) : LineHolds (line ++ more) held := by
  cases holds with
  | blank blank => exact .blank (blank.append padding)
  | argument leading formed trailing =>
    rw [List.append_assoc]
    exact .argument leading formed (trailing.append padding)

theorem LineHolds.isArgument (holds : LineHolds line held) :
    ∀ argument ∈ held, IsArgument argument := by
  cases holds with
  | blank padding => simp
  | argument leading formed trailing => simpa using formed

/-- What is read from a line. -/
def lineArguments (line : List Char) : List String :=
  if trim line = [] then [] else [String.ofList (trim line)]

theorem lineHolds_lineArguments (unbroken : '\n' ∉ line) : LineHolds line (lineArguments line) := by
  unfold lineArguments
  obtain ⟨before, after, parts, leading, trailing, front, back⟩ := Space.trim_parts line
  generalize trim line = middle at parts front back ⊢
  subst parts
  simp only [List.mem_append, not_or] at unbroken
  obtain ⟨⟨early, inner⟩, late⟩ := unbroken
  have padding {part : List Char} (fresh : '\n' ∉ part)
      (space : ∀ char ∈ part, isSpace char = true) : IsPadding part :=
    fun char member => ⟨space char member, fun same => fresh (same ▸ member)⟩
  split
  · rename_i empty
    rw [empty, List.append_nil]
    exact .blank ((padding early leading).append (padding late trailing))
  · rename_i filled
    have formed : IsArgument (String.ofList middle) := by
      constructor <;> simpa
    have holds := LineHolds.argument (padding early leading) formed (padding late trailing)
    rwa [String.toList_ofList] at holds

theorem LineHolds.eq_lineArguments (holds : LineHolds line held) : lineArguments line = held := by
  cases holds with
  | blank padding => rw [lineArguments, if_pos (Space.trim_of_space padding.space)]
  | argument leading formed trailing =>
    have filled := mt String.toList_eq_nil_iff.mp formed.filled
    have trimmed :=
      Space.trim_padded filled formed.front formed.back leading.space trailing.space
    rw [lineArguments, trimmed, if_neg filled, String.ofList_toList]

theorem argumentsOfText_eq (text : String) :
    argumentsOfText text = (text.toList.splitOn '\n').flatMap lineArguments := by
  rw [argumentsOfText, List.filterMap_map, List.filterMap_eq_flatMap_toList]
  apply congrArg (List.flatMap · _)
  funext line
  by_cases empty : trim line = [] <;> simp [lineArguments, empty]

theorem Lists.flatMap_eq (lists : Lists chars held) :
    (chars.splitOn '\n').flatMap lineArguments = held := by
  induction lists with
  | last holds =>
    rw [List.splitOn_eq_singleton holds.newline_not_mem, List.flatMap_singleton,
      holds.eq_lineArguments]
  | @line line ending rest held later holds ended others ih =>
    -- a carriage return before the newline is white space at the end of the line
    have returned : LineHolds (line ++ ending.dropLast) held := by
      cases ended with
      | newline => simpa using holds
      | returned => exact holds.append_padding (by simp [IsPadding, Space.isSpace, Space.ranges])
    have parts : line ++ ending ++ rest = (line ++ ending.dropLast) ++ '\n' :: rest := by
      cases ended <;> simp
    rw [parts, List.splitOn_append_cons_self_of_not_mem returned.newline_not_mem,
      List.flatMap_cons, returned.eq_lineArguments, ih]

/-- Every text lists what is read from its lines. -/
theorem lists_flatMap (chars : List Char) :
    Lists chars ((chars.splitOn '\n').flatMap lineArguments) := by
  induction chars using separatorInduction '\n' with
  | rest rest unbroken =>
    rw [List.splitOn_eq_singleton unbroken, List.flatMap_singleton]
    exact .last (lineHolds_lineArguments unbroken)
  | part line rest unbroken ih =>
    rw [List.splitOn_append_cons_self_of_not_mem unbroken, List.flatMap_cons, List.append_cons]
    exact .line (lineHolds_lineArguments unbroken) .newline ih

theorem argumentsOfText_eq_iff {text : String} :
    argumentsOfText text = held ↔ Lists text.toList held := by
  rw [argumentsOfText_eq]
  constructor
  · rintro rfl
    exact lists_flatMap text.toList
  · exact Lists.flatMap_eq

theorem Lists.isArgument (lists : Lists chars held) : ∀ argument ∈ held, IsArgument argument := by
  induction lists with
  | last holds => exact holds.isArgument
  | line holds ended others ih =>
    intro argument member
    rcases List.mem_append.mp member with here | later
    · exact holds.isArgument argument here
    · exact ih argument later

/-- Arguments may be written on lines of their own. -/
theorem exists_lists {arguments : List String}
    (formed : ∀ argument ∈ arguments, IsArgument argument) :
    ∃ text : String, Lists text.toList arguments := by
  induction arguments with
  | nil => exact ⟨"", .last (.blank (by simp [IsPadding]))⟩
  | cons argument arguments ih =>
    obtain ⟨rest, others⟩ := ih fun other member => formed other (List.mem_cons_of_mem _ member)
    have nothing : IsPadding [] := by simp [IsPadding]
    have first := LineHolds.argument nothing (formed argument List.mem_cons_self) nothing
    exact ⟨argument ++ "\n" ++ rest, by simpa using Lists.line first .newline others⟩

section Expansion

variable {tree : FileTree} {path : Path} {arguments : List String} {α : Type} [Word α]

/-- The file at a path lists these arguments. -/
def FileLists (tree : FileTree) (path : Path) (arguments : List String) : Prop :=
  ∃ text, tree.contentOf path = .ok (textBytes text) ∧ Lists text.toList arguments

theorem readArguments_eq_ok_iff :
    readArguments tree path = .ok arguments ↔ FileLists tree path arguments := by
  unfold readArguments FileLists
  cases tree.contentOf path with
  | error fault => simp [Except.mapError, bind, Except.bind]
  | ok content =>
    simp only [Except.mapError, bind, Except.bind, Except.ok.injEq]
    cases decoded : Utf8.decodeText content with
    | error fault =>
      have unread (text : String) : content ≠ textBytes text := by
        rw [Ne, ← Utf8.decodeText_eq_ok_iff, decoded]
        simp
      simp [unread]
    | ok text =>
      have bytes (other : String) : content = textBytes other ↔ text = other := by
        rw [← Utf8.decodeText_eq_ok_iff, decoded, Except.ok.injEq]
      simp [bytes, argumentsOfText_eq_iff]

/-- There is no file without a path. -/
theorem FileLists.path_filled (lists : FileLists tree path arguments) : path.text ≠ "" := by
  obtain ⟨text, found, -⟩ := lists
  intro empty
  simp [FileTree.contentOf, FileTree.find, FileTree.locate, FileTree.startOf, empty, bind,
    Except.bind] at found

theorem argumentsPath?_of_named {program command word : α}
    (named : Word.text? word = some ("@" ++ path.text)) :
    argumentsPath? [program, command, word] = some path := by
  simp [argumentsPath?, named]

theorem argumentsPath?_of_other {words : List α}
    (other : words.length ≠ 3 ∨
      ∀ word ∈ words[2]?, ∀ text, Word.text? word = some text → text.toList.head? ≠ some '@') :
    argumentsPath? words = none := by
  unfold argumentsPath?
  split
  · rename_i program command word
    have plain := other.resolve_left (by simp) word rfl
    split
    · rename_i rest begins
      obtain ⟨text, read, parts⟩ := Option.map_eq_some_iff.mp begins
      exact absurd (by simp [parts]) (plain text read)
    · rfl
  · rfl

theorem expandArguments_of_named {program command word : α}
    (lists : FileLists tree path arguments)
    (named : Word.text? word = some ("@" ++ path.text)) :
    expandArguments tree [program, command, word] =
      if arguments = [] then .error (.noArguments path)
      else .ok ([program, command] ++ arguments.map Word.ofText) := by
  rw [expandArguments, argumentsPath?_of_named named]
  simp only [if_neg lists.path_filled, readArguments_eq_ok_iff.mpr lists, bind, Except.bind,
    List.isEmpty_iff]
  split <;> rfl

/-- What is read from a file are the arguments that it lists, and any arguments can be listed. They
stand in the place of the word that names the file, of which there must be some; words of any other
shape are left as they are. -/
theorem arguments_files_are_transparent (tree : FileTree) (path : Path) (program command word : α)
    (words : List α) :
    (∀ arguments, readArguments tree path = .ok arguments ↔ FileLists tree path arguments) ∧
    (∀ arguments, FileLists tree path arguments →
      (∀ argument ∈ arguments, IsArgument argument) ∧
      (Word.text? word = some ("@" ++ path.text) →
        expandArguments tree [program, command, word] =
          if arguments = [] then .error (.noArguments path)
          else .ok ([program, command] ++ arguments.map Word.ofText))) ∧
    (∀ arguments : List String, (∀ argument ∈ arguments, IsArgument argument) →
      ∃ text : String, Lists text.toList arguments) ∧
    (words.length ≠ 3 ∨ (∀ word ∈ words[2]?, ∀ text, Word.text? word = some text →
        text.toList.head? ≠ some '@') →
      expandArguments tree words = .ok words) := by
  refine ⟨fun arguments => readArguments_eq_ok_iff, ?_, fun arguments => exists_lists, ?_⟩
  · intro arguments lists
    refine ⟨?_, expandArguments_of_named lists⟩
    obtain ⟨text, -, listed⟩ := lists
    exact listed.isArgument
  · intro other
    rw [expandArguments, argumentsPath?_of_other other]

/-- A file with blank lines, white space at the ends of lines and a carriage return in a word. -/
def argumentsFile : FileTree where
  workingDirectory := []
  nodes := [(["a.params"],
    .file (textBytes "\t--output\r\n\n \u00a0\nout put\r@x \r\n--verbose"))]

theorem arguments_files_are_transparent_around_carriage_returns :
    argumentsFile.contentOf ⟨"a.params"⟩ =
        .ok (textBytes "\t--output\r\n\n \u00a0\nout put\r@x \r\n--verbose") ∧
      Word.text? (textBytes "@a.params") = some "@a.params" ∧
      expandArguments argumentsFile [[0xff], textBytes "resolve", textBytes "@a.params"] =
        .ok ([[0xff], textBytes "resolve"] ++
          ["--output", "out put\r@x", "--verbose"].map textBytes) := by
  have found : argumentsFile.contentOf ⟨"a.params"⟩ =
      .ok (textBytes "\t--output\r\n\n \u00a0\nout put\r@x \r\n--verbose") := by decide +kernel
  have named : Word.text? (textBytes "@a.params") = some "@a.params" := by decide +kernel
  have listed := argumentsOfText_eq_iff.mp
    (show argumentsOfText "\t--output\r\n\n \u00a0\nout put\r@x \r\n--verbose" =
      ["--output", "out put\r@x", "--verbose"] by decide +kernel)
  obtain ⟨-, transparent, -⟩ := arguments_files_are_transparent argumentsFile ⟨"a.params"⟩
    [0xff] (textBytes "resolve") (textBytes "@a.params") []
  exact ⟨found, named, (transparent _ ⟨_, found, listed⟩).2 named⟩

end Expansion

end CommandLine

end ConfigHeader
