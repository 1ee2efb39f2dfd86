import ConfigHeader.FileTree.Exchange

namespace ConfigHeader.CommandLine

/-- What the words of a command line are. A word that the system hands over need not be a text. -/
class Word (α : Type) where
  text? : α → Option String
  ofText : String → α

instance : Word String where
  text? := some
  ofText := id

instance : Word Bytes where
  text? word := (Utf8.decodeText word).toOption
  ofText := textBytes

/-- The arguments in a text: its lines without the white space around them, but for blank ones. -/
def argumentsOfText (text : String) : List String :=
  ((text.toList.splitOn '\n').map Space.trim).filterMap fun line =>
    if line.isEmpty then none else some (String.ofList line)

def readArguments (tree : FileTree) (path : Path) : Except Misuse (List String) := do
  let content ← (tree.contentOf path).mapError (Misuse.unreadableArguments path)
  match Utf8.decodeText content with
  | .ok text => .ok (argumentsOfText text)
  | .error _ => .error (.unreadableArguments path .notText)

variable {α : Type} [Word α]

/-- The path that stands for all arguments of a command, if it is its only one. -/
def argumentsPath? : List α → Option Path
  | [_, _, argument] =>
    match (Word.text? argument).map String.toList with
    | some ('@' :: path) => some ⟨String.ofList path⟩
    | _ => none
  | _ => none

/-- The words of a command line with the arguments from a file in the place of its path. -/
def expandArguments (tree : FileTree) (words : List α) : Except Misuse (List α) :=
  match argumentsPath? words with
  | none => .ok words
  | some path =>
    if path.text = "" then .error .noArgumentsPath
    else do
      let arguments ← readArguments tree path
      if arguments.isEmpty then .error (.noArguments path)
      else return words.take 2 ++ arguments.map Word.ofText

end ConfigHeader.CommandLine
