import ConfigHeader.Json.Literal

namespace ConfigHeader.Json

/-- The greatest number of arrays and objects inside one another. -/
def nestingLimit : Nat := 127

/-- The input behind a word that stands at its front. -/
def afterWord? : List Char → List Char → Option (List Char)
  | [], input => some input
  | _ :: _, [] => none
  | letter :: word, char :: input => if letter = char then afterWord? word input else none

def readScalar? : List Char → Option (Json × List Char)
  | 'n' :: rest => (afterWord? "ull".toList rest).map fun rest => (.null, rest)
  | 't' :: rest => (afterWord? "rue".toList rest).map fun rest => (.bool true, rest)
  | 'f' :: rest => (afterWord? "alse".toList rest).map fun rest => (.bool false, rest)
  | '"' :: rest => (readText? rest).map fun (text, rest) => (.string (String.ofList text), rest)
  | input => (readNumber? input).map fun (value, rest) => (.number value, rest)

/-- Items with commas between them, up to the closing character. The number of items is at most
`room`, for which the length of the input is always enough. -/
def readItems? {α : Type} (item : List Char → Option (α × List Char)) (close : Char) :
    (room : Nat) → List Char → Option (List α × List Char)
  | 0, _ => none
  | room + 1, input =>
    match item input with
    | none => none
    | some (first, rest) =>
      match skipSpace rest with
      | [] => none
      | mark :: rest =>
        if mark = close then some ([first], rest)
        else if mark = ',' then
          (readItems? item close room rest).map fun (later, rest) => (first :: later, rest)
        else none

def readSequence? {α : Type} (item : List Char → Option (α × List Char)) (close : Char)
    (input : List Char) : Option (List α × List Char) :=
  match skipSpace input with
  | [] => none
  | mark :: rest =>
    if mark = close then some ([], rest) else readItems? item close (rest.length + 1) (mark :: rest)

def readField? (value : List Char → Option (Json × List Char)) (input : List Char) :
    Option ((String × Json) × List Char) :=
  match skipSpace input with
  | '"' :: rest =>
    match readText? rest with
    | none => none
    | some (key, rest) =>
      match skipSpace rest with
      | ':' :: rest => (value rest).map fun (value, rest) => ((String.ofList key, value), rest)
      | _ => none
  | _ => none

/-- The value at the front of an input, with at most `depth` arrays and objects inside one
another. -/
def readValue? : (depth : Nat) → List Char → Option (Json × List Char)
  | 0, input => readScalar? (skipSpace input)
  | depth + 1, input =>
    match skipSpace input with
    | '[' :: rest =>
      (readSequence? (readValue? depth) ']' rest).map fun (items, rest) => (.array items, rest)
    | '\x7b' :: rest =>
      (readSequence? (readField? (readValue? depth)) '\x7d' rest).map fun (fields, rest) =>
        (ofFields fields, rest)
    | input => readScalar? input

def ofText? (text : String) : Option Json :=
  match readValue? nestingLimit text.toList with
  | some (value, rest) => if skipSpace rest = [] then some value else none
  | none => none

end ConfigHeader.Json
