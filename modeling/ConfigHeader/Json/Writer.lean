import ConfigHeader.Json.Literal

namespace ConfigHeader.Json

mutual

def write : Json → List Char
  | .null => "null".toList
  | .bool true => "true".toList
  | .bool false => "false".toList
  | .number value => value.numeral
  | .string value => quote value
  | .array [] => ['[', ']']
  | .array (item :: items) => '[' :: (write item ++ writeItems items)
  | .object [] => ['\x7b', '\x7d']
  | .object ((key, value) :: fields) =>
    '\x7b' :: (quote key ++ ':' :: (write value ++ writeFields fields))

/-- Further items of an array and its end. -/
def writeItems : List Json → List Char
  | [] => [']']
  | item :: items => ',' :: (write item ++ writeItems items)

def writeFields : List (String × Json) → List Char
  | [] => ['\x7d']
  | (key, value) :: fields => ',' :: (quote key ++ ':' :: (write value ++ writeFields fields))

end

def compactText (value : Json) : String :=
  String.ofList value.write

def lineBreak (indent : Nat) : List Char :=
  '\n' :: List.replicate indent ' '

mutual

/-- A value with each item and each field on a line of its own, indented by `step` further than
what holds it. -/
def writeIndented (step indent : Nat) : Json → List Char
  | .null => "null".toList
  | .bool true => "true".toList
  | .bool false => "false".toList
  | .number value => value.numeral
  | .string value => quote value
  | .array [] => ['[', ']']
  | .array (item :: items) =>
    '[' :: (lineBreak (indent + step) ++ writeIndented step (indent + step) item ++
      writeIndentedItems step indent items)
  | .object [] => ['\x7b', '\x7d']
  | .object ((key, value) :: fields) =>
    '\x7b' :: (lineBreak (indent + step) ++ quote key ++ ':' :: ' ' ::
      (writeIndented step (indent + step) value ++ writeIndentedFields step indent fields))

def writeIndentedItems (step indent : Nat) : List Json → List Char
  | [] => lineBreak indent ++ [']']
  | item :: items =>
    ',' :: (lineBreak (indent + step) ++ writeIndented step (indent + step) item ++
      writeIndentedItems step indent items)

def writeIndentedFields (step indent : Nat) : List (String × Json) → List Char
  | [] => lineBreak indent ++ ['\x7d']
  | (key, value) :: fields =>
    ',' :: (lineBreak (indent + step) ++ quote key ++ ':' :: ' ' ::
      (writeIndented step (indent + step) value ++ writeIndentedFields step indent fields))

end

def indentedText (step : Nat) (value : Json) : String :=
  String.ofList (value.writeIndented step 0)

end ConfigHeader.Json
