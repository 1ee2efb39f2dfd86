import ConfigHeader.Toml.Basic

/-! Reading documents in the notation of TOML. The only values are texts, dates and times, arrays
and tables; numbers, truth values and arrays of tables are refused. A line ends with a newline, with
or without a carriage return before it. -/
namespace ConfigHeader.Toml

def isBlank (char : Char) : Bool :=
  char == ' ' || char == '\t'

/-- A character that may stand for itself in texts and comments on one line. -/
def isPrintable (char : Char) : Bool :=
  char == '\t' || (' ' ≤ char && char != '\x7f')

def isBare (char : Char) : Bool :=
  char.isAlphanum || char == '_' || char == '-'

/-- The input with a newline in the place of each carriage return and newline. -/
def unifyLines : List Char → List Char
  | '\r' :: '\n' :: rest => '\n' :: unifyLines rest
  | char :: rest => char :: unifyLines rest
  | [] => []

def skipBlanks (input : List Char) : List Char :=
  input.dropWhile isBlank

def skipComment : List Char → List Char
  | '#' :: rest => rest.dropWhile isPrintable
  | input => input

/-- The rest of a line on which only blanks and a comment may follow. -/
def endLine? (input : List Char) : Option (List Char) :=
  match skipComment (skipBlanks input) with
  | [] => some []
  | '\n' :: rest => some rest
  | _ => none

/-- The input without the blanks, newlines and comments at its front, of which there are at most
`room`. -/
def skipLines : (room : Nat) → List Char → List Char
  | 0, input => input
  | room + 1, input =>
    match skipComment (skipBlanks input) with
    | '\n' :: rest => skipLines room rest
    | rest => rest

def hexValue? (digits : List Char) : Option Nat :=
  digits.foldlM
    (fun value digit =>
      if digit.isDigit then some (value * 16 + (digit.toNat - '0'.toNat))
      else if 'a' ≤ digit ∧ digit ≤ 'f' then some (value * 16 + (digit.toNat - 'a'.toNat + 10))
      else if 'A' ≤ digit ∧ digit ≤ 'F' then some (value * 16 + (digit.toNat - 'A'.toNat + 10))
      else none)
    0

def readCode? (width : Nat) (input : List Char) : Option (Char × List Char) := do
  let digits := input.take width
  if digits.length ≠ width then none
  let code ← hexValue? digits
  if code < 0xd800 ∨ (0xe000 ≤ code ∧ code < 0x110000) then
    return (Char.ofNat code, input.drop width)
  else none

def readEscape? : List Char → Option (Char × List Char)
  | 'b' :: rest => some ('\x08', rest)
  | 't' :: rest => some ('\t', rest)
  | 'n' :: rest => some ('\n', rest)
  | 'f' :: rest => some ('\x0c', rest)
  | 'r' :: rest => some ('\r', rest)
  | '"' :: rest => some ('"', rest)
  | '\\' :: rest => some ('\\', rest)
  | 'u' :: rest => readCode? 4 rest
  | 'U' :: rest => readCode? 8 rest
  | _ => none

/-- The input behind a backslash at the end of a line, the newline and all blanks and newlines
after it. -/
def skipLineEnd? (input : List Char) : Option (List Char) :=
  match skipBlanks input with
  | '\n' :: rest => some (rest.dropWhile fun char => isBlank char || char == '\n')
  | _ => none

inductive Quote where
  | basic
  | literal
deriving DecidableEq

def Quote.char : Quote → Char
  | basic => '"'
  | literal => '\x27'

def readLineText? (quote : Quote) : (room : Nat) → List Char → Option (List Char × List Char)
  | 0, _ => none
  | _, [] => none
  | room + 1, char :: rest =>
    if char = quote.char then some ([], rest)
    else if quote = .basic ∧ char = '\\' then do
      let (escaped, rest) ← readEscape? rest
      let (text, rest) ← readLineText? quote room rest
      return (escaped :: text, rest)
    else if isPrintable char then
      (readLineText? quote room rest).map fun (text, rest) => (char :: text, rest)
    else none

/-- The text over several lines up to three closing quotes, of at most `room` characters. One or
two quotes may stand in the text, also right before its end. -/
def readBlockText? (quote : Quote) : (room : Nat) → List Char → Option (List Char × List Char)
  | 0, _ => none
  | _, [] => none
  | room + 1, char :: rest =>
    if char = quote.char then
      let further := (rest.takeWhile (· == quote.char)).length
      if further = 2 then some ([], rest.drop 2)
      else if further < 5 then
        (readBlockText? quote room rest).map fun (text, rest) => (char :: text, rest)
      else none
    else if quote = .basic ∧ char = '\\' then
      match skipLineEnd? rest with
      | some rest => readBlockText? quote room rest
      | none => do
        let (escaped, rest) ← readEscape? rest
        let (text, rest) ← readBlockText? quote room rest
        return (escaped :: text, rest)
    else if isPrintable char ∨ char = '\n' then
      (readBlockText? quote room rest).map fun (text, rest) => (char :: text, rest)
    else none

/-- The text behind its first quote. Two more quotes make it one over several lines, whose first
newline does not count. -/
def readQuoted? (quote : Quote) (input : List Char) : Option (String × List Char) :=
  let read :=
    match input with
    | first :: second :: rest =>
      if first = quote.char ∧ second = quote.char then
        let body := if rest.head? = some '\n' then rest.tail else rest
        readBlockText? quote (body.length + 1) body
      else readLineText? quote (input.length + 1) input
    | _ => readLineText? quote (input.length + 1) input
  read.map fun (text, rest) => (String.ofList text, rest)

def readKey? : List Char → Option (String × List Char)
  | '"' :: rest =>
    (readLineText? .basic (rest.length + 1) rest).map fun (text, rest) => (String.ofList text, rest)
  | '\x27' :: rest =>
    (readLineText? .literal (rest.length + 1) rest).map fun (text, rest) =>
      (String.ofList text, rest)
  | input =>
    match input.takeWhile isBare with
    | [] => none
    | key => some (String.ofList key, input.dropWhile isBare)

/-- Keys with dots between them, of which there are at most `room`: those before the last one, and
the last one. -/
def readKeys? : (room : Nat) → List Char → Option ((List String × String) × List Char)
  | 0, _ => none
  | room + 1, input => do
    let (key, rest) ← readKey? (skipBlanks input)
    match skipBlanks rest with
    | '.' :: rest =>
      let ((keys, last), rest) ← readKeys? room rest
      return ((key :: keys, last), rest)
    | rest => return (([], key), rest)

def readPair? (value : List Char → Option (Toml × List Char)) (input : List Char) :
    Option ((List String × String × Toml) × List Char) := do
  let ((keys, last), rest) ← readKeys? (input.length + 1) input
  match rest with
  | '=' :: rest =>
    let (value, rest) ← value (skipBlanks rest)
    return ((keys, last, value), rest)
  | _ => none

def readItems? (value : List Char → Option (Toml × List Char)) :
    (room : Nat) → List Char → Option (List Toml × List Char)
  | 0, _ => none
  | room + 1, input =>
    match skipLines input.length input with
    | ']' :: rest => some ([], rest)
    | input => do
      let (item, rest) ← value input
      match skipLines rest.length rest with
      | ',' :: rest =>
        let (items, rest) ← readItems? value room rest
        return (item :: items, rest)
      | ']' :: rest => return ([item], rest)
      | _ => none

def readFields? (value : List Char → Option (Toml × List Char)) :
    (room : Nat) → List (String × Toml) → List Char →
      Option (List (String × Toml) × List Char)
  | 0, _, _ => none
  | room + 1, fields, input => do
    let ((keys, last, value'), rest) ← readPair? value input
    let fields ← insert? value' last keys fields
    match skipBlanks rest with
    | ',' :: rest => readFields? value room fields rest
    | '\x7d' :: rest => return (fields, rest)
    | _ => none

def readValue? : (depth : Nat) → List Char → Option (Toml × List Char)
  | _, '"' :: rest => (readQuoted? .basic rest).map fun (text, rest) => (.string text, rest)
  | _, '\x27' :: rest => (readQuoted? .literal rest).map fun (text, rest) => (.string text, rest)
  | depth + 1, '[' :: rest =>
    (readItems? (readValue? depth) (rest.length + 1) rest).map fun (items, rest) =>
      (.array items, rest)
  | depth + 1, '\x7b' :: rest =>
    match skipBlanks rest with
    | '\x7d' :: rest => some (.table .inline [], rest)
    | _ =>
      (readFields? (readValue? depth) (rest.length + 1) [] rest).map fun (fields, rest) =>
        (.table .inline fields, rest)
  | _, input => (Moment.read? input).map fun (value, rest) => (.moment value, rest)

def nestingLimit : Nat := 80

/-- The lines of a document, at most `room` of them, added to the fields of the lines before. The
keys of the table that was opened last are `opened`. -/
def readLines? : (room : Nat) → (opened : List String) → List (String × Toml) → List Char →
    Option (List (String × Toml))
  | 0, _, _, _ => none
  | room + 1, opened, fields, input =>
    match skipLines input.length input with
    | [] => some fields
    | '[' :: rest => do
      let ((keys, last), rest) ← readKeys? (rest.length + 1) rest
      match rest with
      | ']' :: rest =>
        readLines? room (keys ++ [last]) (← openTable? last keys fields) (← endLine? rest)
      | _ => none
    | input => do
      let ((keys, last, value), rest) ← readPair? (readValue? nestingLimit) input
      readLines? room opened (← modify? (insert? value last keys) opened fields) (← endLine? rest)

def ofText? (text : String) : Option (List (String × Toml)) :=
  let input := unifyLines text.toList
  let body := if input.head? = some '\ufeff' then input.tail else input
  readLines? (body.length + 1) [] [] body

end ConfigHeader.Toml
