import ConfigHeader.Json.Basic

/-! The literals of JSON texts: white space, numerals and quoted texts. Each reader takes the
longest literal at the front of its input and gives back the rest. -/
namespace ConfigHeader.Json

def isSpace (char : Char) : Bool :=
  char == ' ' || char == '\t' || char == '\n' || char == '\r'

def skipSpace (input : List Char) : List Char :=
  input.dropWhile isSpace

/-- The digits behind a mark, which must not be missing where the mark stands. -/
def readDigits? (input : List Char) : Option (List Char × List Char) :=
  match input.takeWhile Char.isDigit with
  | [] => none
  | digits => some (digits, input.dropWhile Char.isDigit)

def readFraction? : List Char → Option (Option (List Char) × List Char)
  | '.' :: rest => (readDigits? rest).map fun (digits, rest) => (some digits, rest)
  | input => some (none, input)

def readExponent? : List Char → Option (Option Int × List Char)
  | mark :: rest =>
    if mark = 'e' ∨ mark = 'E' then
      let (sign, unsigned) : Int × List Char :=
        match rest with
        | '-' :: unsigned => (-1, unsigned)
        | '+' :: unsigned => (1, unsigned)
        | unsigned => (1, unsigned)
      (readDigits? unsigned).map fun (digits, rest) =>
        (some (sign * Nat.ofDigitChars 10 digits 0), rest)
    else some (none, mark :: rest)
  | [] => some (none, [])

/-- The number with a sign, digits before and behind the point, and an exponent. Only a numeral
with neither point nor exponent is an integer, and `-0` is not one. -/
def Number.ofNumeral? (negative : Bool) (whole : List Char) (fraction : Option (List Char))
    (exponent : Option Int) : Option Number :=
  let digits := Nat.ofDigitChars 10 (whole ++ fraction.getD []) 0
  let rounded := (Binary64.ofDecimal? negative
    ⟨digits, exponent.getD 0 - (fraction.getD []).length⟩).map Number.binary
  if fraction = none ∧ exponent = none ∧ ¬(negative = true ∧ digits = 0) then
    let value : Int := if negative then -digits else digits
    if bounded : -Int.pow 2 63 ≤ value ∧ value < Int.pow 2 64 then some (.integer value bounded) else rounded
  else rounded

/-- The numeral at the front of an input. A first digit `0` stands alone before the point, and the
number must be finite. -/
def readNumber? (input : List Char) : Option (Number × List Char) := do
  let (negative, unsigned) := match input with
    | '-' :: unsigned => (true, unsigned)
    | unsigned => (false, unsigned)
  let (whole, rest) ← readDigits? unsigned
  if whole.head? = some '0' ∧ whole ≠ ['0'] then none
  let (fraction, rest) ← readFraction? rest
  let (exponent, rest) ← readExponent? rest
  let number ← Number.ofNumeral? negative whole fraction exponent
  return (number, rest)

def Number.numeral : Number → List Char
  | .integer value _ => (if value < 0 then ['-'] else []) ++ Nat.toDigits 10 value.natAbs
  | .binary value => value.numeral

def unescape? : Char → Option Char
  | '"' => some '"'
  | '\\' => some '\\'
  | '/' => some '/'
  | 'b' => some '\x08'
  | 'f' => some '\x0c'
  | 'n' => some '\n'
  | 'r' => some '\r'
  | 't' => some '\t'
  | _ => none

def hexDigit? (char : Char) : Option Nat :=
  if char.isDigit then some (char.toNat - '0'.toNat)
  else if 'a' ≤ char ∧ char ≤ 'f' then some (char.toNat - 'a'.toNat + 10)
  else if 'A' ≤ char ∧ char ≤ 'F' then some (char.toNat - 'A'.toNat + 10)
  else none

def hexUnit? (a b c d : Char) : Option Nat := do
  return (((← hexDigit? a) * 16 + (← hexDigit? b)) * 16 + (← hexDigit? c)) * 16 + (← hexDigit? d)

/-- A unit that stands for a character of its own. -/
def isPlainUnit (unit : Nat) : Bool :=
  unit < 0xd800 || 0xe000 ≤ unit

def surrogatePair? (high low : Nat) : Option Char :=
  if 0xd800 ≤ high ∧ high < 0xdc00 ∧ 0xdc00 ≤ low ∧ low < 0xe000 then
    some (Char.ofNat (0x10000 + (high - 0xd800) * 0x400 + (low - 0xdc00)))
  else none

/-- The text up to the closing quote, which the input must hold. Control characters must be
escaped, and surrogates must come in pairs. -/
def readText? : List Char → Option (List Char × List Char)
  | [] => none
  | '"' :: rest => some ([], rest)
  | '\\' :: 'u' :: a :: b :: c :: d :: rest =>
    match hexUnit? a b c d with
    | none => none
    | some unit =>
      if isPlainUnit unit then
        (readText? rest).map fun (text, rest) => (Char.ofNat unit :: text, rest)
      else
        match rest with
        | '\\' :: 'u' :: e :: f :: g :: h :: rest =>
          match (hexUnit? e f g h).bind (surrogatePair? unit) with
          | some char => (readText? rest).map fun (text, rest) => (char :: text, rest)
          | none => none
        | _ => none
  | '\\' :: letter :: rest =>
    match unescape? letter with
    | some char => (readText? rest).map fun (text, rest) => (char :: text, rest)
    | none => none
  | char :: rest =>
    if char = '\\' ∨ char < ' ' then none
    else (readText? rest).map fun (text, rest) => (char :: text, rest)

/-- A character as it stands between quotes. -/
def escapeChar (char : Char) : List Char :=
  if char = '"' then ['\\', '"']
  else if char = '\\' then ['\\', '\\']
  else if char = '\x08' then ['\\', 'b']
  else if char = '\x0c' then ['\\', 'f']
  else if char = '\n' then ['\\', 'n']
  else if char = '\r' then ['\\', 'r']
  else if char = '\t' then ['\\', 't']
  else if char < ' ' then
    ['\\', 'u', '0', '0', Nat.digitChar (char.toNat / 16), Nat.digitChar (char.toNat % 16)]
  else [char]

def quote (text : String) : List Char :=
  '"' :: (text.toList.flatMap escapeChar ++ ['"'])

end ConfigHeader.Json
