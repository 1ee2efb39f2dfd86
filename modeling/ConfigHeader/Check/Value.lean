import ConfigHeader.Check.Basic
import ConfigHeader.Json.Reader
import ConfigHeader.Json.Writer

/-! The text that a stored value stands for. A value that is JSON text is decoded; any other text
stands for itself. -/
namespace ConfigHeader.Check

def defineText (stored : String) : String :=
  if stored = "" then ""
  else
    match Json.ofText? stored with
    | some (.number value) => String.ofList value.numeral
    | some (.bool value) => if value then "true" else "false"
    | some (.string text) => text
    | some .null => ""
    | some other => other.compactText
    | none => stored

def substText (stored : String) : String :=
  if stored = "" then ""
  else
    match Json.ofText? stored with
    | some (.string text) => text
    | some .null => ""
    | some other => other.compactText
    | none => stored

/-- Whether a check succeeded with a value that is neither empty nor zero. -/
def enables (check : Check) : Bool :=
  let text := substText check.storedValue
  check.success && text != "" && text != "0"

/-- Whether a text is a run of digits that may begin with a sign and hold one point, which is
neither the first nor the last character. -/
def isNumeral (text : String) : Bool :=
  scan true false false text.toList
where
  /-- Whether the rest of the text may follow, given whether it is the whole text, and whether a
  point and a digit stand before it. -/
  scan (whole pointSeen digitSeen : Bool) : List Char → Bool
    | [] => digitSeen
    | char :: rest =>
      if char.isDigit then scan false pointSeen true rest
      else if char = '.' then
        !pointSeen && !whole && !rest.isEmpty && scan false true digitSeen rest
      else if char = '+' ∨ char = '-' then whole && scan false pointSeen digitSeen rest
      else false

end ConfigHeader.Check
