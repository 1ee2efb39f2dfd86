/-! Notices of a run, for people who watch it. They do not change what the run does. What a notice
says cannot steer a terminal: the characters that could are written as escapes. -/
namespace ConfigHeader

inductive Notice.Level where
  | warning
  | info
deriving DecidableEq, Repr

structure Notice where
  level : Notice.Level
  text : String
deriving DecidableEq, Repr

def Notice.Level.name : Notice.Level → String
  | warning => "WARN"
  | info => "INFO"

namespace Notice

/-- The control characters of ASCII that can steer a terminal: bell, backspace, form feed, escape
and delete. -/
def steeringCharacters : List Char :=
  ['\x07', '\x08', '\x0c', '\x1b', '\x7f']

def codeDigits (char : Char) : List Char :=
  [Nat.digitChar (char.toNat / 16), Nat.digitChar (char.toNat % 16)]

/-- A character as a line shows it. Those that can steer a terminal, among them all from U+0080 to
U+009F, are shown as escapes. -/
def shown (char : Char) : List Char :=
  if char ∈ steeringCharacters then '\\' :: 'x' :: codeDigits char
  else if 0x80 ≤ char.toNat ∧ char.toNat ≤ 0x9f then
    '\\' :: 'u' :: '\x7b' :: codeDigits char ++ ['\x7d']
  else [char]

def line (notice : Notice) : String :=
  " " ++ notice.level.name ++ " " ++ String.ofList (notice.text.toList.flatMap shown)

end Notice

end ConfigHeader
