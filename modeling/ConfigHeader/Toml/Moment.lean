/-! Dates and times of day in the notation of TOML. A moment is a day, a time of day, or both
together, with or without the distance of the clock from universal time. It is read in any of its
spellings and written in one: `T` stands between day and time, and a fraction of a second has at
most nine digits and no zeros at its end. -/
namespace ConfigHeader.Toml

structure Date where
  year : Nat
  month : Nat
  day : Nat
deriving DecidableEq, Repr

structure TimeOfDay where
  hour : Nat
  minute : Nat
  /-- The second, which is the sixtieth where a leap second is put in. -/
  second : Nat
  /-- The part of a second that has passed, in billionths. -/
  nanosecond : Nat
deriving DecidableEq, Repr

inductive ClockOffset where
  | universal
  /-- It is ahead by a number of minutes, or behind if the number is negative. -/
  | ahead (minutes : Int)
deriving DecidableEq, Repr

inductive Moment where
  | date (day : Date)
  | time (clock : TimeOfDay)
  | dateTime (day : Date) (clock : TimeOfDay) (offset : Option ClockOffset)
deriving DecidableEq, Repr

def daysInMonth (year month : Nat) : Nat :=
  if month = 2 then if year % 4 = 0 ∧ (year % 100 ≠ 0 ∨ year % 400 = 0) then 29 else 28
  else if month ∈ [4, 6, 9, 11] then 30
  else 31

/-! The written form. -/

def padded (width number : Nat) : List Char :=
  let digits := Nat.toDigits 10 number
  List.replicate (width - digits.length) '0' ++ digits

def Date.written (date : Date) : List Char :=
  padded 4 date.year ++ '-' :: padded 2 date.month ++ '-' :: padded 2 date.day

/-- The written form of a part of a second, which is nothing if no part has passed. -/
def writtenFraction (nanosecond : Nat) : List Char :=
  match ((padded 9 nanosecond).reverse.dropWhile (· == '0')).reverse with
  | [] => []
  | digits => '.' :: digits

def TimeOfDay.written (time : TimeOfDay) : List Char :=
  padded 2 time.hour ++ ':' :: padded 2 time.minute ++ ':' :: padded 2 time.second ++
    writtenFraction time.nanosecond

def ClockOffset.written : ClockOffset → List Char
  | universal => ['Z']
  | ahead minutes =>
    (if minutes < 0 then '-' else '+') :: padded 2 (minutes.natAbs / 60) ++
      ':' :: padded 2 (minutes.natAbs % 60)

def Moment.written : Moment → List Char
  | date day => day.written
  | time clock => clock.written
  | dateTime day clock offset =>
    day.written ++ 'T' :: clock.written ++ (offset.map ClockOffset.written).getD []

def Moment.text (moment : Moment) : String :=
  String.ofList moment.written

/-! Reading. -/

/-- The number that the first `width` characters give, all of which are digits. -/
def readNumber? (width : Nat) (input : List Char) : Option (Nat × List Char) :=
  let digits := input.take width
  if digits.length = width ∧ digits.all Char.isDigit then
    some (Nat.ofDigitChars 10 digits 0, input.drop width)
  else none

def readPart? (mark : Char) : List Char → Option (Nat × List Char)
  | char :: rest => if char = mark then readNumber? 2 rest else none
  | [] => none

def Date.read? (input : List Char) : Option (Date × List Char) := do
  let (year, rest) ← readNumber? 4 input
  let (month, rest) ← readPart? '-' rest
  let (day, rest) ← readPart? '-' rest
  if 1 ≤ month ∧ month ≤ 12 ∧ 1 ≤ day ∧ day ≤ daysInMonth year month then
    return ({ year, month, day }, rest)
  else none

/-- The part of a second that a point and digits at the front of an input give, in billionths. It
is cut off behind nine digits, and it is zero where there is no point with digits. -/
def readFraction (input : List Char) : Nat × List Char :=
  match input with
  | '.' :: rest =>
    match rest.takeWhile Char.isDigit with
    | [] => (0, input)
    | digits =>
      (Nat.ofDigitChars 10 ((digits ++ List.replicate 9 '0').take 9) 0,
        rest.dropWhile Char.isDigit)
  | _ => (0, input)

def TimeOfDay.read? (input : List Char) : Option (TimeOfDay × List Char) := do
  let (hour, rest) ← readNumber? 2 input
  let (minute, rest) ← readPart? ':' rest
  let (second, rest) ← readPart? ':' rest
  let (nanosecond, rest) := readFraction rest
  if hour < 24 ∧ minute < 60 ∧ second ≤ 60 then
    return ({ hour, minute, second, nanosecond }, rest)
  else none

def readMinutes? (input : List Char) : Option (Nat × List Char) := do
  let (hour, rest) ← readNumber? 2 input
  let (minute, rest) ← readPart? ':' rest
  if hour < 24 ∧ minute < 60 then return (hour * 60 + minute, rest) else none

def ClockOffset.read? : List Char → Option (ClockOffset × List Char)
  | 'Z' :: rest => some (.universal, rest)
  | 'z' :: rest => some (.universal, rest)
  | '+' :: rest => (readMinutes? rest).map fun (minutes, rest) => (.ahead minutes, rest)
  | '-' :: rest => (readMinutes? rest).map fun (minutes, rest) => (.ahead (-minutes), rest)
  | _ => none

def readTimeOfDate? : List Char → Option (TimeOfDay × List Char)
  | mark :: rest => if mark ∈ ['T', 't', ' '] then TimeOfDay.read? rest else none
  | [] => none

/-- The moment at the front of an input, as long as it can be. -/
def Moment.read? (input : List Char) : Option (Moment × List Char) :=
  match Date.read? input with
  | none => (TimeOfDay.read? input).map fun (clock, rest) => (.time clock, rest)
  | some (day, rest) =>
    match readTimeOfDate? rest with
    | none => some (.date day, rest)
    | some (clock, rest) =>
      match ClockOffset.read? rest with
      | none => some (.dateTime day clock none, rest)
      | some (offset, rest) => some (.dateTime day clock (some offset), rest)

end ConfigHeader.Toml
