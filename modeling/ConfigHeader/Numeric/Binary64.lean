import ConfigHeader.Numeric.Decimal

/-! Finite binary64 numbers in exact arithmetic. A decimal is read as the nearest number, with ties
to the even significand, and a number is written with the fewest digits that read back to it. -/
namespace ConfigHeader

/-- A finite binary64 number: a sign and the magnitude `significand * 2 ^ exponent`. -/
structure Binary64 where
  negative : Bool
  significand : Nat
  exponent : Int
  /-- The significand has 53 bits, or fewer at the least exponent, so each number has one form. -/
  canonical : significand < Nat.pow 2 53 ∧ -1074 ≤ exponent ∧ exponent ≤ 971 ∧
    (Nat.pow 2 52 ≤ significand ∨ exponent = -1074)
deriving DecidableEq, Repr

namespace Binary64

def zero (negative : Bool) : Binary64 :=
  ⟨negative, 0, -1074, by decide⟩

def ofParts? (negative : Bool) (significand : Nat) (exponent : Int) : Option Binary64 :=
  if canonical : significand < Nat.pow 2 53 ∧ -1074 ≤ exponent ∧ exponent ≤ 971 ∧
      (Nat.pow 2 52 ≤ significand ∨ exponent = -1074) then
    some ⟨negative, significand, exponent, canonical⟩
  else none

/-- The quotient rounded to the nearest natural number, a half to the even one. -/
def roundQuotient (numerator denominator : Nat) : Nat :=
  let quotient := numerator / denominator
  let remainder := numerator % denominator
  if 2 * remainder < denominator then quotient
  else if 2 * remainder = denominator then quotient + quotient % 2
  else quotient + 1

/-- The numerator and the denominator of a ratio divided by `base ^ exponent`. -/
def unscale (base : Nat) (exponent : Int) (numerator denominator : Nat) : Nat × Nat :=
  (numerator * Nat.pow base (-exponent).toNat, denominator * Nat.pow base exponent.toNat)

/-- The number nearest to a positive ratio, if it is finite. -/
def ofRatio? (negative : Bool) (numerator denominator : Nat) : Option Binary64 :=
  let estimate := max (-1074 : Int) (numerator.log2 - denominator.log2 - 53)
  let scaled := unscale 2 estimate numerator denominator
  let exponent := if scaled.1 / scaled.2 < Nat.pow 2 53 then estimate else estimate + 1
  let exact := unscale 2 exponent numerator denominator
  let significand := roundQuotient exact.1 exact.2
  if significand = Nat.pow 2 53 then ofParts? negative (Nat.pow 2 52) (exponent + 1)
  else ofParts? negative significand exponent

/-- The number nearest to a decimal, if it is finite. Readers that multiply rounded powers of ten
come out one unit away on some decimals with many digits or far exponents, such as
100.00000000000001 and 1e-23; this one is exact on all. Magnitudes far beyond the greatest number or
far below the least are told by their exponent alone. -/
def ofDecimal? (negative : Bool) (value : Decimal) : Option Binary64 :=
  if value.digits = 0 then some (zero negative)
  else if 400 < value.exponent then none
  else if value.exponent + (value.digits.log2 / 3 + 1 : Nat) < -400 then some (zero negative)
  else
    let ratio := unscale 10 (-value.exponent) value.digits 1
    ofRatio? negative ratio.1 ratio.2

def exactDecimal (number : Binary64) : Decimal :=
  if number.exponent < 0 then
    ⟨number.significand * Nat.pow 5 number.exponent.natAbs, number.exponent⟩
  else ⟨number.significand * Nat.pow 2 number.exponent.toNat, 0⟩

def ratioTo (number : Binary64) (power : Int) : Nat × Nat :=
  let ratio := unscale 2 (-number.exponent) number.significand 1
  unscale 10 power ratio.1 ratio.2

def isBelow (number : Binary64) (power : Int) : Bool :=
  (number.ratioTo power).1 < (number.ratioTo power).2

/-- The least power of ten above the magnitude. The binary logarithm gives it up to two steps. -/
def powerAbove (number : Binary64) : Int :=
  let estimate := (number.significand.log2 + number.exponent) * 30103 / 100000
  if number.isBelow estimate then estimate
  else if number.isBelow (estimate + 1) then estimate + 1
  else estimate + 2

/-- The neighbours of the magnitude among the multiples of `10 ^ power`, the nearer one first and
of two equally near ones the even one. -/
def neighbours (number : Binary64) (power : Int) : List Decimal :=
  let ratio := number.ratioTo power
  let below := ratio.1 / ratio.2
  let remainder := ratio.1 % ratio.2
  if 2 * remainder < ratio.2 ∨ (2 * remainder = ratio.2 ∧ below % 2 = 0) then
    [⟨below, power⟩, ⟨below + 1, power⟩]
  else [⟨below + 1, power⟩, ⟨below, power⟩]

/-- The decimal with the fewest digits that reads back to the number, the nearest of those. -/
def shortest (number : Binary64) : Decimal :=
  ((List.range 17).findSome? fun (extra : Nat) =>
    (number.neighbours (number.powerAbove - 1 - extra)).find? fun candidate =>
      ofDecimal? number.negative candidate == some number).getD number.exactDecimal

def numeral (number : Binary64) : List Char :=
  (if number.negative then ['-'] else []) ++
    (if number.significand = 0 then "0.0".toList else number.shortest.numeral)

end Binary64

end ConfigHeader
