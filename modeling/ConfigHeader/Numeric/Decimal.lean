/-! Decimal numerals. A magnitude is written with its digits alone where its size allows, and with
an exponent otherwise; either form holds the digits it was given and no others. -/
namespace ConfigHeader

/-- The magnitude `digits * 10 ^ exponent`. -/
structure Decimal where
  digits : Nat
  exponent : Int
deriving DecidableEq, Repr

namespace Decimal

def significantDigits (value : Decimal) : List Char :=
  ((Nat.toDigits 10 value.digits).reverse.dropWhile (· == '0')).reverse

/-- The power of ten of the first digit. -/
def leadingExponent (value : Decimal) : Int :=
  (Nat.toDigits 10 value.digits).length - 1 + value.exponent

/-- The least and the greatest exponent of the first digit for which no exponent is written. -/
def plainExponents : Int × Int := (-5, 15)

/-- A magnitude without an exponent, with at least one digit on both sides of the point. -/
def plain (value : Decimal) : List Char :=
  let digits := value.significantDigits
  let leading := value.leadingExponent
  if leading < 0 then
    "0.".toList ++ List.replicate (-leading - 1).toNat '0' ++ digits
  else
    let width := leading.toNat + 1
    let fraction := digits.drop width
    (digits.take width ++ List.replicate (width - digits.length) '0') ++
      '.' :: (if fraction.isEmpty then ['0'] else fraction)

/-- A magnitude as one digit, the others behind a point, and a signed exponent. -/
def scientific (value : Decimal) : List Char :=
  let fraction := value.significantDigits.drop 1
  let leading := value.leadingExponent
  value.significantDigits.take 1 ++ (if fraction.isEmpty then [] else '.' :: fraction) ++
    'e' :: (if leading < 0 then '-' else '+') :: Nat.toDigits 10 leading.natAbs

def numeral (value : Decimal) : List Char :=
  if value.digits = 0 then "0.0".toList
  else if plainExponents.1 ≤ value.leadingExponent ∧
      value.leadingExponent ≤ plainExponents.2 then
    value.plain
  else value.scientific

end Decimal

end ConfigHeader
