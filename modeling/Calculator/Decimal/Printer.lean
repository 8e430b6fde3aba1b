/-
  The text of a binary64 number: its shortest decimal, in positions where the leading digit is
  worth at least `10^-6` and less than `10^21`, and with an exponent elsewhere.
-/
import Calculator.Decimal.Shortest

namespace Calculator.Decimal

/-- The significant digits, without zeros at the end. -/
def significand (d : Decimal) : List Char :=
  ((Nat.toDigits 10 d.digits).reverse.dropWhile (· = '0')).reverse

/-- The exponent of the leading digit. -/
def leadingExponent (d : Decimal) : Int :=
  (Nat.toDigits 10 d.digits).length - 1 + d.exponent

/-- Digits `d₀d₁…` as the number `d₀.d₁… * 10 ^ exponent`, all places written out. -/
def positional (digits : List Char) (exponent : Int) : List Char :=
  if exponent < 0 then
    ['0', '.'] ++ List.replicate (-exponent - 1).toNat '0' ++ digits
  else
    let whole := exponent.toNat + 1
    if digits.length ≤ whole then digits ++ List.replicate (whole - digits.length) '0'
    else digits.take whole ++ ['.'] ++ digits.drop whole

/-- The same number as a digit, a point before the others if there are any, and a signed
exponent. -/
def scientific (digits : List Char) (exponent : Int) : List Char :=
  let mantissa := match digits with
    | first :: second :: rest => first :: '.' :: second :: rest
    | short => short
  let sign := if exponent < 0 then '-' else '+'
  mantissa ++ ['e', sign] ++ Nat.toDigits 10 exponent.natAbs

/-- Which leading exponents are written in positions. -/
def isPositional (exponent : Int) : Bool := -6 ≤ exponent && exponent < 21

/-- The text of a positive decimal. -/
def print (d : Decimal) : List Char :=
  if isPositional d.leadingExponent then positional d.significand d.leadingExponent
  else scientific d.significand d.leadingExponent

end Calculator.Decimal

namespace Calculator.Binary64

/-- The text of a number. Both zeros are written without sign. -/
def print : Binary64 → List Char
  | nan => "NaN".toList
  | infinity negative => signed negative "Infinity".toList
  | finite negative place =>
    if place.val = 0 then ['0'] else signed negative (Decimal.shortest place).print
where
  signed (negative : Bool) (text : List Char) : List Char := if negative then '-' :: text else text

end Calculator.Binary64
