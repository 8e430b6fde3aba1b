/-
  Decimals: a natural number of units of a power of ten, and the binary64 number nearest to one.
-/
import Calculator.Binary64.Rounding

namespace Calculator

/-- The number `digits * 10 ^ exponent`. -/
structure Decimal where
  digits : Nat
  exponent : Int
deriving DecidableEq

namespace Decimal

def toRat (d : Decimal) : Rat := d.digits * (10 : Rat) ^ d.exponent

/-- An exponent that rounds alike and is never far away: a positive multiple of `10 ^ 400` is above
every finite number, and no number of `n` bits is worth anything below `10 ^ -(n + 400)`. -/
def nearExponent (d : Decimal) : Int :=
  let least : Int := -(d.digits.log2 + 401 : Nat)
  if 400 < d.exponent then 400
  else if d.exponent < least then least
  else d.exponent

/-- The nearest binary64 number, a tie going to the even place; infinity beyond the largest. -/
def toBinary64 (d : Decimal) : Binary64 :=
  .ofMagnitude false (toRat { d with exponent := d.nearExponent })

end Decimal

end Calculator
