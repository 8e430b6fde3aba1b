/-
  The shortest decimal of a binary64 number: of all decimals that read back as it, one with the
  fewest digits, and of these the nearest.
-/
import Calculator.Decimal.Basic

namespace Calculator

namespace Binary64

/-- The exponent of the leading decimal digit of a positive magnitude: the greatest `k` with
`10 ^ k` not above it. The smallest magnitude exceeds `10 ^ -324`, so that many more places make
the digits of the integer part tell. -/
def leadingExponent (place : Nat) : Int :=
  (Nat.toDigits 10 (magnitude place * (10 : Rat) ^ (324 : Nat)).floor.toNat).length - 325

end Binary64

namespace Decimal

/-- The multiple of `10 ^ exponent` next to `q ≥ 0` that reads back as the finite number at `place`:
of the neighbour below and the neighbour above the nearer one, or the upper one if both are as
near, unless only the other reads back. -/
def onGrid? (place : Binary64.Place) (exponent : Int) : Option Decimal :=
  let scaled := Binary64.magnitude place / (10 : Rat) ^ exponent
  let below : Decimal := ⟨scaled.floor.toNat, exponent⟩
  let above : Decimal := ⟨scaled.floor.toNat + 1, exponent⟩
  let nearestFirst := if scaled - below.digits < 1 / 2 then [below, above] else [above, below]
  nearestFirst.find? fun d => d.toBinary64 = .finite false place

/-- The first decimal that reads back, on ever finer grids. -/
def searchGrids (place : Binary64.Place) : Nat → Int → Decimal
  | 0, exponent => ⟨(Binary64.magnitude place / (10 : Rat) ^ exponent).floor.toNat, exponent⟩
  | steps + 1, exponent =>
    (onGrid? place exponent).getD (searchGrids place steps (exponent - 1))

/-- The shortest decimal of a positive magnitude. The grid of `10 ^ -1074` holds every magnitude,
so the search ends there at the latest. -/
def shortest (place : Binary64.Place) : Decimal :=
  let leading := Binary64.leadingExponent place
  searchGrids place (leading + 1074).toNat leading

end Decimal

end Calculator
