/-
  Rounding a rational number to binary64: to the nearest, a tie to the neighbour whose place is
  even, and beyond the largest finite number to infinity.
-/
import Calculator.Binary64.Basic

namespace Calculator

/-- The natural number nearest to `q ≥ 0`; a half goes to the even neighbour. -/
def roundHalfEven (q : Rat) : Nat :=
  let below := q.floor.toNat
  let excess := q - below
  if excess < 1 / 2 then below
  else if 1 / 2 < excess then below + 1
  else if below % 2 = 0 then below
  else below + 1

@[simp] theorem roundHalfEven_natCast (n : Nat) : roundHalfEven n = n := by
  have h : (n : Rat).floor = n := Rat.floor_intCast n
  simp only [roundHalfEven, h, Int.toNat_natCast, Rat.sub_self]
  rw [if_pos (by decide +kernel)]

namespace Binary64

/-- The place nearest to `q ≥ 0`, were there no largest one. With `2 ^ shift` units between the
neighbours of `q`, its quotient by that spacing is rounded to an integer, and `shift` whole
binades of places are put before it. A carry into the next binade needs no care of its own. -/
def nearestPlace (q : Rat) : Nat :=
  let inUnits := q / unit
  let shift := inUnits.floor.toNat.log2 - 52
  shift * binade + roundHalfEven (inUnits / (2 : Rat) ^ shift)

/-- Rounds the magnitude `q ≥ 0` and gives it a sign. -/
def ofMagnitude (negative : Bool) (q : Rat) : Binary64 :=
  if h : nearestPlace q < placeCount then finite negative ⟨nearestPlace q, h⟩
  else infinity negative

/-- Rounds a rational number; zero becomes the positive one. -/
def ofRat (q : Rat) : Binary64 :=
  if q < 0 then ofMagnitude true (-q) else ofMagnitude false q

end Binary64

end Calculator
