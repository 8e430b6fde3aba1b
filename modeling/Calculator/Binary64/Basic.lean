/-
  Binary64 numbers. A finite number is a sign and a place: the position of its magnitude in the
  increasing list of all finite magnitudes, zero being at place 0. Exponent and fraction of the
  interchange format, read as one number, are exactly that place, so neighbours differ by one
  and the order of magnitudes is the order of places.

  The value of a finite number is `toRat`. Reading back the bits of a number gives the number
  (`ofBits_toBits`).
-/

namespace Calculator

/-- How many finite magnitudes there are: 2047 exponents with 52 binary digits each. -/
abbrev Binary64.placeCount : Nat := 0x7FF0000000000000

/-- A place in the increasing list of the finite magnitudes. -/
abbrev Binary64.Place : Type := Fin Binary64.placeCount

inductive Binary64 where
  /-- The answer of every undefined operation. -/
  | nan
  | infinity (negative : Bool)
  | finite (negative : Bool) (place : Binary64.Place)
deriving DecidableEq

namespace Binary64

/-! ## Values -/

/-- How many places share one spacing. -/
def binade : Nat := 0x10000000000000

/-- The magnitude at a place, in units of the smallest positive one. The first two binades of
places are spaced by one unit, and the spacing doubles with every binade after them: at spacing
`2 ^ shift`, what the place exceeds `shift` whole binades by counts the spacings. -/
def units (place : Nat) : Nat :=
  let shift := place / binade - 1
  (place - shift * binade) <<< shift

/-- The smallest positive magnitude. -/
def unit : Rat := (2 : Rat) ^ (-1074 : Int)

def magnitude (place : Nat) : Rat := units place * unit

/-- The rational number that a finite number is; `0` for the others. -/
def toRat : Binary64 → Rat
  | finite negative place => if negative then -magnitude place else magnitude place
  | _ => 0

def zero (negative : Bool) : Binary64 := finite negative ⟨0, by decide⟩

def isFinite : Binary64 → Bool
  | finite .. => true
  | _ => false

@[simp] theorem isFinite_nan : nan.isFinite = false := by rfl

@[simp] theorem isFinite_infinity (s : Bool) : (infinity s).isFinite = false := by rfl

@[simp] theorem isFinite_finite (s : Bool) (p : Place) : (finite s p).isFinite = true := by rfl

theorem isFinite_eq_false_iff {x : Binary64} :
    x.isFinite = false ↔ x = nan ∨ ∃ negative, x = infinity negative := by
  cases x <;> simp

@[simp] theorem magnitude_zero : magnitude 0 = 0 := by
  simp [magnitude, units]

theorem finite_eq_zero {negative : Bool} {place : Place} (h : place.val = 0) :
    finite negative place = zero negative :=
  congrArg (finite negative) (Fin.ext h)

@[simp] theorem toRat_zero (negative : Bool) : (zero negative).toRat = 0 := by
  cases negative <;> simp [zero, toRat]

/-! ## Change of sign -/

protected def neg : Binary64 → Binary64
  | nan => nan
  | infinity negative => infinity (!negative)
  | finite negative place => finite (!negative) place

instance : Neg Binary64 := ⟨Binary64.neg⟩

@[simp] theorem neg_nan : -nan = nan := rfl

@[simp] theorem neg_infinity (s : Bool) : -infinity s = infinity (!s) := rfl

@[simp] theorem neg_finite (s : Bool) (p : Place) : -finite s p = finite (!s) p := rfl

@[simp] theorem neg_neg (x : Binary64) : - -x = x := by
  cases x <;> simp

@[simp] theorem toRat_neg (x : Binary64) : (-x).toRat = -x.toRat := by
  cases x with
  | finite s p =>
    cases s with
    | false => rfl
    | true => exact (Rat.neg_neg _).symm
  | _ => rfl

/-! ## The interchange format -/

/-- Reads the 64 bits of the interchange format; every payload of a NaN gives `nan`. -/
def ofBits (bits : UInt64) : Binary64 :=
  let negative := decide (0x8000000000000000 ≤ bits.toNat)
  let place := bits.toNat % 0x8000000000000000
  if h : place < placeCount then finite negative ⟨place, h⟩
  else if place = placeCount then infinity negative
  else nan

/-- The weight of the sign bit. -/
def signWeight (negative : Bool) : Nat := if negative then 0x8000000000000000 else 0

/-- The 64 bits of the interchange format; `nan` gives the quiet NaN without payload. -/
def toBits : Binary64 → UInt64
  | nan => 0x7FF8000000000000
  | infinity negative => .ofNat (signWeight negative + placeCount)
  | finite negative place => .ofNat (signWeight negative + place)

theorem toNat_ofNat_signWeight {s : Bool} {n : Nat} (h : n ≤ placeCount) :
    (UInt64.ofNat (signWeight s + n)).toNat = signWeight s + n := by
  apply UInt64.toNat_ofNat_of_lt'
  cases s <;> simp [signWeight, placeCount, UInt64.size] at * <;> omega

theorem ofBits_toBits (x : Binary64) : ofBits x.toBits = x := by
  cases x with
  | nan => decide
  | infinity s => cases s <;> decide
  | finite s p =>
    have hp := p.isLt
    simp only [ofBits, toBits, toNat_ofNat_signWeight (Nat.le_of_lt hp)]
    have hplace : (signWeight s + p.val) % 0x8000000000000000 = p.val := by
      cases s <;> simp [signWeight, placeCount] at * <;> omega
    have hsign : decide (0x8000000000000000 ≤ signWeight s + p.val) = s := by
      cases s with
      | false => exact decide_eq_false (by simp only [signWeight, placeCount] at *; simp; omega)
      | true => exact decide_eq_true (by simp [signWeight])
    simp only [hplace, hsign, hp, dite_true]

end Binary64

end Calculator
