/-
  The shortest decimal of a number reads back as it (`toBinary64_shortest`): a decimal found on a
  grid was chosen for that, and the last grid holds every magnitude exactly. Since rounding keeps
  order, the shortest decimals are in the order of their numbers (`toRat_shortest_le_iff`).
-/
import Calculator.Decimal.Shortest
import Calculator.Proofs.Decimal.Rounding

namespace Calculator.Decimal

open Binary64

theorem toBinary64_of_onGrid? {place : Place} {exponent : Int} {d : Decimal}
    (h : onGrid? place exponent = some d) : d.toBinary64 = finite false place := by
  unfold onGrid? at h
  simpa using List.find?_some h

theorem tenth_pow (n : ℕ) : (10 : Rat) ^ (-n : Int) = (2 : Rat) ^ (-n : Int) / 5 ^ n := by
  rw [show (10 : ℚ) = 2 * 5 by norm_num, mul_zpow, zpow_neg 5, zpow_natCast, div_eq_mul_inv]

/-- The smallest magnitude is a power of one half, and so a multiple of that power of a tenth. -/
theorem magnitude_div_tenth (place : Nat) :
    magnitude place / (10 : Rat) ^ (-1074 : Int) = ((units place * 5 ^ 1074 : ℕ) : ℚ) := by
  have hten : (10 : Rat) ^ (-1074 : Int) = unit / 5 ^ 1074 := tenth_pow 1074
  rw [hten, magnitude, div_div_eq_mul_div, mul_right_comm, mul_div_cancel_right₀ _ unit_pos.ne',
    Nat.cast_mul, Nat.cast_pow, Nat.cast_ofNat]

theorem toRat_last (place : Place) :
    toRat ⟨(magnitude place / (10 : Rat) ^ (-1074 : Int)).floor.toNat, -1074⟩ = magnitude place := by
  have hfloor : ((units place * 5 ^ 1074 : ℕ) : ℚ).floor = (units place * 5 ^ 1074 : ℕ) :=
    Rat.floor_intCast _
  rw [toRat, magnitude_div_tenth, hfloor, Int.toNat_natCast, ← magnitude_div_tenth]
  exact div_mul_cancel₀ _ (by positivity)

theorem toBinary64_searchGrids (place : Place) {steps : Nat} {exponent : Int}
    (h : exponent - steps = -1074) :
    (searchGrids place steps exponent).toBinary64 = finite false place := by
  induction steps generalizing exponent with
  | zero =>
    obtain rfl : exponent = -1074 := by omega
    rw [toBinary64_eq_finite_iff, searchGrids, toRat_last]
    exact ⟨rfl, nearestPlace_magnitude place⟩
  | succ steps ih =>
    rw [searchGrids]
    cases hd : onGrid? place exponent with
    | none => exact ih (by omega)
    | some d => exact toBinary64_of_onGrid? hd

/-- The search has enough steps to come to the last grid. -/
theorem leadingExponent_sub_steps (place : Nat) : Binary64.leadingExponent place -
    (Binary64.leadingExponent place + 1074).toNat = -1074 := by
  have hleading : -1074 ≤ Binary64.leadingExponent place := by
    unfold Binary64.leadingExponent
    omega
  omega

@[simp] theorem toBinary64_shortest (place : Place) :
    (shortest place).toBinary64 = finite false place :=
  toBinary64_searchGrids place (leadingExponent_sub_steps place)

theorem nearestPlace_shortest (place : Place) : nearestPlace (shortest place).toRat = place :=
  (toBinary64_eq_finite_iff.1 (toBinary64_shortest place)).2

theorem toRat_shortest_le_iff {p q : Place} :
    (shortest p).toRat ≤ (shortest q).toRat ↔ p ≤ q := by
  constructor
  · intro h
    have hplaces := nearestPlace_mono h
    rwa [nearestPlace_shortest, nearestPlace_shortest] at hplaces
  · intro h
    by_contra hlt
    have hplaces := nearestPlace_mono (not_le.1 hlt).le
    rw [nearestPlace_shortest, nearestPlace_shortest] at hplaces
    obtain rfl : p = q := le_antisymm h hplaces
    exact hlt (le_refl _)

theorem digits_ne_zero_of_reads {d : Decimal} {place : Place}
    (hd : d.toBinary64 = finite false place) (h : place.val ≠ 0) : d.digits ≠ 0 := by
  intro hzero
  have hplace := (toBinary64_eq_finite_iff.1 hd).2
  rw [toRat_of_digits_eq_zero hzero, nearestPlace_eq_zero (by positivity)] at hplace
  exact h hplace.symm

theorem digits_shortest_ne_zero {place : Place} (h : place.val ≠ 0) :
    (shortest place).digits ≠ 0 :=
  digits_ne_zero_of_reads (toBinary64_shortest place) h

end Calculator.Decimal
