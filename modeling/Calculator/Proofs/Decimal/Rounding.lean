/-
  The number nearest to a decimal depends on the value of the decimal alone, however digits and
  exponent share it (`toBinary64_eq`). An exponent that is brought nearer leaves the decimal beyond
  the largest finite number, or closer to zero than to the smallest.
-/
import Calculator.Decimal.Basic
import Calculator.Proofs.Binary64.Order

namespace Calculator.Decimal

open Binary64

theorem toRat_nonneg (d : Decimal) : 0 ≤ d.toRat :=
  mul_nonneg (Nat.cast_nonneg _) (by positivity)

theorem toRat_of_digits_eq_zero {d : Decimal} (h : d.digits = 0) : d.toRat = 0 := by
  simp [toRat, h]

theorem ofMagnitude_of_large {q : Rat} (h : (10 : Rat) ^ (400 : Int) ≤ q) :
    ofMagnitude false q = infinity false := by
  unfold ofMagnitude
  rw [dif_neg (Nat.not_lt.2 (placeCount_le_nearestPlace h))]

theorem ofMagnitude_of_small {q : Rat} (h : q ≤ (10 : Rat) ^ (-400 : Int)) :
    ofMagnitude false q = zero false :=
  ofMagnitude_eq_finite_iff.2 ⟨rfl, nearestPlace_eq_zero h⟩

/-- Digits before the point are worth at least one. -/
theorem le_toRat {d : Decimal} {n : Int} (hd : d.digits ≠ 0) (hn : n ≤ d.exponent) :
    (10 : Rat) ^ n ≤ d.toRat := by
  have hdigits : (1 : ℚ) ≤ d.digits := by exact_mod_cast Nat.one_le_iff_ne_zero.2 hd
  calc (10 : Rat) ^ n ≤ (10 : Rat) ^ d.exponent := zpow_le_zpow_right₀ (by norm_num) hn
    _ ≤ d.toRat := le_mul_of_one_le_left (by positivity) hdigits

/-- A number has no more decimal digits than binary ones. -/
theorem toRat_le {d : Decimal} {n : Int} (hn : d.digits.log2 + 1 + d.exponent ≤ n) :
    d.toRat ≤ (10 : Rat) ^ n := by
  have hdigits : (d.digits : ℚ) ≤ (10 : Rat) ^ ((d.digits.log2 + 1 : ℕ) : Int) := by
    rw [zpow_natCast]
    have hlt : d.digits < 2 ^ (d.digits.log2 + 1) := Nat.lt_log2_self
    have hpow : 2 ^ (d.digits.log2 + 1) ≤ 10 ^ (d.digits.log2 + 1) :=
      Nat.pow_le_pow_left (by decide) _
    exact_mod_cast le_trans hlt.le hpow
  calc d.toRat ≤ (10 : Rat) ^ ((d.digits.log2 + 1 : ℕ) : Int) * (10 : Rat) ^ d.exponent :=
        mul_le_mul_of_nonneg_right hdigits (by positivity)
    _ = (10 : Rat) ^ (((d.digits.log2 + 1 : ℕ) : Int) + d.exponent) :=
        (zpow_add₀ (by norm_num) _ _).symm
    _ ≤ (10 : Rat) ^ n := zpow_le_zpow_right₀ (by norm_num) (by push_cast; exact hn)

theorem toBinary64_eq (d : Decimal) : d.toBinary64 = ofMagnitude false d.toRat := by
  by_cases hd : d.digits = 0
  · rw [toBinary64, toRat_of_digits_eq_zero hd]
    exact congrArg (ofMagnitude false) (toRat_of_digits_eq_zero hd)
  · unfold toBinary64 nearExponent
    simp only
    split_ifs with hlarge hsmall
    · rw [ofMagnitude_of_large (le_toRat hd hlarge.le)]
      exact ofMagnitude_of_large (le_toRat hd (le_refl _))
    · rw [ofMagnitude_of_small (toRat_le (d := d) (by omega))]
      exact ofMagnitude_of_small (toRat_le (by simp only; omega))
    · rfl

theorem toBinary64_ne_nan (d : Decimal) : d.toBinary64 ≠ nan := by
  unfold toBinary64 ofMagnitude
  split_ifs <;> simp

theorem toBinary64_congr {d e : Decimal} (h : d.toRat = e.toRat) : d.toBinary64 = e.toBinary64 := by
  rw [toBinary64_eq, toBinary64_eq, h]

theorem toBinary64_eq_finite_iff {d : Decimal} {s : Bool} {p : Place} :
    d.toBinary64 = finite s p ↔ s = false ∧ nearestPlace d.toRat = p := by
  rw [toBinary64_eq, ofMagnitude_eq_finite_iff, eq_comm]

end Calculator.Decimal
