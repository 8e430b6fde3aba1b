/-
  Numbers that need no rounding: the magnitude of every place rounds to that place
  (`nearestPlace_magnitude`), so a finite number is what its sign and magnitude round to
  (`ofMagnitude_magnitude`).
-/
import Mathlib
import Calculator.Binary64.Rounding

namespace Calculator.Binary64

theorem unit_pos : 0 < unit := by
  unfold unit; positivity

theorem magnitude_nonneg (place : Nat) : 0 ≤ magnitude place :=
  mul_nonneg (Nat.cast_nonneg _) unit_pos.le

/-- A place is a number of whole binades and a number of spacings, of 53 binary digits; from the
second binade on, the leading digit is not zero. -/
theorem spacings_bounds (p : Nat) : p - (p / binade - 1) * binade < 2 ^ 53 ∧
    (p / binade - 1 ≠ 0 → 2 ^ 52 ≤ p - (p / binade - 1) * binade) := by
  simp only [binade]; omega

theorem log2_units (p : Nat) : (units p).log2 - 52 = p / binade - 1 := by
  obtain ⟨hlt, hle⟩ := spacings_bounds p
  unfold units
  simp only
  generalize p / binade - 1 = s at *
  generalize p - s * binade = n at *
  rw [Nat.shiftLeft_eq]
  by_cases hs : s = 0
  · subst hs
    rcases Nat.eq_zero_or_pos n with rfl | hn
    · simp
    · have : n.log2 < 53 := (Nat.log2_lt (by omega)).2 hlt
      simp; omega
  · have h52 := hle hs
    have hne : n * 2 ^ s ≠ 0 := by positivity
    have : (n * 2 ^ s).log2 = 52 + s := by
      rw [Nat.log2_eq_iff hne]
      constructor
      · rw [pow_add]; exact Nat.mul_le_mul_right _ h52
      · rw [show 52 + s + 1 = 53 + s by omega, pow_add]
        exact Nat.mul_lt_mul_of_pos_right hlt (by positivity)
    omega

@[simp] theorem nearestPlace_magnitude (p : Nat) : nearestPlace (magnitude p) = p := by
  have hu : magnitude p / unit = (units p : ℚ) := by
    unfold magnitude; field_simp [unit_pos.ne']
  have hfloor : ((units p : ℚ)).floor.toNat = units p := by
    rw [show ((units p : ℕ) : ℚ) = ((units p : ℤ) : ℚ) by simp, Rat.floor_intCast]; simp
  have hquot : (units p : ℚ) / 2 ^ (p / binade - 1) =
      ((p - (p / binade - 1) * binade : ℕ) : ℚ) := by
    unfold units
    simp only
    rw [Nat.shiftLeft_eq]
    push_cast
    field_simp
  unfold nearestPlace
  simp only [hu, hfloor, log2_units]
  rw [hquot, roundHalfEven_natCast]
  simp only [binade]; omega

theorem ofMagnitude_magnitude (s : Bool) (p : Place) : ofMagnitude s (magnitude p) = finite s p := by
  simp [ofMagnitude]

end Calculator.Binary64
