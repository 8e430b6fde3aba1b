/-
  The text of a number: in positions or with an exponent. The notation is chosen by the shortest
  decimal, and that is a choice by the number itself: the first magnitudes that are written in
  positions, and with a positive exponent, are the ones nearest to `10 ^ -6` and `10 ^ 21`
  (`mem_e_print_iff`). A text without sign and exponent is that of a mantissa
  (`exists_mantissa_print`), and a sign is written in front of such a text (`print_of_neg`).
-/
import Calculator.Proofs.Decimal.Printer
import Calculator.Proofs.Decimal.Shortest

namespace Calculator.Binary64

/-- The first number that is written in positions. -/
def leastPositional : Binary64 := (⟨1, -6⟩ : Decimal).toBinary64

/-- The first number that is written with a positive exponent. -/
def leastScientific : Binary64 := (⟨1, 21⟩ : Decimal).toBinary64

/-- The place of the one and the shortest decimal there. -/
theorem toRat_leastPositional : ∃ p : Place, leastPositional.toRat = magnitude p ∧
    (Decimal.shortest p).toRat = (10 : Rat) ^ (-6 : Int) :=
  ⟨⟨0x3EB0C6F7A0B5ED8D, by decide⟩, by decide +kernel, by decide +kernel⟩

theorem toRat_leastScientific : ∃ p : Place, leastScientific.toRat = magnitude p ∧
    (Decimal.shortest p).toRat = (10 : Rat) ^ (21 : Int) :=
  ⟨⟨0x444B1AE4D6E2EF50, by decide⟩, by decide +kernel, by decide +kernel⟩

theorem leastPositional_pos : 0 < leastPositional.toRat := by decide +kernel

theorem leastScientific_pos : 0 < leastScientific.toRat := by decide +kernel

theorem magnitude_pos {place : Nat} (h : place ≠ 0) : 0 < magnitude place := by
  rw [← magnitude_zero, ← not_le, magnitude_le_iff]
  omega

theorem isPositional_shortest_iff {place : Place} (h : place.val ≠ 0) :
    Decimal.isPositional (Decimal.shortest place).leadingExponent = true ↔
      leastPositional.toRat ≤ magnitude place ∧ magnitude place < leastScientific.toRat := by
  have hd := Decimal.digits_shortest_ne_zero h
  obtain ⟨first, hfirst, hfirstText⟩ := toRat_leastPositional
  obtain ⟨last, hlast, hlastText⟩ := toRat_leastScientific
  rw [Decimal.isPositional, Bool.and_eq_true, decide_eq_true_eq, decide_eq_true_eq,
    ← Int.not_le, Decimal.le_leadingExponent_iff hd, Decimal.le_leadingExponent_iff hd,
    ← hfirstText, ← hlastText, Decimal.toRat_shortest_le_iff, Decimal.toRat_shortest_le_iff,
    hfirst, hlast, ← not_le, magnitude_le_iff, magnitude_le_iff]
  rfl

/-! ## Positions -/

theorem exists_place_of_pos {x : Binary64} (h : 0 < x.toRat) :
    ∃ place : Place, place.val ≠ 0 ∧ x = finite false place := by
  cases x with
  | nan => exact absurd h (lt_irrefl 0)
  | infinity negative => exact absurd h (lt_irrefl 0)
  | finite negative place =>
    have hplace : place.val ≠ 0 := by
      intro hzero
      rw [finite_eq_zero hzero, toRat_zero] at h
      exact lt_irrefl 0 h
    cases negative with
    | false => exact ⟨place, hplace, rfl⟩
    | true => exact absurd h (neg_lt_zero.2 (magnitude_pos hplace)).not_gt

/-- A number that is printed without sign and exponent. -/
def IsPlain (x : Binary64) : Prop :=
  x = zero false ∨ leastPositional.toRat ≤ x.toRat ∧ x.toRat < leastScientific.toRat

theorem exists_mantissa_print {x : Binary64} (h : IsPlain x) :
    ∃ m : Decimal.Mantissa, x.print = m.text ∧ m.toDecimal.toBinary64 = x := by
  rcases h with rfl | ⟨hlower, hupper⟩
  · exact ⟨⟨['0'], [], by simp, by simp, by simp⟩, rfl, by decide +kernel⟩
  · obtain ⟨place, hplace, rfl⟩ :=
      exists_place_of_pos (lt_of_lt_of_le leastPositional_pos hlower)
    obtain ⟨m, htext, hvalue⟩ := Decimal.exists_mantissa_of_isPositional
      (Decimal.digits_shortest_ne_zero hplace)
      ((isPositional_shortest_iff hplace).2 ⟨hlower, hupper⟩)
    refine ⟨m, ?_, ?_⟩
    · rw [print, if_neg hplace, htext]
      rfl
    · rw [Decimal.toBinary64_congr hvalue, Decimal.toBinary64_shortest]

theorem print_of_neg {x : Binary64} (h : x.toRat < 0) : x.print = '-' :: (-x).print := by
  have hpos : 0 < (-x).toRat := by
    rw [toRat_neg]
    exact neg_pos.2 h
  obtain ⟨place, hplace, heq⟩ := exists_place_of_pos hpos
  obtain rfl : x = finite true place := by rw [← neg_neg x, heq, neg_finite, Bool.not_false]
  rw [heq, print, print, if_neg hplace, if_neg hplace]
  simp [print.signed]

/-! ## Exponents -/

theorem abs_toRat (negative : Bool) (place : Place) :
    |(finite negative place).toRat| = magnitude place := by
  cases negative with
  | false => exact abs_of_nonneg (magnitude_nonneg place)
  | true => exact (abs_neg _).trans (abs_of_nonneg (magnitude_nonneg place))

theorem mem_e_print_iff {x : Binary64} :
    'e' ∈ x.print ↔ leastScientific.toRat ≤ |x.toRat| ∨
      0 < |x.toRat| ∧ |x.toRat| < leastPositional.toRat := by
  have hzero : ∀ y : Binary64, y.toRat = 0 → 'e' ∉ y.print → ('e' ∈ y.print ↔
      leastScientific.toRat ≤ |y.toRat| ∨ 0 < |y.toRat| ∧ |y.toRat| < leastPositional.toRat) := by
    intro y hy hnot
    rw [hy, abs_zero]
    exact iff_of_false hnot (by simp [leastScientific_pos])
  cases x with
  | nan => exact hzero nan rfl (by decide)
  | infinity negative => exact hzero (infinity negative) rfl (by cases negative <;> decide)
  | finite negative place =>
    by_cases hplace : place.val = 0
    · rw [finite_eq_zero hplace]
      exact hzero (zero negative) (toRat_zero negative) (by cases negative <;> decide)
    · have hd := Decimal.digits_shortest_ne_zero hplace
      have hmem : 'e' ∈ (finite negative place).print ↔ 'e' ∈ (Decimal.shortest place).print := by
        rw [print, if_neg hplace]
        cases negative <;> simp [print.signed]
      rw [hmem, Decimal.mem_e_print_iff hd, ← Bool.not_eq_true, isPositional_shortest_iff hplace,
        abs_toRat, not_and_or, not_le, not_lt, or_comm]
      simp [magnitude_pos hplace]

/-! ## All texts of finite numbers -/

theorem eq_zero_of_toRat {x : Binary64} (hx : x.isFinite = true) (h : x.toRat = 0) :
    ∃ negative, x = zero negative := by
  cases x with
  | finite negative place =>
    refine ⟨negative, finite_eq_zero ?_⟩
    by_contra hplace
    have hpos := magnitude_pos hplace
    cases negative with
    | false => exact hpos.ne' h
    | true => exact hpos.ne' (neg_eq_zero.1 h)
  | _ => cases hx

/-- Without an exponent, the text of a finite number is that of a plain one, after its sign. -/
theorem isPlain_of_not_mem_e {x : Binary64} (hx : x.isFinite = true) (he : 'e' ∉ x.print) :
    x = zero true ∨ x.IsPlain ∨ x.toRat < 0 ∧ (-x).IsPlain := by
  rw [mem_e_print_iff, not_or, not_le, not_and, not_lt] at he
  obtain ⟨hupper, hlower⟩ := he
  rcases lt_trichotomy x.toRat 0 with hneg | hzero | hpos
  · rw [abs_of_neg hneg, ← toRat_neg] at hupper hlower
    refine .inr (.inr ⟨hneg, .inr ⟨hlower ?_, hupper⟩⟩)
    rw [toRat_neg]
    exact neg_pos.2 hneg
  · obtain ⟨negative, rfl⟩ := eq_zero_of_toRat hx hzero
    cases negative with
    | false => exact .inr (.inl (.inl rfl))
    | true => exact .inl rfl
  · rw [abs_of_pos hpos] at hupper hlower
    exact .inr (.inl (.inr ⟨hlower hpos, hupper⟩))

end Calculator.Binary64
