/-
  The text of a decimal. In positions as well as with an exponent it is read back as a decimal of
  the same value, and nothing of what follows is taken for a part of it (`read?_print`).
-/
import Mathlib.Algebra.Order.Field.Power
import Mathlib.Algebra.Order.Field.Rat
import Mathlib.Tactic.IntervalCases
import Mathlib.Tactic.NormNum
import Mathlib.Tactic.Positivity
import Mathlib.Tactic.Ring
import Calculator.Decimal.Printer
import Calculator.Proofs.Decimal.Reader

namespace Calculator.Decimal

/-! ## The digits of a number -/

theorem toDigits_bounds {n : Nat} (hn : n ≠ 0) :
    10 ^ ((Nat.toDigits 10 n).length - 1) ≤ n ∧ n < 10 ^ (Nat.toDigits 10 n).length := by
  have hlength : 0 < (Nat.toDigits 10 n).length := Nat.length_toDigits_pos
  refine ⟨?_, (Nat.length_toDigits_le_iff (by decide) hlength).1 (le_refl _)⟩
  by_contra hlt
  rcases Nat.eq_zero_or_pos ((Nat.toDigits 10 n).length - 1) with hone | hmore
  · rw [hone] at hlt
    omega
  · have := (Nat.length_toDigits_le_iff (by decide) hmore).2 (not_le.1 hlt)
    omega

theorem head?_toDigits {n : Nat} (hn : n ≠ 0) : ∀ c ∈ (Nat.toDigits 10 n).head?, c ≠ '0' := by
  induction n using Nat.strong_induction_on with
  | _ n ih =>
    intro c hc
    rw [Nat.toDigits_eq_if (by decide)] at hc
    split_ifs at hc with hlt
    · obtain rfl : n.digitChar = c := Option.some.inj hc
      interval_cases n <;> simp_all
    · rw [List.head?_append_of_ne_nil _ Nat.toDigits_ne_nil] at hc
      exact ih (n / 10) (by omega) (by omega) c hc

/-! ## Significant digits -/

theorem exists_toDigits_eq (d : Decimal) :
    ∃ zeros, Nat.toDigits 10 d.digits = d.significand ++ List.replicate zeros '0' := by
  let reversed := (Nat.toDigits 10 d.digits).reverse
  refine ⟨(reversed.takeWhile (· = '0')).length, ?_⟩
  have hzeros : reversed.takeWhile (· = '0') =
      List.replicate (reversed.takeWhile (· = '0')).length '0' := by
    refine List.eq_replicate_of_mem fun c hc => ?_
    simpa using List.all_eq_true.1 List.all_takeWhile c hc
  rw [← List.reverse_replicate, ← hzeros, significand, ← List.reverse_append,
    List.takeWhile_append_dropWhile, List.reverse_reverse]

theorem isDigit_of_mem_significand {d : Decimal} {c : Char} (h : c ∈ d.significand) :
    c.isDigit = true := by
  obtain ⟨zeros, heq⟩ := exists_toDigits_eq d
  refine Nat.isDigit_of_mem_toDigits (by decide) (le_refl 10) (n := d.digits) ?_
  rw [heq]
  exact List.mem_append_left _ h

theorem significand_ne_nil {d : Decimal} (hd : d.digits ≠ 0) : d.significand ≠ [] := by
  intro hnil
  obtain ⟨zeros, heq⟩ := exists_toDigits_eq d
  have hvalue := Nat.ofDigitChars_ten_toDigits (n := d.digits)
  rw [heq, hnil, List.nil_append, Nat.ofDigitChars_replicate_zero, Nat.mul_zero] at hvalue
  exact hd hvalue.symm

/-- The first digit is not zero, as for any number. -/
theorem head?_significand {d : Decimal} (hd : d.digits ≠ 0) :
    ∀ c ∈ d.significand.head?, c ≠ '0' := by
  obtain ⟨zeros, heq⟩ := exists_toDigits_eq d
  have hhead := head?_toDigits hd
  rwa [heq, List.head?_append_of_ne_nil _ (significand_ne_nil hd)] at hhead

/-- The last digit is not zero, as zeros at the end are left out. -/
theorem getLast?_significand (d : Decimal) : ∀ c ∈ d.significand.getLast?, c ≠ '0' := by
  intro c hc
  rw [significand, List.getLast?_reverse] at hc
  have hhead := List.head?_dropWhile_not (fun c : Char => decide (c = '0'))
    (Nat.toDigits 10 d.digits).reverse
  rw [Option.mem_def.1 hc] at hhead
  simpa using hhead

theorem digits_eq_significand (d : Decimal) : ∃ zeros : Nat,
    d.digits = 10 ^ zeros * Nat.ofDigitChars 10 d.significand 0 ∧
      (Nat.toDigits 10 d.digits).length = d.significand.length + zeros := by
  obtain ⟨zeros, heq⟩ := exists_toDigits_eq d
  refine ⟨zeros, ?_, ?_⟩
  · rw [← Nat.ofDigitChars_replicate_zero, ← Nat.ofDigitChars_append, ← heq,
      Nat.ofDigitChars_ten_toDigits]
  · rw [heq, List.length_append, List.length_replicate]

theorem toRat_eq_significand (d : Decimal) :
    d.toRat = (Nat.ofDigitChars 10 d.significand 0 : ℚ) *
      (10 : Rat) ^ (d.leadingExponent + 1 - d.significand.length) := by
  obtain ⟨zeros, hdigits, hlength⟩ := digits_eq_significand d
  have hexponent : d.leadingExponent + 1 - d.significand.length = zeros + d.exponent := by
    rw [leadingExponent, hlength]
    omega
  rw [hexponent, zpow_add₀ (by norm_num), zpow_natCast, toRat, hdigits]
  push_cast
  ring

/-! ## Notations -/

theorem ofDigitChars_replicate_append (zeros : Nat) (ds : List Char) :
    Nat.ofDigitChars 10 (List.replicate zeros '0' ++ ds) 0 = Nat.ofDigitChars 10 ds 0 := by
  rw [Nat.ofDigitChars_append, Nat.ofDigitChars_replicate_zero, Nat.mul_zero]

theorem isDigit_of_mem_replicate {zeros : Nat} {c : Char} (h : c ∈ List.replicate zeros '0') :
    c.isDigit = true := by
  rw [List.eq_of_mem_replicate h]
  rfl

section Notations

variable {ds : List Char} (exponent : Int) (hne : ds ≠ []) (hds : ∀ c ∈ ds, c.isDigit = true)
include hne hds

/-- Zeros are put between the point and the digits, or after them, or the point among them. -/
theorem exists_mantissa_positional : ∃ m : Mantissa, positional ds exponent = m.text ∧
    m.toDecimal.toRat = (Nat.ofDigitChars 10 ds 0 : ℚ) * (10 : Rat) ^ (exponent + 1 - ds.length) := by
  unfold positional
  simp only
  split_ifs with hneg hshort
  · let zeros := List.replicate (-exponent - 1).toNat '0'
    refine ⟨⟨['0'], zeros ++ ds, by simp, by simp, ?_⟩, ?_, ?_⟩
    · intro c hc
      exact (List.mem_append.1 hc).elim isDigit_of_mem_replicate (hds c)
    · simp [Mantissa.text, zeros, hne]
    · have hdigits : Nat.ofDigitChars 10 (['0'] ++ (zeros ++ ds)) 0 = Nat.ofDigitChars 10 ds 0 := by
        rw [← List.append_assoc]
        exact ofDigitChars_replicate_append ((-exponent - 1).toNat + 1) ds
      have hplaces : -((zeros ++ ds).length : Int) = exponent + 1 - ds.length := by
        simp only [zeros, List.length_append, List.length_replicate]
        omega
      rw [Mantissa.toDecimal, hdigits, hplaces, toRat]
  · let zeros := List.replicate (exponent.toNat + 1 - ds.length) '0'
    refine ⟨⟨ds ++ zeros, [], by simp [hne], ?_, by simp⟩, ?_, ?_⟩
    · intro c hc
      exact (List.mem_append.1 hc).elim (hds c) isDigit_of_mem_replicate
    · simp [Mantissa.text, zeros]
    · have hdigits : Nat.ofDigitChars 10 (ds ++ zeros ++ []) 0 =
          10 ^ (exponent.toNat + 1 - ds.length) * Nat.ofDigitChars 10 ds 0 := by
        rw [List.append_nil, Nat.ofDigitChars_append, Nat.ofDigitChars_replicate_zero]
      have hplaces : exponent + 1 - ds.length = (exponent.toNat + 1 - ds.length : ℕ) := by omega
      rw [Mantissa.toDecimal, hdigits, hplaces, toRat, zpow_natCast]
      simp [mul_comm]
  · refine ⟨⟨ds.take (exponent.toNat + 1), ds.drop (exponent.toNat + 1), by simp [hne],
      fun c hc => hds c (List.mem_of_mem_take hc), fun c hc => hds c (List.mem_of_mem_drop hc)⟩,
      ?_, ?_⟩
    · simp [Mantissa.text, hshort]
    · have hplaces : -((ds.drop (exponent.toNat + 1)).length : Int) = exponent + 1 - ds.length := by
        rw [List.length_drop]
        omega
      rw [Mantissa.toDecimal, List.take_append_drop, hplaces, toRat]

/-- The point is put after the first digit. -/
theorem exists_mantissa_scientific : ∃ m : Mantissa,
    scientific ds exponent = m.text ++
      ('e' :: (if exponent < 0 then '-' else '+') :: Nat.toDigits 10 exponent.natAbs) ∧
    m.toDecimal = ⟨Nat.ofDigitChars 10 ds 0, 1 - ds.length⟩ := by
  match ds, hne with
  | [first], _ =>
    refine ⟨⟨[first], [], by simp, hds, by simp⟩, ?_, ?_⟩
    · simp [scientific, Mantissa.text]
    · simp [Mantissa.toDecimal]
  | first :: second :: others, _ =>
    obtain ⟨hfirst, hothers⟩ := List.forall_mem_cons.1 hds
    refine ⟨⟨[first], second :: others, by simp, by simpa using hfirst, hothers⟩, ?_, ?_⟩
    · simp [scientific, Mantissa.text]
    · simp [Mantissa.toDecimal]

end Notations

theorem readExponent_print (exponent : Int) {rest : List Char}
    (hrest : ∀ c ∈ rest.head?, c.isDigit = false) :
    readExponent ('e' :: (if exponent < 0 then '-' else '+') ::
      (Nat.toDigits 10 exponent.natAbs ++ rest)) = (exponent, rest) := by
  have hdigits : ∀ c ∈ Nat.toDigits 10 exponent.natAbs, c.isDigit = true := fun c =>
    Nat.isDigit_of_mem_toDigits (by decide) (le_refl 10)
  have hread := readExponent_append (exponent < 0) Nat.toDigits_ne_nil hdigits hrest
  simp only [decide_eq_true_eq, Nat.ofDigitChars_ten_toDigits] at hread
  rw [hread]
  congr 1
  split_ifs
  · omega
  · omega

/-! ## The text of a decimal -/

section Print

variable {d : Decimal} (hd : d.digits ≠ 0)
include hd

theorem exists_mantissa_of_isPositional (h : isPositional d.leadingExponent = true) :
    ∃ m : Mantissa, d.print = m.text ∧ m.toDecimal.toRat = d.toRat := by
  obtain ⟨m, htext, hvalue⟩ := exists_mantissa_positional d.leadingExponent
    (significand_ne_nil hd) fun c => isDigit_of_mem_significand
  exact ⟨m, by rw [print, if_pos h, htext], by rw [hvalue, ← toRat_eq_significand]⟩

theorem exists_mantissa_of_not_isPositional (h : isPositional d.leadingExponent = false) :
    ∃ m : Mantissa,
      d.print = m.text ++ ('e' :: (if d.leadingExponent < 0 then '-' else '+') ::
        Nat.toDigits 10 d.leadingExponent.natAbs) ∧
      toRat ⟨m.toDecimal.digits, m.toDecimal.exponent + d.leadingExponent⟩ = d.toRat := by
  obtain ⟨m, htext, hvalue⟩ := exists_mantissa_scientific d.leadingExponent
    (significand_ne_nil hd) fun c => isDigit_of_mem_significand
  refine ⟨m, by rw [print, h, if_neg (by decide), htext], ?_⟩
  rw [hvalue, toRat_eq_significand d, toRat]
  congr 2
  simp only
  omega

/-- The text of a decimal starts with a digit. -/
theorem exists_cons_print : ∃ c cs, d.print = c :: cs ∧ c.isDigit = true := by
  cases h : isPositional d.leadingExponent with
  | true =>
    obtain ⟨m, htext, -⟩ := exists_mantissa_of_isPositional hd h
    rw [htext]
    exact m.exists_cons_text
  | false =>
    obtain ⟨m, htext, -⟩ := exists_mantissa_of_not_isPositional hd h
    obtain ⟨c, cs, hm, hc⟩ := m.exists_cons_text
    exact ⟨c, _, by rw [htext, hm, List.cons_append], hc⟩

/-- The text of a decimal is read to its end. -/
theorem read?_print {rest : List Char} (hrest : ∀ c ∈ rest.head?, continuesNumber c = false) :
    ∃ e : Decimal, read? (d.print ++ rest) = some (e, rest) ∧ e.toRat = d.toRat := by
  cases h : isPositional d.leadingExponent with
  | true =>
    obtain ⟨m, htext, hvalue⟩ := exists_mantissa_of_isPositional hd h
    exact ⟨m.toDecimal, by rw [htext, read?_text m hrest], hvalue⟩
  | false =>
    obtain ⟨m, htext, hvalue⟩ := exists_mantissa_of_not_isPositional hd h
    have hexponent := readExponent_print d.leadingExponent fun c hc =>
      (continuesNumber_eq_false_iff.1 (hrest c hc)).1
    refine ⟨_, ?_, hvalue⟩
    rw [htext, List.append_assoc, List.cons_append, List.cons_append,
      read?_text_append m (by simp) hexponent]

/-- An exponent is a sign of its own notation. -/
theorem mem_e_print_iff : 'e' ∈ d.print ↔ isPositional d.leadingExponent = false := by
  cases h : isPositional d.leadingExponent with
  | true =>
    obtain ⟨m, htext, -⟩ := exists_mantissa_of_isPositional hd h
    refine iff_of_false ?_ (by simp)
    intro he
    rw [htext] at he
    rcases m.mem_text he with he | he
    · exact absurd he (by decide)
    · exact absurd he (by decide)
  | false =>
    obtain ⟨m, htext, -⟩ := exists_mantissa_of_not_isPositional hd h
    simp [htext]

/-! ## The choice of notation -/

theorem le_leadingExponent_iff {n : Int} : n ≤ d.leadingExponent ↔ (10 : Rat) ^ n ≤ d.toRat := by
  have hlength : 0 < (Nat.toDigits 10 d.digits).length := Nat.length_toDigits_pos
  obtain ⟨hlower, hupper⟩ := toDigits_bounds hd
  unfold leadingExponent
  generalize (Nat.toDigits 10 d.digits).length = length at *
  constructor
  · intro h
    calc (10 : Rat) ^ n ≤ (10 : Rat) ^ (((length - 1 : ℕ) : Int) + d.exponent) :=
          zpow_le_zpow_right₀ (by norm_num) (by omega)
      _ = ((10 ^ (length - 1) : ℕ) : ℚ) * (10 : Rat) ^ d.exponent := by
          rw [zpow_add₀ (by norm_num), zpow_natCast]
          push_cast
          rfl
      _ ≤ d.toRat := mul_le_mul_of_nonneg_right (by exact_mod_cast hlower) (by positivity)
  · intro h
    by_contra hlt
    have hbelow : d.toRat < (10 : Rat) ^ n := by
      calc d.toRat < ((10 ^ length : ℕ) : ℚ) * (10 : Rat) ^ d.exponent :=
            mul_lt_mul_of_pos_right (by exact_mod_cast hupper) (by positivity)
        _ = (10 : Rat) ^ ((length : Int) + d.exponent) := by
            rw [zpow_add₀ (by norm_num), zpow_natCast]
            push_cast
            rfl
        _ ≤ (10 : Rat) ^ n := zpow_le_zpow_right₀ (by norm_num) (by omega)
    exact absurd h (not_le.2 hbelow)

end Print

end Calculator.Decimal
