/-
  How numbers are written. A number whose magnitude is in the middle range is written in positions,
  and another one with an exponent, of 21 or more or of -7 or less; a minus is put in front of the
  negative ones alone. The decimal that is written reads back as the number, no decimal with fewer
  significant digits does, and none with as many is nearer (`print_notation`).
-/
import Calculator.Proofs.Decimal.Minimal
import Calculator.Proofs.Decimal.Notation

namespace Calculator

open RegularExpression Pattern

/-- A decimal reads as the number nearest to its value. -/
theorem Decimal.isNearest_iff {d : Decimal} {x : Binary64} :
    Binary64.IsNearest d.toRat x ↔ d.toBinary64 = x := by
  rw [Binary64.isNearest_iff d.toRat_nonneg, toBinary64_eq, eq_comm]

namespace Binary64

/-- The number without its sign. -/
def abs : Binary64 → Binary64
  | nan => nan
  | infinity _ => infinity false
  | finite _ place => finite false place

/-! ## The sign -/

theorem signed_mem {p : Pattern} {text : List Char} (negative : Bool) (h : text ∈ p.matches') :
    print.signed negative text ∈ (optional (char '-') * p).matches' := by
  cases negative with
  | false => exact mem_mul.2 ⟨[], .inl rfl, text, h, rfl⟩
  | true => exact mem_mul.2 ⟨['-'], .inr rfl, text, h, rfl⟩

section Print

variable {negative : Bool} {place : Place} (hplace : place.val ≠ 0)
include hplace

theorem print_finite : (finite negative place).print =
    print.signed negative (Decimal.shortest place).print := by
  rw [print, if_neg hplace]

theorem toRat_finite_neg_iff : (finite negative place).toRat < 0 ↔ negative = true := by
  have hpos := magnitude_pos hplace
  cases negative with
  | false => simpa [toRat] using hpos.le
  | true => simpa [toRat] using hpos

/-- Behind the sign, there is the text of the shortest decimal. -/
theorem readSign_print : Decimal.readSign (finite negative place).print =
    (negative, (Decimal.shortest place).print) := by
  rw [print_finite hplace]
  cases negative with
  | true => rfl
  | false =>
    obtain ⟨c, cs, htext, hc⟩ := Decimal.exists_cons_print (Decimal.digits_shortest_ne_zero hplace)
    obtain ⟨hminus, hplus⟩ := Decimal.ne_sign_of_isDigit hc
    rw [print.signed, if_neg (by decide), htext, Decimal.readSign_cons hminus hplus]

theorem head?_print_iff : (finite negative place).print.head? = some '-' ↔ negative = true := by
  rw [print_finite hplace]
  cases negative with
  | true => simp [print.signed]
  | false =>
    obtain ⟨c, cs, htext, hc⟩ := Decimal.exists_cons_print (Decimal.digits_shortest_ne_zero hplace)
    simpa [print.signed, htext] using (Decimal.ne_sign_of_isDigit hc).1

/-! ## The digits -/

/-- The decimal that is written is a shortest and nearest one of those that read back. -/
theorem exists_read?_print : ∃ d : Decimal,
    Decimal.read? (Decimal.readSign (finite negative place).print).2 = some (d, []) ∧
      IsNearest d.toRat (finite false place) ∧
      ∀ other : Decimal, IsNearest other.toRat (finite false place) →
        d.significand.length ≤ other.significand.length ∧
          (other.significand.length = d.significand.length →
            |d.toRat - magnitude place| ≤ |other.toRat - magnitude place|) := by
  have hd := Decimal.digits_shortest_ne_zero hplace
  have hend : ∀ c ∈ ([] : List Char).head?, Decimal.continuesNumber c = false := by simp
  obtain ⟨d, hread, hvalue⟩ := Decimal.read?_print hd hend
  rw [List.append_nil] at hread
  refine ⟨d, by rw [readSign_print hplace, hread], ?_, fun other hother => ?_⟩
  · rw [Decimal.isNearest_iff, Decimal.toBinary64_congr hvalue, Decimal.toBinary64_shortest]
  · rw [hvalue, Decimal.length_significand_congr hd hvalue]
    exact Decimal.shortest_minimal hplace (Decimal.isNearest_iff.1 hother)

/-! ## The notation -/

theorem print_mem_positional (h : leastPositional.toRat ≤ magnitude place ∧
    magnitude place < leastScientific.toRat) :
    (finite negative place).print ∈ (optional (char '-') * positional).matches' := by
  rw [print_finite hplace]
  exact signed_mem negative (Decimal.print_mem_positional (Decimal.digits_shortest_ne_zero hplace)
    ((isPositional_shortest_iff hplace).2 h))

theorem exists_print_scientific (h : ¬ (leastPositional.toRat ≤ magnitude place ∧
    magnitude place < leastScientific.toRat)) :
    ∃ m ∈ (optional (char '-') * normalized).matches', ∃ e ∈ writtenExponent.matches',
      (finite negative place).print = m ++ e ∧
        ∃ exponent, Decimal.readExponent e = (exponent, []) ∧ (21 ≤ exponent ∨ exponent ≤ -7) := by
  have hnot : Decimal.isPositional (Decimal.shortest place).leadingExponent = false := by
    rw [← isPositional_shortest_iff hplace] at h
    exact Bool.not_eq_true _ ▸ h
  obtain ⟨m, hm, e, he, htext, hread⟩ :=
    Decimal.exists_print_scientific (Decimal.digits_shortest_ne_zero hplace) hnot
  refine ⟨_, signed_mem negative hm, e, he, ?_, _, hread, ?_⟩
  · rw [print_finite hplace, htext]
    cases negative <;> rfl
  · generalize (Decimal.shortest place).leadingExponent = exponent at hnot
    simp only [Decimal.isPositional, Bool.and_eq_false_iff, decide_eq_false_iff_not] at hnot
    omega

end Print

/-- The notation of a finite number other than zero, its sign, and its digits. -/
theorem print_notation {x : Binary64} (hx : x.isFinite = true) (hzero : x.toRat ≠ 0) :
    (leastPositional.toRat ≤ |x.toRat| ∧ |x.toRat| < leastScientific.toRat →
      x.print ∈ (optional (char '-') * positional).matches' ∧ 'e' ∉ x.print) ∧
    (¬ (leastPositional.toRat ≤ |x.toRat| ∧ |x.toRat| < leastScientific.toRat) →
      ∃ m ∈ (optional (char '-') * normalized).matches', ∃ e ∈ writtenExponent.matches',
        x.print = m ++ e ∧
          ∃ exponent, Decimal.readExponent e = (exponent, []) ∧
            (21 ≤ exponent ∨ exponent ≤ -7)) ∧
    (x.print.head? = some '-' ↔ x.toRat < 0) ∧
    (x.toRat < 0 → x.print = '-' :: (-x).print) ∧
    (0 < x.toRat → (-x).print = '-' :: x.print) ∧
    ∃ d : Decimal, Decimal.read? (Decimal.readSign x.print).2 = some (d, []) ∧
      IsNearest d.toRat x.abs ∧
      ∀ other : Decimal, IsNearest other.toRat x.abs →
        d.significand.length ≤ other.significand.length ∧
          (other.significand.length = d.significand.length →
            |d.toRat - x.abs.toRat| ≤ |other.toRat - x.abs.toRat|) := by
  cases x with
  | nan => cases hx
  | infinity negative => cases hx
  | finite negative place =>
    have hplace : place.val ≠ 0 := by
      intro h
      rw [finite_eq_zero h, toRat_zero] at hzero
      exact hzero rfl
    refine ⟨fun hrange => ⟨?_, ?_⟩, fun hrange => ?_, ?_, print_of_neg, fun hpos => ?_,
      exists_read?_print hplace⟩
    · rw [abs_toRat] at hrange
      exact print_mem_positional hplace hrange
    · rw [mem_e_print_iff, not_or, not_le]
      exact ⟨hrange.2, fun hsmall => absurd hrange.1 (not_le.2 hsmall.2)⟩
    · rw [abs_toRat] at hrange
      exact exists_print_scientific hplace hrange
    · rw [head?_print_iff hplace, toRat_finite_neg_iff hplace]
    · have hopposite : (-finite negative place).toRat < 0 := by
        rw [toRat_neg]
        exact neg_lt_zero.2 hpos
      rw [print_of_neg hopposite, neg_neg]

/-- From `3e-324` to `7e-324` all decimals with one digit read back as the smallest magnitude, and
`5e-324` is the nearest of them. -/
theorem print_notation_smallest :
    (finite true ⟨1, by decide⟩).print = "-5e-324".toList ∧
      ((⟨3, -324⟩ : Decimal).toBinary64 = finite false ⟨1, by decide⟩ ∧
        (⟨7, -324⟩ : Decimal).toBinary64 = finite false ⟨1, by decide⟩) ∧
      ∀ other : Decimal, IsNearest other.toRat (finite false ⟨1, by decide⟩) →
        1 ≤ other.significand.length ∧ (other.significand.length = 1 →
          |Decimal.toRat ⟨5, -324⟩ - magnitude 1| ≤ |other.toRat - magnitude 1|) := by
  have hnegative : (finite true ⟨1, by decide⟩).toRat ≠ 0 := by decide +kernel
  have hread : Decimal.read? (Decimal.readSign (finite true ⟨1, by decide⟩).print).2 =
      some (⟨5, -324⟩, []) := by decide +kernel
  obtain ⟨-, -, -, -, -, d, hd, -, hminimal⟩ := print_notation rfl hnegative
  obtain rfl : ⟨5, -324⟩ = d := congrArg Prod.fst (Option.some.inj (hread.symm.trans hd))
  exact ⟨by decide +kernel, by decide +kernel, hminimal⟩

end Binary64

end Calculator
