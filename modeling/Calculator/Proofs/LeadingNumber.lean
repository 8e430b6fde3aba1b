/-
  The number at the head of a line that starts with a printed number is that number
  (`leadingNumber?_print_append`): the printer writes a sign, the word `Infinity`, positions or an
  exponent, and the reader takes back the whole of it and no more. Only the sign of a zero is not
  written, and NaN is not read.
-/
import Calculator.LeadingNumber
import Calculator.Proofs.Decimal.Printer
import Calculator.Proofs.Decimal.Shortest

namespace Calculator

open Binary64

/-! ## Signs -/

/-- A character that stands for neither a blank nor a sign. -/
def IsUnsigned (c : Char) : Prop := isBlank c = false ∧ c ≠ '-' ∧ c ≠ '+'

theorem isUnsigned_of_isDigit {c : Char} (h : c.isDigit = true) : IsUnsigned c :=
  ⟨isBlank_of_isDigit h, Decimal.ne_sign_of_isDigit h⟩

theorem leadingNumber?_signed (negative : Bool) {c : Char} {cs rest : List Char}
    (h : IsUnsigned c) :
    leadingNumber? (print.signed negative (c :: cs) ++ rest) =
      (leadingUnsigned? (c :: cs ++ rest)).map fun x => if negative then -x else x := by
  cases negative with
  | false => simp [leadingNumber?, print.signed, h.1, h.2.1, h.2.2]
  | true =>
    have hminus : isBlank '-' = false := by decide
    simp [leadingNumber?, print.signed, hminus, Decimal.readSign]

/-! ## Numbers without a sign -/

theorem leadingUnsigned?_of_not_word {cs : List Char} (h : ¬ "Infinity".toList <+: cs) :
    leadingUnsigned? cs = (Decimal.read? cs).map fun (d, _) => d.toBinary64 := by
  rw [leadingUnsigned?, if_neg (by rwa [List.isPrefixOf_iff_prefix])]

theorem leadingUnsigned?_of_head {cs : List Char} (h : ∀ c ∈ cs.head?, c ≠ 'I') :
    leadingUnsigned? cs = (Decimal.read? cs).map fun (d, _) => d.toBinary64 := by
  refine leadingUnsigned?_of_not_word ?_
  rintro ⟨rest, rfl⟩
  exact h 'I' rfl rfl

theorem leadingUnsigned?_infinity (rest : List Char) :
    leadingUnsigned? ("Infinity".toList ++ rest) = some (infinity false) := by
  have hword : "Infinity".toList.isPrefixOf ("Infinity".toList ++ rest) = true := by
    rw [List.isPrefixOf_iff_prefix]
    exact List.prefix_append _ _
  rw [leadingUnsigned?, if_pos hword]

/-- The word `Infinity` does not start with a digit. -/
theorem leadingUnsigned?_of_read? {c : Char} {cs rest : List Char} {d : Decimal}
    (hc : c.isDigit = true) (h : Decimal.read? (c :: cs) = some (d, rest)) :
    leadingUnsigned? (c :: cs) = some d.toBinary64 := by
  have hhead : ∀ d ∈ (c :: cs).head?, d ≠ 'I' := by
    rintro d hd rfl
    obtain rfl : c = 'I' := Option.some.inj hd
    exact absurd hc (by decide)
  rw [leadingUnsigned?_of_head hhead, h, Option.map_some]

section Print

variable {rest : List Char} (hrest : ∀ c ∈ rest.head?, Decimal.continuesNumber c = false)
include hrest

theorem leadingUnsigned?_print_shortest {place : Place} (h : place.val ≠ 0) :
    leadingUnsigned? ((Decimal.shortest place).print ++ rest) = some (finite false place) := by
  have hd := Decimal.digits_shortest_ne_zero h
  obtain ⟨e, hread, hvalue⟩ := Decimal.read?_print hd hrest
  obtain ⟨c, cs, hprint, hc⟩ := Decimal.exists_cons_print hd
  rw [hprint, List.cons_append] at hread ⊢
  rw [leadingUnsigned?_of_read? hc hread, Decimal.toBinary64_congr hvalue,
    Decimal.toBinary64_shortest]

theorem leadingUnsigned?_zero : leadingUnsigned? ('0' :: rest) = some (zero false) := by
  have hread := Decimal.read?_text ⟨['0'], [], by simp, by simp, by simp⟩ hrest
  have hzero : Decimal.toBinary64 ⟨Nat.ofDigitChars 10 ['0'] 0, 0⟩ = zero false := by
    decide +kernel
  exact (leadingUnsigned?_of_read? (by decide) hread).trans (congrArg some hzero)

/-! ## Printed numbers -/

theorem leadingNumber?_print_finite (negative : Bool) {place : Place} (h : place.val ≠ 0) :
    leadingNumber? ((finite negative place).print ++ rest) = some (finite negative place) := by
  have hread := leadingUnsigned?_print_shortest hrest h
  obtain ⟨c, cs, hprint, hc⟩ := Decimal.exists_cons_print (Decimal.digits_shortest_ne_zero h)
  rw [hprint] at hread
  rw [print, if_neg h, hprint, leadingNumber?_signed negative (isUnsigned_of_isDigit hc), hread]
  cases negative <;> rfl

theorem leadingNumber?_print_zero (negative : Bool) :
    leadingNumber? ((zero negative).print ++ rest) = some (zero false) := by
  have hsigned : (zero negative).print ++ rest = print.signed false ['0'] ++ rest := rfl
  rw [hsigned, leadingNumber?_signed false (isUnsigned_of_isDigit (by decide)),
    List.singleton_append, leadingUnsigned?_zero hrest]
  rfl

omit hrest in
theorem leadingNumber?_print_infinity (negative : Bool) :
    leadingNumber? ((infinity negative).print ++ rest) = some (infinity negative) := by
  have hsigned : (infinity negative).print = print.signed negative ('I' :: "nfinity".toList) := rfl
  rw [hsigned, leadingNumber?_signed negative ⟨by decide, by decide, by decide⟩]
  refine (congrArg _ (leadingUnsigned?_infinity rest)).trans ?_
  cases negative <;> rfl

omit hrest in
theorem leadingNumber?_print_nan : leadingNumber? (nan.print ++ rest) = none := rfl

end Print

theorem leadingNumber?_print_append {rest : String}
    (hrest : ∀ c ∈ rest.toList.head?, Decimal.continuesNumber c = false) :
    (∀ x : Binary64, x ≠ nan → x ≠ zero true →
      leadingNumber? (x.print ++ rest.toList) = some x ∧
        ∀ (f : CircularFunction) (unit : AngleUnit),
          f.ofText (.ofList x.print ++ rest) unit = .ok (f.apply x unit)) ∧
    leadingNumber? ((zero true).print ++ rest.toList) = some (zero false) ∧
    leadingNumber? (nan.print ++ rest.toList) = none := by
  refine ⟨?_, leadingNumber?_print_zero hrest true, leadingNumber?_print_nan⟩
  intro x hnan hzero
  have hread : leadingNumber? (x.print ++ rest.toList) = some x := by
    cases x with
    | nan => exact absurd rfl hnan
    | infinity negative => exact leadingNumber?_print_infinity negative
    | finite negative place =>
      by_cases hplace : place.val = 0
      · rw [finite_eq_zero hplace] at hzero ⊢
        cases negative with
        | false => exact leadingNumber?_print_zero hrest false
        | true => exact absurd rfl hzero
      · exact leadingNumber?_print_finite hrest negative hplace
  refine ⟨hread, ?_⟩
  intro f unit
  rw [CircularFunction.ofText, String.toList_append, String.toList_ofList, hread]

/-- The text `-1.5e-7*2` starts with the number that prints as `-1.5e-7`. -/
theorem leadingNumber?_print_append_product :
    (∀ c ∈ "*2".toList.head?, Decimal.continuesNumber c = false) ∧
      (ofBits 0xBE8421F5F40D8376).print = "-1.5e-7".toList ∧
      leadingNumber? "-1.5e-7*2".toList = some (ofBits 0xBE8421F5F40D8376) := by
  have hrest : ∀ c ∈ "*2".toList.head?, Decimal.continuesNumber c = false := by
    intro c hc
    obtain rfl : '*' = c := Option.some.inj hc
    rfl
  have hprint : (ofBits 0xBE8421F5F40D8376).print = "-1.5e-7".toList := by decide +kernel
  have hread := ((leadingNumber?_print_append hrest).1 (ofBits 0xBE8421F5F40D8376)
    (by decide +kernel) (by decide +kernel)).1
  rw [hprint] at hread
  exact ⟨hrest, hprint, hread⟩

end Calculator
