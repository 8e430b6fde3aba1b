/-
  What becomes of a division by zero. Its value is an infinity or NaN, and only the final result is
  checked, so a calculation reports it as long as no later operation turns it into a finite number.
  One operation does: a finite number divided by an infinity is a zero, and `1/(1/0)` is `0`
  (`calculate_hidden_division_ok`). Unless it stands on the right of such a division, a division by
  zero makes the calculation fail (`calculate_of_dividesByZero`).
-/
import Calculator.Proofs.Binary64.Finite
import Calculator.Proofs.Evaluation.Juxtaposition

namespace Calculator

open Postfix Binary64

/-- A finite number divided by an infinity, of which nothing is left in the result. -/
def Operator.absorbs (op : Operator) (a b : Binary64) : Bool :=
  op.symbol = '/' && a.isFinite && b.isInfinite

/-- From an operand that is not finite nothing else makes a finite number. -/
theorem Operator.isFinite_apply {op : Operator} (known : op ∈ table) {a b : Binary64}
    (h : a.isFinite = false ∨ b.isFinite = false) :
    (op.apply a b).isFinite = op.absorbs a b := by
  rcases mem_table_iff.1 known with rfl | rfl | rfl | rfl
  · exact isFinite_add h
  · exact isFinite_sub h
  · exact isFinite_mul h
  · exact isFinite_div h

/-- The evaluation of a tree divides by a zero of either sign. The division is `hidden` if it stands
in the right operand of one that absorbs it. -/
inductive Expression.DividesByZero : (hidden : Bool) → Expression → Prop where
  | here {op known left right negative} (divides : op.symbol = '/')
      (byZero : right.value = .zero negative) : DividesByZero false (.binary op known left right)
  | left {op known left right hidden} (inside : DividesByZero hidden left) :
      DividesByZero hidden (.binary op known left right)
  | right {op known left right hidden} (inside : DividesByZero hidden right) :
      DividesByZero (hidden || op.absorbs left.value right.value) (.binary op known left right)

/-- What is not hidden comes up to the root. -/
theorem Expression.DividesByZero.isFinite_value {hidden : Bool} {e : Expression}
    (h : e.DividesByZero hidden) (hshown : hidden = false) : e.value.isFinite = false := by
  induction h with
  | @here op known left right negative divides byZero =>
    have hdiv : op.apply left.value right.value = left.value / right.value := by
      rw [Operator.apply, divides]
      rfl
    rw [value, hdiv, byZero, isFinite_div_zero]
  | @left op known left right hidden inside ih =>
    have hleft := ih hshown
    rw [value, Operator.isFinite_apply known (.inl hleft), Operator.absorbs, hleft]
    simp
  | @right op known left right hidden inside ih =>
    obtain ⟨hhidden, habsorbs⟩ := Bool.or_eq_false_iff.1 hshown
    rw [value, Operator.isFinite_apply known (.inr (ih hhidden)), habsorbs]

theorem calculate_of_derives {ts : List Token} {e : Expression} (h : Derives .sum ts e)
    {text : String} (htext : tokenize text.toList = ts) :
    (calculate text).map Evaluation.value =
      if e.value.isFinite then .ok e.value else .error .nonFiniteResult := by
  rw [← htext] at h
  have hvalue : (evaluate text).map Evaluation.value = .ok e.value :=
    evaluate_map_value_eq_ok_iff.2 ⟨e, reorders_of_derives h, rfl⟩
  have hcalc := isCalculable_of_evaluate (isKnown_of_derives h) hvalue
  simp [calculate_map_value hcalc, ← evaluate_map_value, hvalue]

/-- A division by zero makes the calculation fail, or else it is hidden. -/
theorem calculate_of_dividesByZero {ts : List Token} {e : Expression} (h : Derives .sum ts e)
    {text : String} (htext : tokenize text.toList = ts) {hidden : Bool}
    (hzero : e.DividesByZero hidden) :
    calculate text = .error .nonFiniteResult ∨
      hidden = true ∧ ∃ r, calculate text = .ok r ∧ r.value = e.value := by
  have hcalc := calculate_of_derives h htext
  cases hfin : e.value.isFinite with
  | false =>
    exact .inl (by simpa [hfin] using hcalc)
  | true =>
    refine .inr ⟨?_, by simpa [hfin] using hcalc⟩
    by_contra hshown
    have hnot := hzero.isFinite_value (Bool.eq_false_of_not_eq_true hshown)
    exact Bool.false_ne_true (hnot.symm.trans hfin)

/-- The zero is the value of a product, and the infinity an operand of the difference. -/
theorem calculate_of_dividesByZero_difference :
    ∃ e : Expression, Derives .sum (tokenize "1/(0*2)-3".toList) e ∧ e.DividesByZero false ∧
      calculate "1/(0*2)-3" = .error .nonFiniteResult := by
  have minus : (⟨'-', 1, .left⟩ : Operator) ∈ Operator.table := by decide
  have times : (⟨'*', 2, .left⟩ : Operator) ∈ Operator.table := by decide
  have slash : (⟨'/', 2, .left⟩ : Operator) ∈ Operator.table := by decide
  let zero : Literal := ⟨['0'], .zero false, by decide +kernel⟩
  let one : Literal := ⟨['1'], .ofBits 0x3FF0000000000000, by decide +kernel⟩
  let two : Literal := ⟨['2'], .ofBits 0x4000000000000000, by decide +kernel⟩
  let three : Literal := ⟨['3'], .ofBits 0x4008000000000000, by decide +kernel⟩
  have hproduct := Derives.binary (c := .product) _ times (by decide)
    (.operand (.literal zero)) (.literal two)
  have hquotient := Derives.binary (c := .product) _ slash (by decide)
    (.operand (.literal one)) (.group (.operand hproduct))
  have htext : tokenize "1/(0*2)-3".toList =
      [.number ['1'], .operator '/', .leftParen, .number ['0'], .operator '*', .number ['2'],
        .rightParen, .operator '-', .number ['3']] := by decide
  have hdifference := Derives.binary (c := .sum) _ minus (by decide) (.operand hquotient)
    (.operand (.literal three))
  have hvalue : Operator.apply ⟨'*', 2, .left⟩ (.zero false) (.ofBits 0x4000000000000000) =
      .zero false := by decide +kernel
  have hzero : Expression.DividesByZero false (.binary _ minus
      (.binary _ slash (.literal one) (.binary _ times (.literal zero) (.literal two)))
      (.literal three)) := .left (.here rfl hvalue)
  have hcalc := (calculate_of_dividesByZero hdifference htext hzero).resolve_right (by simp)
  rw [htext]
  exact ⟨_, hdifference, hzero, hcalc⟩

/-- The infinity that `1/0` is goes into a zero. -/
theorem calculate_hidden_division_ok :
    ∃ e : Expression, Derives .sum (tokenize "1/(1/0)".toList) e ∧ e.DividesByZero true ∧
      (calculate "1/(1/0)").map Evaluation.value = .ok (.zero false) := by
  have slash : (⟨'/', 2, .left⟩ : Operator) ∈ Operator.table := by decide
  let zero : Literal := ⟨['0'], .zero false, by decide +kernel⟩
  let one : Literal := ⟨['1'], .ofBits 0x3FF0000000000000, by decide +kernel⟩
  have hinner := Derives.binary (c := .product) _ slash (by decide)
    (.operand (.literal one)) (.literal zero)
  have htext : tokenize "1/(1/0)".toList =
      [.number ['1'], .operator '/', .leftParen, .number ['1'], .operator '/', .number ['0'],
        .rightParen] := by decide
  have hquotient := Derives.binary (c := .product) _ slash (by decide)
    (.operand (.literal one)) (.group (.operand hinner))
  have habsorbs : Operator.absorbs ⟨'/', 2, .left⟩ (.ofBits 0x3FF0000000000000)
      (Operator.apply ⟨'/', 2, .left⟩ (.ofBits 0x3FF0000000000000) (.zero false)) = true := by
    decide +kernel
  have hinside : Expression.DividesByZero false
      (.binary _ slash (.literal one) (.literal zero)) := .here rfl rfl
  have hzero : Expression.DividesByZero (false || _)
      (.binary _ slash (.literal one) (.binary _ slash (.literal one) (.literal zero))) :=
    .right hinside
  have hcalc : (calculate "1/(1/0)").map Evaluation.value = .ok (.zero false) := by
    decide +kernel
  rw [htext]
  exact ⟨_, .operand hquotient, habsorbs ▸ hzero, hcalc⟩

end Calculator
