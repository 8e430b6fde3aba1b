/-
  Going on from a printed result. The text of a result is followed by operators with their right
  operands, as one goes on typing after a calculation, and is calculated with them
  (`calculate_print_append`). Nothing else than the result is taken up: printed without sign and
  exponent, it is a literal and stands for the calculation in parentheses that it came from; a sign
  in front of it is an operator without a left operand, so that there are as many operators as
  operands; and the letter of an exponent is no character of arithmetic.
-/
import Calculator.Proofs.Binary64.Printer
import Calculator.Proofs.Evaluation.Juxtaposition
import Calculator.Proofs.Postfix.Group
import Calculator.Proofs.Token.Rendering

namespace Calculator

open Postfix Binary64

/-! ## Operands and operators -/

theorem operandCount_of_reorders {c : Category} {ts : List Token} {e : Expression}
    (h : Reorders c ts e.postorder) : operandCount ts = operatorCount ts + 1 := by
  have hoperands : operandCount ts = e.postorder.countP Token.isNumber := by
    rw [operandCount, List.countP_eq_length_filter, ← filter_isNumber_of_reorders h,
      List.countP_eq_length_filter]
  have hoperators : operatorCount ts = e.postorder.countP Token.isOperator := by
    rw [operatorCount, List.countP_eq_length_filter, ← (perm_isOperator_of_reorders h).length_eq,
      List.countP_eq_length_filter]
  rw [hoperands, hoperators, countP_isNumber_postorder]

/-- With another number of operands, matching parentheses are not enough. -/
theorem evaluate_eq_invalid_of_count {text : String}
    (hbalanced : IsBalanced ((tokenize text.toList).filterMap Token.paren?))
    (hcount : operandCount (tokenize text.toList) ≠ operatorCount (tokenize text.toList) + 1) :
    evaluate text = .error .invalidExpression := by
  rcases evaluate_cases text with ⟨hnot, -⟩ | ⟨-, ⟨r, hr⟩ | herror⟩
  · exact absurd (hasBalancedParens_iff.2 (exists_ofInfix_eq_ok_iff.2 hbalanced)) hnot
  · have hvalue : (evaluate text).map Evaluation.value = .ok r.value := by rw [hr]; rfl
    obtain ⟨e, hread, -⟩ := evaluate_map_value_eq_ok_iff.1 hvalue
    exact absurd (operandCount_of_reorders hread) hcount
  · exact herror

/-! ## Continuations -/

/-- Any number of operators, each with its right operand. -/
inductive Continues : List Token → Prop where
  | nil : Continues []
  | cons {us rest e} (op : Operator) (known : op ∈ Operator.table)
      (factor : Derives .factor us e) (more : Continues rest) :
      Continues (.operator op.symbol :: us ++ rest)

namespace Continues

variable {ts : List Token} (h : Continues ts)
include h

theorem isNumber_head : ∀ t ∈ ts.head?, t.isNumber = false := by
  cases h with
  | nil => simp
  | cons op known factor more => simp

theorem isArithmetic : ∀ t ∈ ts, t.isArithmetic = true := by
  induction h with
  | nil => simp
  | @cons us rest e op known factor more ih =>
    rw [List.cons_append]
    have hfactor : ∀ t ∈ us, t.isArithmetic = true := fun t ht =>
      Token.isArithmetic_of_isKnown (isKnown_of_derives factor t ht)
    exact List.forall_mem_cons.2 ⟨by simp [known], List.forall_mem_append.2 ⟨hfactor, ih⟩⟩

theorem isBalanced : IsBalanced (ts.filterMap Token.paren?) := by
  induction h with
  | nil => exact ⟨0, rfl⟩
  | cons op known factor more ih =>
    have hfactor := exists_ofInfix_eq_ok_iff.1
      ⟨_, ofInfix_of_reorders (reorders_of_derives (.operand (.operand factor)))⟩
    rw [List.cons_append, List.filterMap_cons_none rfl, List.filterMap_append]
    exact hfactor.append ih

/-- Every operator comes with one operand. -/
theorem operandCount_eq : operandCount ts = operatorCount ts := by
  induction h with
  | nil => rfl
  | cons op known factor more ih =>
    have hfactor := operandCount_of_reorders (reorders_of_derives factor)
    simp [known, ih, hfactor]
    omega

end Continues

/-! ## The printed result -/

theorem isWritten_text (m : Decimal.Mantissa) : (Token.number m.text).IsWritten := by
  obtain ⟨c, cs, htext, -⟩ := m.exists_cons_text
  refine ⟨by simp [htext], fun d hd => ?_⟩
  rcases m.mem_text hd with hdigit | rfl
  · simp [isNumeral, hdigit]
  · decide

/-- The tokens of a result that is printed without sign and exponent. -/
theorem tokenize_print_append {x : Binary64} (hx : x.IsPlain) {cs : List Char}
    (hcs : Continues (tokenize cs)) :
    ∃ l : Literal, l.value = x ∧ tokenize (x.print ++ cs) = .number l.text :: tokenize cs := by
  obtain ⟨m, hprint, hvalue⟩ := exists_mantissa_print hx
  refine ⟨⟨m.text, x, by rw [Decimal.readLiteral?_text, hvalue]⟩, rfl, ?_⟩
  rw [hprint]
  refine tokenize_text_append (isWritten_text m) ?_
  rintro u hu ⟨-, hnumber⟩
  exact absurd hnumber (by simp [hcs.isNumber_head u hu])

theorem tokenize_group_append (cs ds : List Char) :
    tokenize ('(' :: (cs ++ ')' :: ds)) =
      [.leftParen] ++ tokenize cs ++ [.rightParen] ++ tokenize ds := by
  have hclose : tokenize (')' :: ds) = .rightParen :: tokenize ds :=
    tokenize_symbol_cons (by decide) (by decide) ds
  have hopen : tokenize ('(' :: (cs ++ ')' :: ds)) = .leftParen :: tokenize (cs ++ ')' :: ds) :=
    tokenize_symbol_cons (by decide) (by decide) _
  rw [hopen, tokenize_append cs (by simp [hclose]), hclose]
  simp

section Append

variable {rest : String} (hrest : Continues (tokenize rest.toList))
include hrest

theorem calculate_plain_append {text : String} {r : Evaluation} (hr : calculate text = .ok r)
    (hplain : r.value.IsPlain) :
    (calculate (.ofList r.value.print ++ rest)).map Evaluation.value =
      (calculate ("(" ++ text ++ ")" ++ rest)).map Evaluation.value := by
  obtain ⟨hcalc, heval, -⟩ := calculate_eq_ok_iff.1 hr
  obtain ⟨ps, hps, hvalue, -⟩ := evaluate_eq_ok_iff.1 heval
  obtain ⟨l, hl, hprint⟩ := tokenize_print_append hplain hrest
  rw [← hl] at hvalue
  have hleft : tokenize (String.ofList r.value.print ++ rest).toList =
      .number l.text :: tokenize rest.toList := by
    rw [String.toList_append, String.toList_ofList, hprint]
  have hright : tokenize ("(" ++ text ++ ")" ++ rest).toList =
      [.leftParen] ++ tokenize text.toList ++ [.rightParen] ++ tokenize rest.toList := by
    rw [← tokenize_group_append]
    simp
  have hleftCalc : isCalculable (.ofList r.value.print ++ rest) = true :=
    isCalculable_of_tokenize hleft (List.forall_mem_cons.2 ⟨rfl, hrest.isArithmetic⟩)
  have hrightCalc : isCalculable ("(" ++ text ++ ")" ++ rest) = true := by
    refine isCalculable_of_tokenize hright (List.forall_mem_cons.2 ⟨rfl, ?_⟩)
    refine List.forall_mem_append.2 ⟨List.forall_mem_append.2 ⟨(isCalculable_iff.1 hcalc).2, ?_⟩,
      hrest.isArithmetic⟩
    simp
  have hgroup := complete_group hps hvalue Conversion.start (tokenize rest.toList)
  rw [calculate_map_value hleftCalc, calculate_map_value hrightCalc, hleft, hright,
    Conversion.ofInfix_eq_complete, Conversion.ofInfix_eq_complete, hgroup]
  rfl

theorem calculate_minus_append {x : Binary64} (hneg : x.toRat < 0) (hplain : (-x).IsPlain) :
    calculate (.ofList x.print ++ rest) = .error .invalidExpression := by
  obtain ⟨l, -, hprint⟩ := tokenize_print_append hplain hrest
  have minus : (⟨'-', 1, .left⟩ : Operator) ∈ Operator.table := by decide
  have htokens : tokenize (String.ofList x.print ++ rest).toList =
      .operator '-' :: .number l.text :: tokenize rest.toList := by
    rw [String.toList_append, String.toList_ofList, print_of_neg hneg, List.cons_append, ← hprint]
    exact tokenize_symbol_cons (by decide) (by decide) _
  have hcalc : isCalculable (.ofList x.print ++ rest) = true :=
    isCalculable_of_tokenize htokens
      (List.forall_mem_cons.2 ⟨rfl, List.forall_mem_cons.2 ⟨rfl, hrest.isArithmetic⟩⟩)
  refine calculate_eq_error_iff.2 (.inr ⟨hcalc, .inl (evaluate_eq_invalid_of_count ?_ ?_)⟩)
  · rw [htokens]
    exact hrest.isBalanced
  · have hcount := hrest.operandCount_eq
    rw [htokens]
    simp [operatorCount_operator minus, hcount]

end Append

/-- The letter of an exponent stops the calculation, whatever follows. -/
theorem calculate_exponent_append {x : Binary64} (h : 'e' ∈ x.print) (rest : String) :
    calculate (.ofList x.print ++ rest) = .error .invalidCharacters := by
  refine calculate_of_not_isCalculable ?_
  have hnot : (isBlank 'e' || isArithmetic 'e') = false := by decide
  rw [isCalculable, Bool.and_eq_false_iff, List.all_eq_false]
  exact .inr ⟨'e', by simp [h], by simp [hnot]⟩

/-- What the text of a result is taken for, by its notation, when one goes on from it. -/
theorem calculate_print_append {text rest : String} {r : Evaluation} (hr : calculate text = .ok r)
    (hrest : Continues (tokenize rest.toList)) :
    (r.value = zero false ∨ leastPositional.toRat ≤ r.value.toRat ∧
        r.value.toRat < leastScientific.toRat →
      (calculate (.ofList r.value.print ++ rest)).map Evaluation.value =
        (calculate ("(" ++ text ++ ")" ++ rest)).map Evaluation.value) ∧
    (-leastScientific.toRat < r.value.toRat ∧ r.value.toRat ≤ -leastPositional.toRat →
      calculate (.ofList r.value.print ++ rest) = .error .invalidExpression) ∧
    ('e' ∈ r.value.print ↔ leastScientific.toRat ≤ |r.value.toRat| ∨
      0 < |r.value.toRat| ∧ |r.value.toRat| < leastPositional.toRat) ∧
    ('e' ∈ r.value.print → calculate (.ofList r.value.print ++ rest) = .error .invalidCharacters) := by
  refine ⟨calculate_plain_append hrest hr, ?_, mem_e_print_iff,
    fun h => calculate_exponent_append h rest⟩
  rintro ⟨hlower, hupper⟩
  refine calculate_minus_append hrest ?_ (.inr ?_)
  · exact lt_of_le_of_lt hupper (neg_lt_zero.2 leastPositional_pos)
  · rw [toRat_neg]
    exact ⟨le_neg_of_le_neg hupper, neg_lt_of_neg_lt hlower⟩

/-- After `1/4` and `1/4-1` one goes on with `*2+(3)`. -/
theorem calculate_print_append_quarter :
    Continues (tokenize "*2+(3)".toList) ∧
      (∃ r : Evaluation, calculate "1/4" = .ok r ∧ r.value.print = "0.25".toList ∧
        (calculate "0.25*2+(3)").map Evaluation.value =
          (calculate "(1/4)*2+(3)").map Evaluation.value) ∧
      ∃ r : Evaluation, calculate "1/4-1" = .ok r ∧ r.value.print = "-0.75".toList ∧
        calculate "-0.75*2+(3)" = .error .invalidExpression := by
  have times : (⟨'*', 2, .left⟩ : Operator) ∈ Operator.table := by decide
  have plus : (⟨'+', 1, .left⟩ : Operator) ∈ Operator.table := by decide
  let two : Literal := ⟨['2'], .ofBits 0x4000000000000000, by decide +kernel⟩
  let three : Literal := ⟨['3'], .ofBits 0x4008000000000000, by decide +kernel⟩
  have hrest : Continues (tokenize "*2+(3)".toList) := by
    have htext : tokenize "*2+(3)".toList =
        [.operator '*', .number ['2'], .operator '+', .leftParen, .number ['3'], .rightParen] := by
      decide
    rw [htext]
    exact .cons _ times (.literal two)
      (.cons _ plus (.group (.operand (.operand (.literal three)))) .nil)
  have hquarter : calculate "1/4" = .ok ⟨.ofBits 0x3FD0000000000000, "1 / 4", "1 4 /"⟩ := by
    decide +kernel
  have hminus : calculate "1/4-1" =
      .ok ⟨.ofBits 0xBFE8000000000000, "1 / 4 - 1", "1 4 / 1 -"⟩ := by decide +kernel
  have hquarterText : (ofBits 0x3FD0000000000000).print = "0.25".toList := by decide +kernel
  have hminusText : (ofBits 0xBFE8000000000000).print = "-0.75".toList := by decide +kernel
  have hplain := (calculate_print_append hquarter hrest).1 (.inr (by decide +kernel))
  have hsigned := (calculate_print_append hminus hrest).2.1 (by decide +kernel)
  simp only [hquarterText] at hplain
  simp only [hminusText] at hsigned
  exact ⟨hrest, ⟨_, hquarter, hquarterText, hplain⟩, _, hminus, hminusText, hsigned⟩

end Calculator
