/-
  The characters that may be calculated with, the tokens they are cut into, and the table of the
  operators agree. A text is admitted exactly if all its tokens are parentheses, literals and
  operators of the table (`isCalculable_iff_forall_token`), so that neither the conversion of an
  admitted text nor the evaluation of what it gives comes upon an operator that it knows nothing
  about. Of the operators that wait during a conversion this holds for every text, as only operators
  that have been found in the table are made to wait (`foldlM_step_known`).
-/
import Calculator.Proofs.Evaluation.Errors
import Calculator.Proofs.Postfix.Pending
import Calculator.Proofs.Postfix.Reordering

namespace Calculator

open Postfix

theorem Token.isArithmetic_iff {t : Token} : t.isArithmetic = true ↔
    t = leftParen ∨ t = rightParen ∨ (∃ literal, t = number literal) ∨
      ∃ symbol op, t = operator symbol ∧ Operator.find? symbol = some op := by
  cases t with
  | number literal => simp [isArithmetic]
  | operator symbol => simp [isArithmetic, Option.isSome_iff_exists]
  | leftParen => simp [isArithmetic]
  | rightParen => simp [isArithmetic]

/-- Which texts are admitted, and that the operators met in calculating one are all in the table:
those of its tokens, those that wait after any part of them, and those of its postfix order. -/
theorem isCalculable_iff_forall_token (text : String) :
    (isCalculable text = true ↔ text ≠ "" ∧ ∀ t ∈ tokenize text.toList,
      t = .leftParen ∨ t = .rightParen ∨ (∃ literal, t = .number literal) ∨
        ∃ symbol op, t = .operator symbol ∧ Operator.find? symbol = some op) ∧
    (isCalculable text = true →
      (∀ symbol, .operator symbol ∈ tokenize text.toList → ∃ op, Operator.find? symbol = some op) ∧
      (∀ before state, before <+: tokenize text.toList →
        before.foldlM Conversion.step Conversion.start = .ok state →
        ∀ op, .operator op ∈ state.pending → Operator.find? op.symbol = some op) ∧
      (∀ ps, ofInfix (tokenize text.toList) = .ok ps →
        ∀ symbol, .operator symbol ∈ ps → ∃ op, Operator.find? symbol = some op)) := by
  have hknown : ∀ symbol, (Token.operator symbol).isArithmetic = true →
      ∃ op, Operator.find? symbol = some op := fun symbol => Option.isSome_iff_exists.1
  refine ⟨?_, fun hcalc => ⟨?_, ?_, ?_⟩⟩
  · simp only [isCalculable_iff, Token.isArithmetic_iff, Ne, String.toList_eq_nil_iff]
  · intro symbol hsymbol
    exact hknown symbol ((isCalculable_iff.1 hcalc).2 _ hsymbol)
  · intro before state _ hrun op hop
    have hstart : Conversion.start.KnowsPending := fun op hop => absurd hop List.not_mem_nil
    exact Operator.find?_symbol (Conversion.foldlM_step_known hrun hstart op hop)
  · intro ps hps symbol hsymbol
    have hmem := (known_of_reorders (ofInfix_eq_ok_iff.1 hps) _ hsymbol).1
    exact hknown symbol (Token.isArithmetic_of_isKnown hmem)

/-- After `3*(.-` the product and the difference wait, one of them below the parenthesis. The point
alone is a literal, though none that can be read. -/
theorem isCalculable_iff_forall_token_waiting :
    isCalculable "3*(. -2)" = true ∧ isCalculable "3*(. %2)" = false ∧
      ∃ state, [Token.number ['3'], .operator '*', .leftParen, .number ['.'], .operator '-'].foldlM
          Conversion.step Conversion.start = .ok state ∧
        Pending.operator ⟨'*', 2, .left⟩ ∈ state.pending ∧
        Operator.find? '*' = some ⟨'*', 2, .left⟩ := by
  have hcalc : isCalculable "3*(. -2)" = true := by decide
  have hnot : isCalculable "3*(. %2)" = false := by
    rw [← Bool.not_eq_true, (isCalculable_iff_forall_token "3*(. %2)").1]
    rintro ⟨-, htokens⟩
    have hpercent := htokens (.operator '%') (by decide)
    simp [Operator.find?, Operator.table] at hpercent
  have hpart : [Token.number ['3'], .operator '*', .leftParen, .number ['.'], .operator '-'] <+:
      tokenize "3*(. -2)".toList := by decide
  let waiting : List Pending := [.operator ⟨'-', 1, .left⟩, .paren, .operator ⟨'*', 2, .left⟩]
  have hrun : [Token.number ['3'], .operator '*', .leftParen, .number ['.'], .operator '-'].foldlM
      Conversion.step Conversion.start = .ok ⟨[.number ['3']], waiting⟩ := by decide +kernel
  have hstar : Pending.operator ⟨'*', 2, .left⟩ ∈ waiting := by decide
  have hall := ((isCalculable_iff_forall_token "3*(. -2)").2 hcalc).2.1
  exact ⟨hcalc, hnot, _, hrun, hstar, hall _ _ hpart hrun _ hstar⟩

end Calculator
