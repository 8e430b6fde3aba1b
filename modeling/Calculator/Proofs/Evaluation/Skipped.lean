/-
  Tokens without meaning are skipped: literals that cannot be read, and symbols outside the
  operator table. A text with such tokens is evaluated as if they were not there
  (`ofInfix_filter_isKnown`), so it fails because of the tokens that are left, if these have no
  value, and not because of those that were skipped (`error_iff_of_skipped`). Nothing makes up for
  a skipped literal unless some operand directly follows another.
-/
import Calculator.Proofs.Evaluation.Juxtaposition

namespace Calculator

open Postfix

theorem ofInfix_filter_isKnown (ts : List Token) :
    ofInfix (ts.filter Token.isKnown) = ofInfix ts := by
  rw [ofInfix, ofInfix, foldlM_filter_of_ok fun t h state => Conversion.step_unknown h state]

theorem reorders_filter_isKnown_iff {ts ps : List Token} :
    Reorders .sum (ts.filter Token.isKnown) ps ↔ Reorders .sum ts ps := by
  rw [← ofInfix_eq_ok_iff, ofInfix_filter_isKnown, ofInfix_eq_ok_iff]

theorem evaluate_error_iff {text : String} :
    evaluate text = .error .invalidExpression ∨ evaluate text = .error .mismatchedParentheses ↔
      ¬ ∃ e : Expression, Reorders .sum (tokenize text.toList) e.postorder := by
  have hvalue : (∃ x, (evaluate text).map Evaluation.value = .ok x) ↔
      ∃ e : Expression, Reorders .sum (tokenize text.toList) e.postorder := by
    simp only [evaluate_map_value_eq_ok_iff]
    constructor
    · rintro ⟨x, e, he, -⟩
      exact ⟨e, he⟩
    · rintro ⟨e, he⟩
      exact ⟨e.value, e, he, rfl⟩
  rw [← hvalue, ← exists_eq_error_iff]
  constructor
  · rintro (h | h)
    · exact ⟨_, h⟩
    · exact ⟨_, h⟩
  · rintro ⟨error, h⟩
    rcases evaluate_eq_error h with ⟨-, rfl⟩ | ⟨-, rfl⟩
    · exact .inr h
    · exact .inl h

theorem exists_calculate_error_iff {text : String} :
    (∃ error, calculate text = .error error) ↔
      ¬ (isCalculable text = true ∧ ∃ e : Expression,
        Reorders .sum (tokenize text.toList) e.postorder ∧ e.value.isFinite = true) := by
  rw [exists_eq_error_iff (f := Evaluation.value), not_congr]
  simp only [calculate_map_value_eq_ok_iff, evaluate_map_value_eq_ok_iff]
  constructor
  · rintro ⟨x, hcalc, ⟨e, he, rfl⟩, hfin⟩
    exact ⟨hcalc, e, he, hfin⟩
  · rintro ⟨hcalc, e, he, hfin⟩
    exact ⟨e.value, hcalc, ⟨e, he, rfl⟩, hfin⟩

/-- A tree has one number more than it has operators, and with a skipped literal there is at least
one too few. -/
theorem not_reorders_of_skipped {ts : List Token} (hskipped : ∃ t ∈ ts, t.isKnown = false)
    (hts : ∀ t ∈ ts, t.isArithmetic = true) (hadj : Unjuxtaposed ts) (e : Expression) :
    ¬ Reorders .sum ts e.postorder := by
  intro hread
  have hle := countP_isNumber_add_le hread hts hadj
  have htree := countP_isNumber_postorder e
  have hpos : 0 < ts.countP fun t => !t.isKnown := by
    obtain ⟨t, ht, hun⟩ := hskipped
    exact List.countP_pos_iff.2 ⟨t, ht, by simp [hun]⟩
  omega

/-- A text of which a token was skipped has a value whenever the other tokens have one. Where no
operand directly follows another, they have none if the text may be calculated at all. -/
theorem error_iff_of_skipped {text : String}
    (hskipped : ∃ t ∈ tokenize text.toList, t.isKnown = false) :
    (evaluate text = .error .invalidExpression ∨ evaluate text = .error .mismatchedParentheses ↔
      ¬ ∃ e : Expression,
        Reorders .sum ((tokenize text.toList).filter Token.isKnown) e.postorder) ∧
    ((∃ error, calculate text = .error error) ↔
      ¬ (isCalculable text = true ∧ ∃ e : Expression,
        Reorders .sum ((tokenize text.toList).filter Token.isKnown) e.postorder ∧
          e.value.isFinite = true)) ∧
    (Unjuxtaposed (tokenize text.toList) →
      (∃ error, calculate text = .error error) ∧
      (isCalculable text = true →
        evaluate text = .error .invalidExpression ∨
          evaluate text = .error .mismatchedParentheses)) := by
  simp only [reorders_filter_isKnown_iff]
  refine ⟨evaluate_error_iff, exists_calculate_error_iff, ?_⟩
  intro hadj
  have hnone : isCalculable text = true → ∀ e : Expression,
      ¬ Reorders .sum (tokenize text.toList) e.postorder := fun hcalc =>
    not_reorders_of_skipped hskipped (isCalculable_iff.1 hcalc).2 hadj
  refine ⟨exists_calculate_error_iff.2 ?_, fun hcalc => evaluate_error_iff.2 ?_⟩
  · rintro ⟨hcalc, e, he, -⟩
    exact hnone hcalc e he
  · rintro ⟨e, he⟩
    exact hnone hcalc e he

theorem error_iff_of_skipped_operand :
    (∃ t ∈ tokenize "2*1.2.3".toList, t.isKnown = false) ∧
      (evaluate "2*1.2.3" = .error .invalidExpression ∨
        evaluate "2*1.2.3" = .error .mismatchedParentheses) := by
  have hskipped : ∃ t ∈ tokenize "2*1.2.3".toList, t.isKnown = false := by decide +kernel
  have hadj : Unjuxtaposed (tokenize "2*1.2.3".toList) := by decide +kernel
  exact ⟨hskipped, ((error_iff_of_skipped hskipped).2.2 hadj).2 (by decide +kernel)⟩

/-- Nothing is left of the group but its parentheses, and the literal before it is the value. -/
theorem calculate_skipped_ok :
    (∃ t ∈ tokenize "5(1.2.3)".toList, t.isKnown = false) ∧
      (evaluate "5(1.2.3)").map Evaluation.value = .ok (.ofBits 0x4014000000000000) ∧
      (calculate "5(1.2.3)").map Evaluation.value = .ok (.ofBits 0x4014000000000000) := by
  decide +kernel

end Calculator
