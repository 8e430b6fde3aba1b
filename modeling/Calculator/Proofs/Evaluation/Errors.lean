/-
  Which error a text ends in. The causes are looked for in a fixed order: a character that does not
  belong, parentheses that do not match, operands that do not fit their operators, and last a
  result that is not finite.

  Main statement: `error_classification`. It rests on `evaluate_eq_error`: an evaluation fails on
  its parentheses, and then only because they do not match, or on its operands, and then its
  parentheses do match.
-/
import Calculator.Proofs.Evaluation.Compilation
import Calculator.Proofs.Postfix.Acceptance

namespace Calculator

open Postfix

/-! ## Evaluations -/

/-- The parentheses of a text match, whatever else it contains. -/
def HasBalancedParens (text : String) : Prop := IsBalanced (text.toList.filterMap parenOfChar?)

theorem hasBalancedParens_iff {text : String} :
    HasBalancedParens text ↔ ∃ ps, ofInfix (tokenize text.toList) = .ok ps := by
  rw [exists_ofInfix_eq_ok_iff, filterMap_paren?_tokenize, HasBalancedParens]

theorem evaluate_eq_error {text : String} {e : CalculationError} (h : evaluate text = .error e) :
    (¬ HasBalancedParens text ∧ e = .mismatchedParentheses) ∨
      (HasBalancedParens text ∧ e = .invalidExpression) := by
  have hmap : (evaluate text).map Evaluation.value = .error e := by rw [h]; rfl
  rw [evaluate_map_value] at hmap
  rw [hasBalancedParens_iff]
  cases hps : ofInfix (tokenize text.toList) with
  | error d =>
    obtain rfl : d = e := by simpa [hps] using hmap
    exact .inl ⟨by simp, ofInfix_eq_error hps⟩
  | ok ps =>
    have hparen : ∀ t ∈ ps, t.paren? = none := fun t ht =>
      (known_of_reorders (ofInfix_eq_ok_iff.1 hps) t ht).2
    have hvalue : value ps = .error e := by simpa [hps] using hmap
    exact .inr ⟨⟨ps, rfl⟩, value_eq_error hparen hvalue⟩

/-- Unmatched parentheses come before all else. -/
theorem evaluate_cases (text : String) :
    (¬ HasBalancedParens text ∧ evaluate text = .error .mismatchedParentheses) ∨
      (HasBalancedParens text ∧
        ((∃ r, evaluate text = .ok r) ∨ evaluate text = .error .invalidExpression)) := by
  cases h : evaluate text with
  | ok r =>
    obtain ⟨ps, hps, -⟩ := bind_eq_ok_iff.1 h
    have hbal : HasBalancedParens text := hasBalancedParens_iff.2 ⟨ps, hps⟩
    exact .inr ⟨hbal, .inl ⟨r, rfl⟩⟩
  | error e =>
    rcases evaluate_eq_error h with ⟨hnot, rfl⟩ | ⟨hbal, rfl⟩
    · exact .inl ⟨hnot, rfl⟩
    · exact .inr ⟨hbal, .inr rfl⟩

theorem evaluate_eq_mismatched_iff {text : String} :
    evaluate text = .error .mismatchedParentheses ↔ ¬ HasBalancedParens text := by
  rcases evaluate_cases text with ⟨hnot, h⟩ | ⟨hbal, ⟨r, h⟩ | h⟩
  · simp [hnot, h]
  · simp [hbal, h]
  · simp [hbal, h]

theorem evaluate_ok_or_invalid_iff {text : String} :
    (∃ r, evaluate text = .ok r) ∨ evaluate text = .error .invalidExpression ↔
      HasBalancedParens text := by
  rcases evaluate_cases text with ⟨hnot, h⟩ | ⟨hbal, ⟨r, h⟩ | h⟩
  · simp [hnot, h]
  · simp [hbal, h]
  · simp [hbal, h]

/-! ## Calculations -/

theorem isCalculable_iff {text : String} :
    isCalculable text = true ↔
      text.toList ≠ [] ∧ ∀ t ∈ tokenize text.toList, t.isArithmetic = true := by
  rw [forall_isArithmetic_tokenize, isCalculable, Bool.and_eq_true, List.all_eq_true]
  simp

theorem isCalculable_of_tokenize {text : String} {t : Token} {ts : List Token}
    (h : tokenize text.toList = t :: ts) (harith : ∀ u ∈ t :: ts, u.isArithmetic = true) :
    isCalculable text = true := by
  refine isCalculable_iff.2 ⟨?_, by rwa [h]⟩
  intro hnil
  rw [hnil] at h
  cases h

theorem calculate_of_not_isCalculable {text : String} (h : isCalculable text = false) :
    calculate text = .error .invalidCharacters := by
  simp [calculate, h]

theorem calculate_of_isCalculable {text : String} (h : isCalculable text = true) :
    calculate text = evaluate text >>= fun r =>
      if r.value.isFinite then .ok r else .error .nonFiniteResult := by
  simp [calculate, h]

theorem calculate_map_value {text : String} (h : isCalculable text = true) :
    (calculate text).map Evaluation.value =
      (ofInfix (tokenize text.toList) >>= value) >>= fun x =>
        if x.isFinite then .ok x else .error .nonFiniteResult := by
  rw [calculate_of_isCalculable h, ← evaluate_map_value]
  cases evaluate text with
  | error e => simp
  | ok r => cases hfin : r.value.isFinite <;> simp [hfin]

theorem calculate_eq_ok_iff {text : String} {r : Evaluation} :
    calculate text = .ok r ↔
      isCalculable text = true ∧ evaluate text = .ok r ∧ r.value.isFinite = true := by
  cases hcalc : isCalculable text with
  | false => simp [calculate_of_not_isCalculable hcalc]
  | true =>
    rw [calculate_of_isCalculable hcalc, bind_eq_ok_iff]
    constructor
    · rintro ⟨s, hs, hif⟩
      by_cases hfin : s.value.isFinite = true
      · rw [if_pos hfin] at hif
        obtain rfl : s = r := Except.ok.inj hif
        exact ⟨rfl, hs, hfin⟩
      · rw [if_neg hfin] at hif
        cases hif
    · rintro ⟨-, hr, hfin⟩
      exact ⟨r, hr, by rw [if_pos hfin]⟩

theorem calculate_eq_error_iff {text : String} {e : CalculationError} :
    calculate text = .error e ↔
      (isCalculable text = false ∧ e = .invalidCharacters) ∨
      (isCalculable text = true ∧ (evaluate text = .error e ∨
        (e = .nonFiniteResult ∧ ∃ r, evaluate text = .ok r ∧ r.value.isFinite = false))) := by
  cases hcalc : isCalculable text with
  | false => simp [calculate_of_not_isCalculable hcalc, @eq_comm _ e]
  | true =>
    rw [calculate_of_isCalculable hcalc, bind_eq_error_iff]
    have hlast : ∀ r : Evaluation,
        (if r.value.isFinite then Except.ok r else .error .nonFiniteResult) = .error e ↔
          e = .nonFiniteResult ∧ r.value.isFinite = false := by
      intro r
      by_cases hfin : r.value.isFinite = true
      · simp [hfin]
      · simp [hfin, @eq_comm _ e]
    simp only [hlast]
    constructor
    · rintro (herror | ⟨r, hr, rfl, hnot⟩)
      · exact .inr ⟨trivial, .inl herror⟩
      · exact .inr ⟨trivial, .inr ⟨rfl, r, hr, hnot⟩⟩
    · rintro (⟨hfalse, -⟩ | ⟨-, herror | ⟨rfl, r, hr, hnot⟩⟩)
      · cases hfalse
      · exact .inl herror
      · exact .inr ⟨r, hr, rfl, hnot⟩

/-- The causes of failure, in the order in which they are looked for. -/
theorem error_classification (text : String) :
    (evaluate text = .error .mismatchedParentheses ↔ ¬ HasBalancedParens text) ∧
    ((∃ r, evaluate text = .ok r) ∨ evaluate text = .error .invalidExpression ↔
      HasBalancedParens text) ∧
    (calculate text = .error .invalidCharacters ↔ isCalculable text = false) ∧
    (calculate text = .error .mismatchedParentheses ↔
      isCalculable text = true ∧ evaluate text = .error .mismatchedParentheses) ∧
    (calculate text = .error .invalidExpression ↔
      isCalculable text = true ∧ evaluate text = .error .invalidExpression) ∧
    (calculate text = .error .nonFiniteResult ↔
      isCalculable text = true ∧ ∃ r, evaluate text = .ok r ∧
        (r.value = .nan ∨ ∃ negative, r.value = .infinity negative)) ∧
    (∀ r, calculate text = .ok r ↔
      isCalculable text = true ∧ evaluate text = .ok r ∧ r.value.isFinite = true) ∧
    evaluate text ≠ .error .numberExpected ∧ calculate text ≠ .error .numberExpected := by
  have hother : ∀ e, e ≠ .mismatchedParentheses → e ≠ .invalidExpression →
      evaluate text ≠ .error e := by
    intro e hmismatched hinvalid h
    rcases evaluate_eq_error h with ⟨-, he⟩ | ⟨-, he⟩
    · exact hmismatched he
    · exact hinvalid he
  refine ⟨evaluate_eq_mismatched_iff, evaluate_ok_or_invalid_iff, ?_, ?_, ?_, ?_,
    fun r => calculate_eq_ok_iff, hother _ (by decide) (by decide), ?_⟩
  · rw [calculate_eq_error_iff]
    simp [hother .invalidCharacters (by decide) (by decide)]
  · rw [calculate_eq_error_iff]
    simp
  · rw [calculate_eq_error_iff]
    simp
  · rw [calculate_eq_error_iff]
    simp [hother .nonFiniteResult (by decide) (by decide), Binary64.isFinite_eq_false_iff]
  · rw [Ne, calculate_eq_error_iff]
    simp [hother .numberExpected (by decide) (by decide)]

end Calculator
