/-
  The trace says how the value was found. The text of the tokens, evaluated anew, gives the same
  value with the same trace, and the words of the postfix text are the tokens that were reduced to
  the value (`evaluate_trace`). Tokens that mean nothing are kept in the one and left out of the
  other.
-/
import Calculator.Proofs.Evaluation.Compilation
import Calculator.Proofs.Token.Rendering

namespace Calculator

open Postfix

theorem evaluate_congr {text other : String} (h : tokenize text.toList = tokenize other.toList) :
    evaluate text = evaluate other := by
  simp only [evaluate, h]

/-- The empty list has no value. -/
theorem ne_nil_of_value_eq_ok {ps : List Token} {x : Binary64} (h : value ps = .ok x) :
    ps ≠ [] := by
  rintro rfl
  cases h

theorem evaluate_trace {text : String} {e : Evaluation} (h : evaluate text = .ok e) :
    evaluate e.trace.tokens = .ok e ∧ ∃ ps, ofInfix (tokenize text.toList) = .ok ps ∧
      (e.trace.reordered.toList.splitOn ' ').map Token.ofWord = ps ∧ value ps = .ok e.value := by
  obtain ⟨ps, hps, hvalue, htrace⟩ := evaluate_eq_ok_iff.1 h
  have hcanonical : IsCanonical (tokenize text.toList) := isCanonical_tokenize text.toList
  refine ⟨?_, ps, hps, ?_, hvalue⟩
  · have htokens : tokenize e.trace.tokens.toList = tokenize text.toList := by
      rw [htrace, String.toList_ofList, tokenize_render hcanonical]
    rw [evaluate_congr htokens, h]
  · have hreads : Reorders .sum (tokenize text.toList) ps := ofInfix_eq_ok_iff.1 hps
    rw [htrace, String.toList_ofList]
    refine map_ofWord_splitOn_render (ne_nil_of_value_eq_ok hvalue) ?_
    intro t ht
    exact ⟨hcanonical.isWritten t (mem_of_reorders hreads ht), known_of_reorders hreads t ht⟩

/-- Digits are joined over a space, and the symbol that means nothing is seen among the tokens. -/
theorem evaluate_trace_twenty_four :
    ∃ e : Evaluation, evaluate "1 2+$3*(4)" = .ok e ∧
      e.trace = ⟨"12 + $ 3 * ( 4 )", "12 3 4 * +"⟩ ∧
      evaluate "12 + $ 3 * ( 4 )" = .ok e ∧
      (e.trace.reordered.toList.splitOn ' ').map Token.ofWord =
        [.number ['1', '2'], .number ['3'], .number ['4'], .operator '*', .operator '+'] := by
  have heval : evaluate "1 2+$3*(4)" =
      .ok ⟨.ofBits 0x4038000000000000, "12 + $ 3 * ( 4 )", "12 3 4 * +"⟩ := by decide +kernel
  have hps : ofInfix (tokenize "1 2+$3*(4)".toList) = .ok
      [.number ['1', '2'], .number ['3'], .number ['4'], .operator '*', .operator '+'] := by
    decide +kernel
  obtain ⟨hagain, ps, hreads, hwords, -⟩ := evaluate_trace heval
  obtain rfl := Except.ok.inj (hps.symm.trans hreads)
  exact ⟨_, heval, rfl, hagain, hwords⟩

end Calculator
