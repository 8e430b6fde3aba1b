/-
  Pressing `=` again and again. The line that a calculation leaves is left as it is by the next one
  (`calculatedLine_calculatedLine`): a result printed without sign and exponent is read back as
  itself, zero without its sign, and any other printed result is no line that can be calculated. So
  the first `=` settles the line, and the second one, whose trace or notice is that of the settled
  line, all the rest (`run_equals`).
-/
import Calculator.Proofs.Evaluation.Continuation
import Calculator.Proofs.Session.Action

namespace Calculator

open Postfix Binary64

/-! ## A printed result as the next line -/

theorem tokenize_print {x : Binary64} (h : x.IsPlain) :
    ∃ l : Literal, l.value = x ∧ tokenize x.print = [.number l.text] := by
  have hnil : Continues (tokenize []) := .nil
  obtain ⟨l, hl, htokens⟩ := tokenize_print_append h hnil
  rw [List.append_nil] at htokens
  exact ⟨l, hl, htokens⟩

theorem evaluate_print {x : Binary64} (h : x.IsPlain) :
    (evaluate (.ofList x.print)).map Evaluation.value = .ok x := by
  obtain ⟨l, hl, htokens⟩ := tokenize_print h
  have hps : ofInfix [.number l.text] = .ok (Expression.literal l).postorder :=
    ofInfix_of_reorders (reorders_of_derives (.operand (.operand (.literal l))))
  rw [evaluate_map_value, String.toList_ofList, htokens, hps, ← hl]
  exact value_postorder (.literal l)

theorem print_value_of_isPlain {x : Binary64} (h : x.IsPlain) {r : Evaluation}
    (hr : calculate (.ofList x.print) = .ok r) : r.value = x := by
  have heval := evaluate_print h
  rw [(calculate_eq_ok_iff.1 hr).2.1] at heval
  exact Except.ok.inj heval

/-- What is calculated from a printed number is printed alike. -/
theorem print_of_calculate_print {x : Binary64} (hx : x.isFinite = true) {r : Evaluation}
    (hr : calculate (.ofList x.print) = .ok r) : r.value.print = x.print := by
  have happend : calculate (.ofList x.print ++ "") = .ok r := by rwa [String.append_empty]
  -- with an exponent or behind a minus the text is no line that can be calculated
  by_cases he : 'e' ∈ x.print
  · rw [calculate_exponent_append he] at happend
    cases happend
  · rcases isPlain_of_not_mem_e hx he with rfl | hplain | ⟨hneg, hplain⟩
    · rw [print_value_of_isPlain (.inl rfl) hr]
      rfl
    · rw [print_value_of_isPlain hplain hr]
    · have hnil : Continues (tokenize "".toList) := .nil
      rw [calculate_minus_append hnil hneg hplain] at happend
      cases happend

/-- The line that a calculation leaves: the text of its result, or the line itself if it fails. -/
def calculatedLine (text : String) : String :=
  match calculate text with
  | .ok r => .ofList r.value.print
  | .error _ => text

theorem calculatedLine_calculatedLine (text : String) :
    calculatedLine (calculatedLine text) = calculatedLine text := by
  cases h : calculate text with
  | error e => simp only [calculatedLine, h]
  | ok r =>
    have hline : calculatedLine text = .ofList r.value.print := by simp only [calculatedLine, h]
    rw [hline]
    unfold calculatedLine
    split
    · rename_i s hs
      rw [print_of_calculate_print (calculate_eq_ok_iff.1 h).2.2 hs]
    · rfl

/-! ## The screen -/

namespace Screen

theorem display_calculate (s : Screen) : s.calculate.display = calculatedLine s.display := by
  unfold calculate calculatedLine
  cases Calculator.calculate s.display <;> rfl

theorem unit_calculate (s : Screen) : s.calculate.unit = s.unit := by
  unfold calculate
  split <;> rfl

theorem display_calculate_calculate (s : Screen) :
    s.calculate.calculate.display = s.calculate.display := by
  rw [display_calculate, display_calculate, calculatedLine_calculatedLine]

theorem calculate_calculate_calculate (s : Screen) :
    s.calculate.calculate.calculate = s.calculate.calculate :=
  calculate_congr s.display_calculate_calculate s.calculate.unit_calculate

end Screen

/-! ## Clicks -/

namespace Session

/-- The clicks on `=`, any number of them. -/
def equalsClicks (n : Nat) : List Event := .replicate n (.click .equals)

theorem run_equalsClicks_succ (s : Session) (n : Nat) :
    s.run (equalsClicks (n + 1)) = (s.run (equalsClicks n)).step (.click .equals) := by
  rw [equalsClicks, List.replicate_succ', run_concat]
  rfl

theorem run_equalsClicks_one (s : Session) :
    s.run (equalsClicks 1) = ⟨s.screen.calculate, false, s.traceOpen⟩ := s.step_equals

theorem run_equalsClicks_add_two (s : Session) (n : Nat) :
    s.run (equalsClicks (n + 2)) = ⟨s.screen.calculate.calculate, false, s.traceOpen⟩ := by
  induction n with
  | zero => rw [run_equalsClicks_succ, run_equalsClicks_one, step_equals]
  | succ n ih =>
    rw [run_equalsClicks_succ, ih, step_equals, Screen.calculate_calculate_calculate]

/-- After the first click the line stays as it is, and after the second one the whole session. -/
theorem run_equals (s : Session) (n : Nat) :
    (s.run (equalsClicks (n + 1))).screen.display = (s.run (equalsClicks 1)).screen.display ∧
      s.run (equalsClicks (n + 2)) = s.run (equalsClicks 2) := by
  constructor
  · cases n with
    | zero => rfl
    | succ n =>
      rw [run_equalsClicks_add_two, run_equalsClicks_one]
      exact s.screen.display_calculate_calculate
  · rw [run_equalsClicks_add_two, ← run_equalsClicks_add_two s 0]

end Session

end Calculator
