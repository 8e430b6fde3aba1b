/-
  The notice is true of the screen it stands on, after every run (`isTruthful_run`). An information
  names the angle unit in use; an error is that of the line as it is now. For whatever changes the
  line takes the notice away, and the unit is not changed without saying so.
-/
import Calculator.Proofs.Session.Action

namespace Calculator

/-- A line to which no function can be applied has no number at its head. -/
theorem CircularFunction.ofText_eq_error_iff {f : CircularFunction} {text : String}
    {unit : AngleUnit} {e : CalculationError} :
    f.ofText text unit = .error e ↔ leadingNumber? text.toList = none ∧ e = .numberExpected := by
  unfold ofText
  cases leadingNumber? text.toList with
  | none => simp [eq_comm]
  | some x => simp

namespace Screen

/-- The notice is true of the line and of the angle unit. -/
structure IsTruthful (s : Screen) : Prop where
  info_iff : s.notice.kind = .info ↔ s.notice.text = "Mode : " ++ s.unit.label
  error_cause : s.notice.kind = .error → s.notice.text ≠ "" →
    (∃ e, Calculator.calculate s.display = .error e ∧ s.notice.text = e.message) ∨
      s.notice.text = CalculationError.numberExpected.message ∧
        leadingNumber? s.display.toList = none

theorem isTruthful_content {s : Screen} : s.content.IsTruthful ↔ s.IsTruthful :=
  ⟨fun ⟨hinfo, herror⟩ => ⟨hinfo, herror⟩, fun ⟨hinfo, herror⟩ => ⟨hinfo, herror⟩⟩

theorem message_ne_mode_label (e : CalculationError) (unit : AngleUnit) :
    e.message ≠ "Mode : " ++ unit.label := by
  cases e <;> cases unit <;> decide

variable {s : Screen}

theorem isTruthful_of_blank (h : s.notice = .blank) : s.IsTruthful where
  info_iff := by simp [h, Notice.blank]
  error_cause := by simp [h, Notice.blank]

theorem isTruthful_fail {e : CalculationError}
    (h : Calculator.calculate s.display = .error e ∨
      leadingNumber? s.display.toList = none ∧ e = .numberExpected) :
    (s.fail e.message).IsTruthful where
  info_iff := by simp [fail, message_ne_mode_label]
  error_cause := by
    intro _ _
    rcases h with hcalc | ⟨hnone, rfl⟩
    · exact .inl ⟨e, hcalc, rfl⟩
    · exact .inr ⟨rfl, hnone⟩

theorem isTruthful_toggleUnit (s : Screen) : s.toggleUnit.IsTruthful where
  info_iff := by simp [toggleUnit, inform]
  error_cause := by simp [toggleUnit, inform]

theorem isTruthful_calculation (s : Screen) : (s.perform s.calculation).IsTruthful := by
  unfold calculation
  cases h : Calculator.calculate s.display with
  | ok result => exact isTruthful_of_blank rfl
  | error e => exact isTruthful_fail (.inl h)

theorem isTruthful_application (f : CircularFunction) (s : Screen) :
    (s.perform (s.application f)).IsTruthful := by
  unfold application
  cases h : f.ofText s.display s.unit with
  | ok x => exact isTruthful_of_blank rfl
  | error e => exact isTruthful_fail (.inr (CircularFunction.ofText_eq_error_iff.1 h))

end Screen

namespace Session

theorem isTruthful_press {s : Screen} (h : s.IsTruthful) (button : Button) :
    (s.perform? (button.action? s)).IsTruthful := by
  cases button with
  | equals => exact s.isTruthful_calculation
  | function f => exact s.isTruthful_application f
  | unit => exact s.isTruthful_toggleUnit
  | trace => exact h
  | key symbol => exact Screen.isTruthful_of_blank rfl
  | clear => exact Screen.isTruthful_of_blank rfl
  | delete => exact Screen.isTruthful_of_blank rfl

theorem isTruthful_step (s : Session) (e : Event) (h : s.screen.IsTruthful) :
    (s.step e).screen.IsTruthful := by
  rw [← Screen.isTruthful_content, content_step, Screen.isTruthful_content]
  cases e with
  | click button => exact isTruthful_press h button
  | type text =>
    simp only [action?]
    split
    · exact Screen.isTruthful_of_blank rfl
    · exact h
  | enter =>
    simp only [action?]
    split
    · exact s.screen.isTruthful_calculation
    · exact h
  | escape => exact Screen.isTruthful_of_blank rfl
  | repaint => exact h

theorem isTruthful_run (events : List Event) : (run {} events).screen.IsTruthful :=
  run_invariant isTruthful_step (Screen.isTruthful_of_blank rfl) events

example : (run {} [.click (.key '('), .click .equals]).screen.notice =
    ⟨.error, CalculationError.mismatchedParentheses.message⟩ := by
  decide +kernel

end Session

end Calculator
