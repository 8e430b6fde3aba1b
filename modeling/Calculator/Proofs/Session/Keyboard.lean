/-
  When Enter calculates. A line that has the keyboard takes typed text, but Enter does there what
  `=` does only while the keyboard is still to be given to it (`enter_agrees_iff`): that is, if a
  button other than that of the trace panel was the last event before Enter, other Enters apart, or
  if there was none. One character typed, or one frame without an event, and Enter takes the
  keyboard away and does nothing else.
-/
import Mathlib.Data.List.Induction
import Calculator.Proofs.Session.Action

namespace Calculator

namespace Event

/-- The events after which the screen wants the keyboard for the line. -/
def asksForKeyboard : Event → Bool
  | click button => button ≠ .trace
  | _ => false

/-- Whether the keyboard is still to be given to the line: at the start, and after an event that
asks for it. Enter does not count, as it leaves this as it was. -/
def keyboardDue (events : List Event) : Bool :=
  (events.filter (· ≠ enter)).getLast?.all asksForKeyboard

theorem keyboardDue_concat (events : List Event) (e : Event) :
    keyboardDue (events ++ [e]) = if e = enter then keyboardDue events else e.asksForKeyboard := by
  unfold keyboardDue
  rw [List.filter_append]
  by_cases h : e = enter
  · simp [h]
  · simp [h]

end Event

namespace Screen

@[simp] theorem wantsKeyboard_calculate (s : Screen) : s.calculate.wantsKeyboard = true := by
  unfold calculate
  split <;> rfl

@[simp] theorem wantsKeyboard_applyFunction (f : CircularFunction) (s : Screen) :
    (s.applyFunction f).wantsKeyboard = true := by
  unfold applyFunction
  split <;> rfl

end Screen

namespace Session

open Event

theorem wantsKeyboard_settle (s : Session) : s.settle.screen.wantsKeyboard = false := by
  simp

theorem wantsKeyboard_step (s : Session) (e : Event) :
    (s.step e).screen.wantsKeyboard =
      if e = .enter then s.screen.wantsKeyboard else e.asksForKeyboard := by
  cases e with
  | click button =>
    cases button with
    | equals => exact Screen.wantsKeyboard_calculate _
    | function f => exact Screen.wantsKeyboard_applyFunction f _
    | trace => exact wantsKeyboard_settle s
    | _ => rfl
  | type text =>
    simp only [step]
    split <;> exact wantsKeyboard_settle s
  | enter =>
    simp only [step]
    split
    case isTrue h => rw [Screen.wantsKeyboard_calculate, if_pos trivial, h]
    case isFalse => rfl
  | escape => exact wantsKeyboard_settle _
  | repaint => exact wantsKeyboard_settle s

theorem wantsKeyboard_run (events : List Event) :
    (run {} events).screen.wantsKeyboard = keyboardDue events := by
  induction events using List.reverseRecOn with
  | nil => rfl
  | append_singleton events e ih =>
    rw [run_concat, wantsKeyboard_step, keyboardDue_concat, ih]

theorem content_step_equals (s : Session) :
    (s.step (.click .equals)).screen.content = s.screen.calculate.content := by
  simp

theorem content_step_enter (s : Session) :
    (s.step .enter).screen.content =
      if s.screen.wantsKeyboard then s.screen.calculate.content else s.screen.content := by
  rw [content_step, Screen.calculate_eq_perform, action?]
  split <;> rfl

theorem step_enter_eq_iff (s : Session) :
    s.step .enter = { s with hasKeyboard := false } ↔ s.screen.wantsKeyboard = false := by
  cases h : s.screen.wantsKeyboard with
  | false => simp [step, h]
  | true => simp [step, settle, h]

/-- Where Enter does what `=` does to all that is seen, and where it only takes the keyboard away. -/
theorem enter_agrees_iff (events : List Event) :
    (((run {} events).step .enter).screen.content =
        ((run {} events).step (.click .equals)).screen.content ↔
      keyboardDue events = true ∨
        (run {} events).screen.calculate.content = (run {} events).screen.content) ∧
    ((run {} events).step .enter = { run {} events with hasKeyboard := false } ↔
      keyboardDue events = false) ∧
    (run {} events).screen.wantsKeyboard = keyboardDue events := by
  rw [content_step_equals, content_step_enter, step_enter_eq_iff, wantsKeyboard_run]
  refine ⟨?_, Iff.rfl, rfl⟩
  cases keyboardDue events with
  | true => simp
  | false => simp [eq_comm]

/-- A text was typed into the line, so it has the keyboard, and Enter leaves the text as it is. -/
theorem enter_after_typing :
    (run {} [.type "1+1"]).hasKeyboard = true ∧
      ((run {} [.type "1+1"]).step .enter).screen.display = "1+1" ∧
      ((run {} [.type "1+1"]).step (.click .equals)).screen.display = "2" := by
  decide +kernel

end Session

end Calculator
