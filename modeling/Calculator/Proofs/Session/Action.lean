/-
  What an event does to the screen. Apart from the wish for the keyboard, an event does to it what
  one action does, or nothing (`content_step`). Which action that is, `action?` reads off the
  session before the event: a calculation, for one, shows its result or reports its error.

  What holds at the start and is kept by every event holds after every run (`run_invariant`).
-/
import Calculator.Session

namespace Calculator

namespace Screen

/-- All that is seen on the screen. The wish for the keyboard is not. -/
def content (s : Screen) : Screen := { s with wantsKeyboard := false }

theorem content_eq_iff {s t : Screen} :
    s.content = t.content ↔
      s.display = t.display ∧ s.notice = t.notice ∧ s.unit = t.unit ∧ s.trace = t.trace := by
  simp [content]

@[simp] theorem content_content (s : Screen) : s.content.content = s.content := rfl

@[simp] theorem wantsKeyboard_content (s : Screen) : s.content.wantsKeyboard = false := rfl

/-- What a calculation does: its result, or what is wrong with the line. -/
def calculation (s : Screen) : Action :=
  match Calculator.calculate s.display with
  | .ok result => .showResult (.ofList result.value.print) result.trace
  | .error e => .fail e.message

/-- What a function of the number at the head of the line does. -/
def application (f : CircularFunction) (s : Screen) : Action :=
  match f.ofText s.display s.unit with
  | .ok x => .showResult (.ofList x.print) .empty
  | .error e => .fail e.message

theorem calculate_eq_perform (s : Screen) : s.calculate = s.perform s.calculation := by
  unfold calculate calculation
  cases Calculator.calculate s.display <;> rfl

theorem applyFunction_eq_perform (f : CircularFunction) (s : Screen) :
    s.applyFunction f = s.perform (s.application f) := by
  unfold applyFunction application
  cases f.ofText s.display s.unit <;> rfl

/-- A calculation depends on the line, and keeps the unit; all else it leaves anew. -/
theorem calculate_congr {s t : Screen} (hdisplay : s.display = t.display)
    (hunit : s.unit = t.unit) : s.calculate = t.calculate := by
  unfold calculate
  rw [hdisplay]
  cases Calculator.calculate t.display with
  | ok result => simp only [showResult, hunit]
  | error e => simp only [fail, hdisplay, hunit]

@[simp] theorem calculate_content (s : Screen) : s.content.calculate = s.calculate :=
  calculate_congr rfl rfl

/-- Performs the action, if there is one. -/
def perform? (s : Screen) (a : Option Action) : Screen := a.elim s s.perform

@[simp] theorem perform?_none (s : Screen) : s.perform? none = s := rfl

@[simp] theorem perform?_some (s : Screen) (a : Action) : s.perform? (some a) = s.perform a := rfl

/-- No action depends on the wish for the keyboard. -/
@[simp] theorem content_perform_content (s : Screen) (a : Action) :
    (s.content.perform a).content = (s.perform a).content := by
  cases a <;> rfl

@[simp] theorem content_perform?_content (s : Screen) (a : Option Action) :
    (s.content.perform? a).content = (s.perform? a).content := by
  cases a with
  | none => simp
  | some a => simp

end Screen

/-- What a button does to the screen, if anything. -/
def Button.action? (s : Screen) : Button → Option Screen.Action
  | key symbol => some (.append (.singleton symbol))
  | clear => some .clear
  | delete => some .backspace
  | equals => some s.calculation
  | function f => some (s.application f)
  | unit => some .toggleUnit
  | trace => none

@[simp] theorem Button.action?_content (s : Screen) (button : Button) :
    button.action? s.content = button.action? s := by
  cases button <;> rfl

namespace Session

/-- What an event does to the screen, if anything. Text is typed only into a line that has the
keyboard, and Enter calculates only where the line is still to be given it. -/
def action? (s : Session) : Event → Option Screen.Action
  | .click button => button.action? s.screen
  | .type text => if s.settle.hasKeyboard then some (.append text) else none
  | .enter => if s.screen.wantsKeyboard then some s.screen.calculation else none
  | .escape => some .clear
  | .repaint => none

@[simp] theorem screen_settle (s : Session) : s.settle.screen = s.screen.content := by
  obtain ⟨⟨display, notice, unit, trace, wants⟩, hasKeyboard, traceOpen⟩ := s
  cases wants <;> rfl

@[simp] theorem traceOpen_settle (s : Session) : s.settle.traceOpen = s.traceOpen := by
  unfold settle
  split <;> rfl

theorem screen_press (s : Session) (button : Button) :
    (s.press button).screen = s.screen.perform? (button.action? s.screen) := by
  cases button with
  | equals => exact s.screen.calculate_eq_perform
  | function f => exact s.screen.applyFunction_eq_perform f
  | _ => rfl

theorem content_step (s : Session) (e : Event) :
    (s.step e).screen.content = (s.screen.perform? (s.action? e)).content := by
  -- where the event finds the keyboard already given, the screen differs in that wish only
  cases e with
  | click button =>
    simp [step, action?, screen_press]
  | type text =>
    simp only [step, action?]
    split <;> (rw [screen_settle]; rfl)
  | enter =>
    simp only [step, action?]
    split
    · simp [Screen.calculate_eq_perform s.screen]
    · rfl
  | escape => simp [step, action?, Screen.perform]
  | repaint => simp [step, action?]

theorem traceOpen_step (s : Session) (e : Event) :
    (s.step e).traceOpen = if e = .click .trace then !s.traceOpen else s.traceOpen := by
  cases e with
  | click button =>
    rw [← traceOpen_settle s]
    cases button <;> rfl
  | type text =>
    rw [← traceOpen_settle s, step]
    split <;> rfl
  | enter =>
    rw [step]
    split
    · exact traceOpen_settle s
    · rfl
  | escape => exact traceOpen_settle _
  | repaint => exact traceOpen_settle s

/-- All that a click on `=` leaves, of the line and of the rest. -/
@[simp] theorem step_equals (s : Session) :
    s.step (.click .equals) = ⟨s.screen.calculate, false, s.traceOpen⟩ := by
  simp [step, press]

theorem run_concat (s : Session) (events : List Event) (e : Event) :
    s.run (events ++ [e]) = (s.run events).step e := by
  simp

theorem run_invariant {P : Session → Prop} (hstep : ∀ s e, P s → P (s.step e)) {s : Session}
    (h : P s) (events : List Event) : P (s.run events) := by
  induction events generalizing s with
  | nil => exact h
  | cons e events ih => exact ih (hstep s e h)

end Session

end Calculator
