/-
  The angle unit and the rest of the screen. Only a click on its button changes the unit, to the
  other one (`unit_step`), and so the unit after a run is told by the parity of these clicks. The
  unit is of use to functions only: in a run without functions, the clicks on its button may be left
  out, and the line and the trace at the end are the same (`run_unit`).

  The two runs do not agree in all: such a click replaces the notice and asks for the keyboard, which
  matters to typing and to Enter. What they agree in all along is the line and the trace
  (`Screen.work`), and every other event makes the new line and trace of the old ones alone.
-/
import Mathlib.Algebra.Ring.Parity
import Mathlib.Logic.Function.Iterate
import Calculator.Proofs.Session.Action

namespace Calculator

/-- Only an even number of toggles leads back to a unit. -/
theorem AngleUnit.iterate_toggle_eq_iff (unit : AngleUnit) (n : Nat) :
    toggle^[n] unit = unit ↔ Even n := by
  have htoggle : Function.Involutive toggle := toggle_toggle
  obtain heven | hodd := Nat.even_or_odd n
  · simp [htoggle.iterate_even heven, heven]
  · simp [htoggle.iterate_odd hodd, Nat.not_even_iff_odd.2 hodd]

/-- The events to which neither the unit matters nor whether the line has the keyboard. -/
def Event.ignoresUnit : Event → Bool
  | click (.function _) => false
  | click _ => true
  | type _ => false
  | enter => false
  | escape => true
  | repaint => true

namespace Screen

/-- What is worked on: the line, and the trace of the last calculation. -/
def work (s : Screen) : String × Trace := (s.display, s.trace)

theorem work_eq_iff {s t : Screen} :
    s.work = t.work ↔ s.display = t.display ∧ s.trace = t.trace := by
  simp [work]

theorem calculation_congr {s t : Screen} (h : s.display = t.display) :
    s.calculation = t.calculation := by
  unfold calculation
  rw [h]

theorem work_perform?_congr {s t : Screen} (h : s.work = t.work) (a : Option Action) :
    (s.perform? a).work = (t.perform? a).work := by
  obtain ⟨hdisplay, htrace⟩ := work_eq_iff.1 h
  cases a with
  | none => exact h
  | some a =>
    rw [work_eq_iff]
    cases a <;> simp [perform?, perform, append, clear, backspace, toggleUnit, clearNotice, fail,
      inform, showResult, hdisplay, htrace]

theorem unit_perform? (s : Screen) (a : Option Action) :
    (s.perform? a).unit = if a = some .toggleUnit then s.unit.toggle else s.unit := by
  cases a with
  | none => rfl
  | some a => cases a <;> rfl

theorem calculation_ne_toggleUnit (s : Screen) : s.calculation ≠ .toggleUnit := by
  unfold calculation
  split <;> simp

theorem application_ne_toggleUnit (f : CircularFunction) (s : Screen) :
    s.application f ≠ .toggleUnit := by
  unfold application
  split <;> simp

end Screen

namespace Session

/-! ## One event -/

theorem work_step (s : Session) (e : Event) :
    (s.step e).screen.work = (s.screen.perform? (s.action? e)).work := by
  obtain ⟨hdisplay, -, -, htrace⟩ := Screen.content_eq_iff.1 (content_step s e)
  exact Screen.work_eq_iff.2 ⟨hdisplay, htrace⟩

theorem work_step_unit (s : Session) : (s.step (.click .unit)).screen.work = s.screen.work := by
  rw [work_step]
  rfl

/-- The action of such an event depends on the line alone. -/
theorem action?_congr {s t : Session} (h : s.screen.display = t.screen.display) {e : Event}
    (he : e.ignoresUnit = true) : s.action? e = t.action? e := by
  cases e with
  | click button =>
    cases button with
    | equals => exact congrArg some (Screen.calculation_congr h)
    | function f => cases he
    | _ => rfl
  | type text => cases he
  | enter => cases he
  | escape => rfl
  | repaint => rfl

theorem work_step_congr {s t : Session} (h : s.screen.work = t.screen.work) {e : Event}
    (he : e.ignoresUnit = true) : (s.step e).screen.work = (t.step e).screen.work := by
  rw [work_step, work_step, action?_congr (Screen.work_eq_iff.1 h).1 he]
  exact Screen.work_perform?_congr h (t.action? e)

theorem action?_eq_toggleUnit_iff (s : Session) (e : Event) :
    s.action? e = some .toggleUnit ↔ e = .click .unit := by
  cases e with
  | click button =>
    cases button with
    | equals => simp [action?, Button.action?, Screen.calculation_ne_toggleUnit]
    | function f => simp [action?, Button.action?, Screen.application_ne_toggleUnit]
    | _ => simp [action?, Button.action?]
  | type text => simp [action?]
  | enter => simp [action?, Screen.calculation_ne_toggleUnit]
  | escape => simp [action?]
  | repaint => simp [action?]

theorem unit_step (s : Session) (e : Event) :
    (s.step e).screen.unit =
      if e = .click .unit then s.screen.unit.toggle else s.screen.unit := by
  have h : (s.step e).screen.unit = (s.screen.perform? (s.action? e)).unit :=
    (Screen.content_eq_iff.1 (content_step s e)).2.2.1
  rw [h, Screen.unit_perform?]
  simp only [action?_eq_toggleUnit_iff]

/-! ## Runs -/

/-- Two runs side by side: the one goes without the clicks on the button of the unit. -/
theorem work_run_filter {s t : Session} (h : s.screen.work = t.screen.work) {events : List Event}
    (hevents : ∀ e ∈ events, e.ignoresUnit = true) :
    (s.run (events.filter (· ≠ .click .unit))).screen.work = (t.run events).screen.work := by
  induction events generalizing s t with
  | nil => exact h
  | cons e events ih =>
    obtain ⟨he, hrest⟩ := List.forall_mem_cons.1 hevents
    by_cases hunit : e = .click .unit
    · subst hunit
      rw [List.filter_cons_of_neg (by simp)]
      exact ih (h.trans t.work_step_unit.symm) hrest
    · rw [List.filter_cons_of_pos (by simpa using hunit)]
      exact ih (work_step_congr h he) hrest

theorem unit_run (s : Session) (events : List Event) :
    (s.run events).screen.unit =
      AngleUnit.toggle^[events.count (.click .unit)] s.screen.unit := by
  induction events generalizing s with
  | nil => rfl
  | cons e events ih =>
    rw [run_cons, ih, unit_step]
    by_cases hunit : e = .click .unit
    · simp [hunit]
    · simp [hunit]

/-- Where no function is applied, the line and the trace do not depend on the clicks on the button
of the unit. The unit depends on nothing but these: each click gives the other one, so that an even
number of them leaves it as it was. -/
theorem run_unit (s : Session) (events : List Event) :
    ((∀ e ∈ events, e.ignoresUnit = true) →
      (s.run (events.filter (· ≠ .click .unit))).screen.display = (s.run events).screen.display ∧
        (s.run (events.filter (· ≠ .click .unit))).screen.trace = (s.run events).screen.trace) ∧
    (s.run events).screen.unit =
      AngleUnit.toggle^[events.count (.click .unit)] s.screen.unit ∧
    ((s.run events).screen.unit = s.screen.unit ↔ Even (events.count (.click .unit))) ∧
    (∀ e, (s.step e).screen.unit =
      if e = .click .unit then s.screen.unit.toggle else s.screen.unit) ∧
    ∀ unit : AngleUnit, unit.toggle ≠ unit ∧ unit.toggle.toggle = unit := by
  refine ⟨?_, unit_run s events, ?_, unit_step s, fun unit => ⟨unit.toggle_ne_self,
    unit.toggle_toggle⟩⟩
  · intro hevents
    exact Screen.work_eq_iff.1 (work_run_filter rfl hevents)
  · rw [unit_run, AngleUnit.iterate_toggle_eq_iff]

/-- The unit is changed before a calculation, which fails, and changed back before the line is
mended. -/
theorem run_unit_product :
    (∀ e ∈ [Event.click (.key '2'), .click (.key '*'), .click .unit, .click .equals, .click .unit,
      .click (.key '3'), .click .equals], e.ignoresUnit = true) ∧
    (run {} [.click (.key '2'), .click (.key '*'), .click .equals, .click (.key '3'),
      .click .equals]).screen.display = "6" ∧
    (run {} [.click (.key '2'), .click (.key '*'), .click .unit, .click .equals, .click .unit,
      .click (.key '3'), .click .equals]).screen.display = "6" ∧
    (run {} [.click (.key '2'), .click (.key '*'), .click .unit, .click .equals, .click .unit,
      .click (.key '3'), .click .equals]).screen.unit = .degrees ∧
    (run {} [.click (.key '2'), .click (.key '*'), .click .unit, .click .equals]).screen.unit ≠
      .degrees := by
  have hevents : ∀ e ∈ [Event.click (.key '2'), .click (.key '*'), .click .unit, .click .equals,
      .click .unit, .click (.key '3'), .click .equals], e.ignoresUnit = true := by decide
  have hsix : (run {} [.click (.key '2'), .click (.key '*'), .click .equals, .click (.key '3'),
      .click .equals]).screen.display = "6" := by decide +kernel
  obtain ⟨hwork, -, htwice, -⟩ := run_unit {} [.click (.key '2'), .click (.key '*'), .click .unit,
    .click .equals, .click .unit, .click (.key '3'), .click .equals]
  obtain ⟨-, -, honce, -⟩ := run_unit {} [.click (.key '2'), .click (.key '*'), .click .unit,
    .click .equals]
  exact ⟨hevents, hsix, (hwork hevents).1.symm.trans hsix, htwice.2 (by decide),
    fun h => absurd (honce.1 h) (by decide)⟩

/-- Typing can tell: the line takes no text after a click on the button of the trace panel, and does
so again after one on the button of the unit. -/
example : (run {} [.click .trace, .type "1"]).screen.display = "" ∧
    (run {} [.click .trace, .click .unit, .type "1"]).screen.display = "1" := by
  decide +kernel

end Session

end Calculator
