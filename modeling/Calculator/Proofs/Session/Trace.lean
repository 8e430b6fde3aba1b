/-
  Where the trace on the screen comes from. The event that computed last left it there
  (`trace_run`): a calculation that succeeded on the line that it found, or else one that failed or
  a function, which leave no trace. Events that compute nothing leave it as it is.
-/
import Mathlib.Data.List.Induction
import Calculator.Proofs.Session.Action

namespace Calculator

namespace Screen

/-- The trace that a calculation of the line leaves, which is empty if it fails. -/
def calculatedTrace (s : Screen) : Trace :=
  match Calculator.calculate s.display with
  | .ok result => result.trace
  | .error _ => .empty

theorem trace_calculation (s : Screen) : (s.perform s.calculation).trace = s.calculatedTrace := by
  unfold calculation calculatedTrace
  cases Calculator.calculate s.display <;> rfl

theorem trace_application (f : CircularFunction) (s : Screen) :
    (s.perform (s.application f)).trace = .empty := by
  unfold application
  cases f.ofText s.display s.unit <;> rfl

end Screen

namespace Session

/-- The trace that an event leaves if it computes something. The `=`, an Enter that calculates and
the functions do. -/
def computed? (s : Session) : Event → Option Trace
  | .click .equals => some s.screen.calculatedTrace
  | .click (.function _) => some .empty
  | .enter => if s.screen.wantsKeyboard then some s.screen.calculatedTrace else none
  | _ => none

theorem trace_step (s : Session) (e : Event) :
    (s.step e).screen.trace = (s.computed? e).getD s.screen.trace := by
  have h : (s.step e).screen.trace = (s.screen.perform? (s.action? e)).trace :=
    (Screen.content_eq_iff.1 (content_step s e)).2.2.2
  rw [h]
  cases e with
  | click button =>
    cases button with
    | equals => exact s.screen.trace_calculation
    | function f => exact s.screen.trace_application f
    | _ => rfl
  | type text =>
    simp only [action?]
    split <;> rfl
  | enter =>
    simp only [action?, computed?]
    split
    · exact s.screen.trace_calculation
    · rfl
  | escape => rfl
  | repaint => rfl

/-- None of the events computes anything when its turn comes. -/
def ComputesNothing (s : Session) (events : List Event) : Prop :=
  ∀ before e, before ++ [e] <+: events → (s.run before).computed? e = none

theorem computesNothing_nil (s : Session) : s.ComputesNothing [] := by
  intro before e h
  simp at h

theorem ComputesNothing.concat {s : Session} {events : List Event} {e : Event}
    (h : s.ComputesNothing events) (he : (s.run events).computed? e = none) :
    s.ComputesNothing (events ++ [e]) := by
  intro before f hprefix
  rcases List.prefix_concat_iff.1 hprefix with heq | hshort
  · obtain ⟨rfl, hf⟩ := List.append_inj' heq rfl
    obtain rfl : f = e := by simpa using hf
    exact he
  · exact h before f hshort

/-- The last event that computes something leaves its trace. -/
theorem trace_run_of_session (s : Session) (events : List Event) :
    (s.ComputesNothing events ∧ (s.run events).screen.trace = s.screen.trace) ∨
      ∃ before e after, events = before ++ e :: after ∧
        (s.run before).computed? e = some (s.run events).screen.trace ∧
        (s.run (before ++ [e])).ComputesNothing after := by
  induction events using List.reverseRecOn with
  | nil => exact .inl ⟨s.computesNothing_nil, rfl⟩
  | append_singleton events e ih =>
    have hlast : (s.run (events ++ [e])).screen.trace =
        ((s.run events).computed? e).getD (s.run events).screen.trace := by
      rw [run_concat, trace_step]
    rw [hlast]
    cases he : (s.run events).computed? e with
    | some trace =>
      exact .inr ⟨events, e, [], rfl, he, computesNothing_nil _⟩
    | none =>
      rcases ih with ⟨hnothing, htrace⟩ | ⟨before, f, after, rfl, hf, hafter⟩
      · exact .inl ⟨hnothing.concat he, htrace⟩
      · refine .inr ⟨before, f, after ++ [e], by simp, hf, hafter.concat ?_⟩
        rwa [← run_append, List.append_assoc]

theorem trace_run (events : List Event) :
    ((ComputesNothing {} events ∧ (run {} events).screen.trace = .empty) ∨
      ∃ before e after, events = before ++ e :: after ∧
        (run {} before).computed? e = some (run {} events).screen.trace ∧
        (run {} (before ++ [e])).ComputesNothing after) ∧
    ∀ e, (run {} events).computed? e = none →
      ((run {} events).step e).screen.trace = (run {} events).screen.trace := by
  refine ⟨trace_run_of_session {} events, ?_⟩
  intro e he
  rw [trace_step, he, Option.getD_none]

end Session

end Calculator
