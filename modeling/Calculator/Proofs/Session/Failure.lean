/-
  Errors leave the line to be mended (`display_kept_by_errors`). Whatever edits the line takes the
  notice away, so an event after which a notice stands has left the line as it was, and over any
  events all through which one stands the line stays. An event that fails to compute leaves the unit
  as well, no trace, and the message of what went wrong (`content_step_of_fails`).
-/
import Mathlib.Data.List.Induction
import Mathlib.Data.List.Infix
import Calculator.Proofs.Screen.Editing
import Calculator.Proofs.Session.Action

namespace Calculator

/-- An action after which a notice stands has left the line as it was. -/
theorem Screen.display_perform?_of_notice {s : Screen} {a : Option Action}
    (h : (s.perform? a).notice.text ≠ "") : (s.perform? a).display = s.display := by
  cases a with
  | none => rfl
  | some a =>
    cases ha : a.edits with
    | true =>
      have hblank : (s.perform a).notice = .blank := notice_perform_of_edits ha s
      exact absurd (congrArg Notice.text hblank) h
    | false => exact display_perform_of_not_edits ha s

namespace Session

/-! ## Notices -/

theorem display_step_of_notice {s : Session} {e : Event}
    (h : (s.step e).screen.notice.text ≠ "") : (s.step e).screen.display = s.screen.display := by
  obtain ⟨hdisplay, hnotice, -, -⟩ := Screen.content_eq_iff.1 (content_step s e)
  rw [hnotice] at h
  rw [hdisplay, Screen.display_perform?_of_notice h]

/-- A notice stands after each of the events, not always the same one. -/
theorem display_run_of_notices {s : Session} {events : List Event}
    (h : ∀ part, part <+: events → part ≠ [] → (s.run part).screen.notice.text ≠ "") :
    (s.run events).screen.display = s.screen.display := by
  induction events using List.reverseRecOn with
  | nil => rfl
  | append_singleton events e ih =>
    have hlast := h (events ++ [e]) (List.prefix_refl _) (by simp)
    have hbefore : (s.run events).screen.display = s.screen.display :=
      ih fun part hpart => h part (hpart.trans (List.prefix_append _ _))
    rw [run_concat] at hlast ⊢
    rw [display_step_of_notice hlast, hbefore]

/-! ## Failures -/

/-- The event computes something when its turn comes, and fails: a calculation of the line, by `=`
or by an Enter that calculates, or a function of the number at its head. -/
inductive Fails (s : Session) : Event → CalculationError → Prop where
  | equals {cause} (h : calculate s.screen.display = .error cause) : Fails s (.click .equals) cause
  | enter {cause} (due : s.screen.wantsKeyboard = true)
      (h : calculate s.screen.display = .error cause) : Fails s .enter cause
  | function {f cause} (h : f.ofText s.screen.display s.screen.unit = .error cause) :
      Fails s (.click (.function f)) cause

section Fails

variable {s : Session} {e : Event} {cause : CalculationError}

theorem action?_of_fails (h : s.Fails e cause) : s.action? e = some (.fail cause.message) := by
  cases h with
  | equals h => simp only [action?, Button.action?, Screen.calculation, h]
  | enter due h => simp only [action?, Screen.calculation, due, h, if_true]
  | function h => simp only [action?, Button.action?, Screen.application, h]

theorem content_step_of_fails (h : s.Fails e cause) :
    (s.step e).screen.content = (s.screen.fail cause.message).content := by
  rw [content_step, action?_of_fails h]
  rfl

end Fails

/-- What stays in a run: the line, at an event after which a notice stands; the line and the unit, at
a failure, which leaves its message and no trace; and the line, as long as notices stand. -/
theorem display_kept_by_errors (events : List Event) :
    (∀ e, ((run {} events).step e).screen.notice.text ≠ "" →
      ((run {} events).step e).screen.display = (run {} events).screen.display) ∧
    (∀ e cause, (run {} events).Fails e cause →
      ((run {} events).step e).screen.display = (run {} events).screen.display ∧
        ((run {} events).step e).screen.unit = (run {} events).screen.unit ∧
        ((run {} events).step e).screen.trace = .empty ∧
        ((run {} events).step e).screen.notice = ⟨.error, cause.message⟩) ∧
    ∀ later, (∀ part, part <+: later → part ≠ [] →
        ((run {} events).run part).screen.notice.text ≠ "") →
      ((run {} events).run later).screen.display = (run {} events).screen.display := by
  refine ⟨fun e => display_step_of_notice, ?_, fun later => display_run_of_notices⟩
  intro e cause h
  obtain ⟨hdisplay, hnotice, hunit, htrace⟩ :=
    Screen.content_eq_iff.1 (content_step_of_fails h)
  exact ⟨hdisplay, hunit, htrace, hnotice⟩

/-- The parenthesis of `(2` is not closed, and it is no number. Neither error, nor a frame after
them, touches the line. -/
theorem display_kept_by_errors_parenthesis :
    (run {} [.type "(2"]).Fails (.click .equals) .mismatchedParentheses ∧
      ((run {} [.type "(2"]).step (.click .equals)).screen.display = "(2" ∧
      ((run {} [.type "(2"]).step (.click .equals)).screen.notice =
        ⟨.error, "Parenthèses non appariées"⟩ ∧
      ((run {} [.type "(2"]).run [.click .equals, .click (.function .sin), .repaint]).screen.display =
        "(2" := by
  have hline : (run {} [.type "(2"]).screen.display = "(2" := by decide +kernel
  have hfails : (run {} [.type "(2"]).Fails (.click .equals) .mismatchedParentheses :=
    .equals (by decide +kernel)
  have hnotices : ∀ part, part <+: [Event.click .equals, .click (.function .sin), .repaint] →
      part ≠ [] → ((run {} [.type "(2"]).run part).screen.notice.text ≠ "" := by
    simp only [← List.mem_inits]
    decide +kernel
  obtain ⟨-, hfailure, hrun⟩ := display_kept_by_errors [.type "(2"]
  obtain ⟨hdisplay, -, -, hnotice⟩ := hfailure _ _ hfails
  exact ⟨hfails, hdisplay.trans hline, hnotice, (hrun _ hnotices).trans hline⟩

end Session

end Calculator
