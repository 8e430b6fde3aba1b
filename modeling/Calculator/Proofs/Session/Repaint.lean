/-
  Frames in which the user does nothing. Such a frame gives the line the keyboard if that is due,
  and every event but Enter begins with that itself: it leaves the same whether or not a frame came
  before it (`step_settle`). So where there is no Enter, frames put in or taken out anywhere change
  nothing after any other event, and nothing that is seen at any time (`run_of_filter_eq`).
-/
import Calculator.Proofs.Session.Action

namespace Calculator.Session

theorem step_escape (s : Session) : s.step .escape = ⟨s.screen.clear.content, true, s.traceOpen⟩ :=
  rfl

/-- No event but Enter can tell whether the keyboard was given before it. -/
theorem step_settle (s : Session) {e : Event} (h : e ≠ .enter) : s.settle.step e = s.step e := by
  cases e with
  | click button => simp [step]
  | type text => simp [step]
  | enter => exact absurd rfl h
  | escape =>
    simp only [step_escape, screen_settle, traceOpen_settle]
    rfl
  | repaint => simp [step]

/-- The sessions after the events of a run, those after repaints left out. -/
def sessionsAfter (s : Session) : List Event → List Session
  | [] => []
  | e :: events =>
    if e = .repaint then (s.step e).sessionsAfter events
    else s.step e :: (s.step e).sessionsAfter events

section Run

variable {events : List Event} (h : .enter ∉ events)
include h

/-! ## A frame before a run -/

theorem settle_run_settle (s : Session) : (s.settle.run events).settle = (s.run events).settle := by
  cases events with
  | nil => simp
  | cons e events =>
    have he : e ≠ .enter := (List.ne_of_not_mem_cons h).symm
    simp [step_settle s he]

theorem sessionsAfter_settle (s : Session) :
    s.settle.sessionsAfter events = s.sessionsAfter events := by
  cases events with
  | nil => rfl
  | cons e events =>
    have he : e ≠ .enter := (List.ne_of_not_mem_cons h).symm
    rw [sessionsAfter, sessionsAfter, step_settle s he]

/-! ## Frames anywhere -/

theorem settle_run_filter (s : Session) :
    (s.run (events.filter (· ≠ .repaint))).settle = (s.run events).settle := by
  induction events generalizing s with
  | nil => rfl
  | cons e events ih =>
    have hevents := List.not_mem_of_not_mem_cons h
    by_cases he : e = .repaint
    · subst he
      rw [List.filter_cons_of_neg (by simp), ih hevents]
      exact (settle_run_settle hevents s).symm
    · rw [List.filter_cons_of_pos (by simp [he])]
      exact ih hevents (s.step e)

theorem sessionsAfter_filter (s : Session) :
    s.sessionsAfter (events.filter (· ≠ .repaint)) = s.sessionsAfter events := by
  induction events generalizing s with
  | nil => rfl
  | cons e events ih =>
    have hevents := List.not_mem_of_not_mem_cons h
    by_cases he : e = .repaint
    · subst he
      rw [List.filter_cons_of_neg (by simp), ih hevents, sessionsAfter, if_pos rfl]
      exact (sessionsAfter_settle hevents s).symm
    · rw [List.filter_cons_of_pos (by simp [he]), sessionsAfter, sessionsAfter, if_neg he,
        if_neg he, ih hevents]

end Run

/-- Two runs that differ in frames only are the same after each other event, and at their ends the
same is seen. Any beginnings of theirs with the same other events are two such runs. -/
theorem run_of_filter_eq {first second : List Event} (hfirst : .enter ∉ first)
    (h : first.filter (· ≠ .repaint) = second.filter (· ≠ .repaint)) (s : Session) :
    s.sessionsAfter first = s.sessionsAfter second ∧
      (s.run first).screen.content = (s.run second).screen.content ∧
      (s.run first).traceOpen = (s.run second).traceOpen := by
  have hsecond : .enter ∉ second := by
    intro hmem
    have hfiltered : .enter ∈ first.filter (· ≠ .repaint) := by
      rw [h]
      exact List.mem_filter.2 ⟨hmem, by decide⟩
    exact hfirst (List.mem_filter.1 hfiltered).1
  have hsettle : (s.run first).settle = (s.run second).settle := by
    rw [← settle_run_filter hfirst, h, settle_run_filter hsecond]
  refine ⟨?_, ?_, ?_⟩
  · rw [← sessionsAfter_filter hfirst, h, sessionsAfter_filter hsecond]
  · simpa using congrArg screen hsettle
  · simpa using congrArg traceOpen hsettle

/-- A key and `=`, with frames before, between and after them, and without any. -/
theorem run_of_filter_eq_key :
    .enter ∉ [Event.click (.key '1'), .click .equals] ∧
      [Event.click (.key '1'), .click .equals].filter (· ≠ .repaint) =
        [Event.repaint, .click (.key '1'), .repaint, .repaint, .click .equals, .repaint].filter
          (· ≠ .repaint) ∧
      sessionsAfter {} [.click (.key '1'), .click .equals] =
        sessionsAfter {}
          [.repaint, .click (.key '1'), .repaint, .repaint, .click .equals, .repaint] ∧
      (run {} [.click (.key '1'), .click .equals]).screen.content =
        (run {} [.repaint, .click (.key '1'), .repaint, .repaint, .click .equals,
          .repaint]).screen.content ∧
      (run {} [.click (.key '1'), .click .equals]).traceOpen =
        (run {} [.repaint, .click (.key '1'), .repaint, .repaint, .click .equals,
          .repaint]).traceOpen := by
  have hfirst : .enter ∉ [Event.click (.key '1'), .click .equals] := by decide
  have hfilter : [Event.click (.key '1'), .click .equals].filter (· ≠ .repaint) =
      [Event.repaint, .click (.key '1'), .repaint, .repaint, .click .equals, .repaint].filter
        (· ≠ .repaint) := by decide
  exact ⟨hfirst, hfilter, run_of_filter_eq hfirst hfilter {}⟩

/-- Enter can tell: it calculates in the frame in which the line is given the keyboard. -/
example : (run {} [.click (.key '1'), .enter]).screen.trace = ⟨"1", "1"⟩ ∧
    (run {} [.click (.key '1'), .repaint, .enter]).screen.trace = .empty := by
  decide +kernel

end Calculator.Session
