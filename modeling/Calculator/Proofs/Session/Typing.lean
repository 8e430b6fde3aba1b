/-
  Which typed texts are lost. A text reaches the line unless the last click, Enter or Escape before
  it was a click on the button of the trace panel or an Enter that did not calculate; then it
  changes nothing (`content_type_run`). For those three decide whether the line takes text, that is
  whether it has the keyboard or is to be given it, and typing and frames leave that as it was.
-/
import Mathlib.Data.List.DropRight
import Mathlib.Data.List.Induction
import Calculator.Proofs.Session.Keyboard

namespace Calculator

/-- The events that decide whether the line takes text from then on. -/
def Event.movesKeyboard : Event → Bool
  | click _ => true
  | enter => true
  | escape => true
  | type _ => false
  | repaint => false

namespace Session

open Event

/-! ## Whether the line takes text -/

/-- The line has the keyboard, or is to be given it at the next frame. -/
def takesText (s : Session) : Bool := s.hasKeyboard || s.screen.wantsKeyboard

@[simp] theorem hasKeyboard_settle (s : Session) : s.settle.hasKeyboard = s.takesText := by
  unfold settle takesText
  cases s.screen.wantsKeyboard <;> simp

@[simp] theorem takesText_settle (s : Session) : s.settle.takesText = s.takesText := by
  simp [takesText]

theorem takesText_step (s : Session) (e : Event) :
    (s.step e).takesText = match e with
      | .click button => decide (button ≠ .trace)
      | .enter => s.screen.wantsKeyboard
      | .escape => true
      | .type _ => s.takesText
      | .repaint => s.takesText := by
  cases e with
  | click button =>
    have htaken : (s.step (.click button)).hasKeyboard = false := by cases button <;> rfl
    rw [takesText, htaken, wantsKeyboard_step]
    rfl
  | type text =>
    rw [← takesText_settle s, step]
    split <;> rfl
  | enter =>
    rw [takesText, wantsKeyboard_step, if_pos rfl, step]
    cases s.screen.wantsKeyboard <;> simp
  | escape =>
    -- the emptied line is to be given the keyboard
    rw [step, takesText_settle]
    exact Bool.or_true _
  | repaint => exact takesText_settle s

theorem content_type (s : Session) (text : String) :
    (s.step (.type text)).screen.content =
      if s.takesText then (s.screen.type text).content else s.screen.content := by
  rw [content_step, action?, hasKeyboard_settle]
  split <;> rfl

/-! ## Texts that are lost -/

/-- The last click, Enter or Escape was a click on the button of the trace panel, or an Enter that
did not calculate. -/
def LosesText (events : List Event) : Prop :=
  ∃ before e, (events.rdropWhile fun f => !f.movesKeyboard) = before ++ [e] ∧
    (e = .click .trace ∨ e = .enter ∧ (run {} before).action? e = none)

theorem not_losesText_nil : ¬ LosesText [] := by
  simp [LosesText]

theorem losesText_concat (events : List Event) (e : Event) :
    LosesText (events ++ [e]) ↔
      if e.movesKeyboard then e = .click .trace ∨ e = .enter ∧ (run {} events).action? e = none
      else LosesText events := by
  unfold LosesText
  rw [List.rdropWhile_concat]
  cases e.movesKeyboard with
  | false => simp
  | true =>
    simp only [Bool.not_true, Bool.false_eq_true, if_false, if_true, List.append_singleton_inj]
    constructor
    · rintro ⟨before, f, ⟨rfl, rfl⟩, hf⟩
      exact hf
    · intro he
      exact ⟨events, e, ⟨rfl, rfl⟩, he⟩

theorem action?_enter_eq_none_iff (s : Session) :
    s.action? .enter = none ↔ s.screen.wantsKeyboard = false := by
  unfold action?
  cases s.screen.wantsKeyboard <;> simp

theorem takesText_run_eq_false_iff (events : List Event) :
    (run {} events).takesText = false ↔ LosesText events := by
  induction events using List.reverseRecOn with
  | nil => exact iff_of_false (by decide) not_losesText_nil
  | append_singleton events e ih =>
    rw [run_concat, losesText_concat, takesText_step]
    -- what moves the keyboard decides both sides anew, and all else keeps them
    cases e with
    | click button => simp [Event.movesKeyboard]
    | type text => exact ih
    | enter => simp [Event.movesKeyboard, action?_enter_eq_none_iff]
    | escape => simp [Event.movesKeyboard]
    | repaint => exact ih

theorem takesText_run_of_not_losesText {events : List Event} (h : ¬ LosesText events) :
    (run {} events).takesText = true := by
  rwa [← takesText_run_eq_false_iff, Bool.not_eq_false] at h

/-- Which texts come to stand behind the line, and which are lost; and which Enters do not
calculate, by the events before them alone. -/
theorem content_type_run (events : List Event) {text : String} (htext : text ≠ "") :
    (¬ LosesText events → ((run {} events).step (.type text)).screen.content =
      { (run {} events).screen.content with
        display := (run {} events).screen.display ++ text, notice := .blank }) ∧
    (LosesText events ↔
      ((run {} events).step (.type text)).screen.content = (run {} events).screen.content) ∧
    ∀ before, (run {} before).action? .enter = none ↔ keyboardDue before = false := by
  refine ⟨?_, ?_, fun before => ?_⟩
  · intro hkept
    rw [content_type, if_pos (takesText_run_of_not_losesText hkept)]
    rfl
  · rw [← takesText_run_eq_false_iff, content_type]
    cases (run {} events).takesText with
    | false => simp
    | true =>
      refine iff_of_false (by decide) fun h => htext ?_
      exact String.append_eq_left_iff.1 (congrArg Screen.display h)
  · rw [action?_enter_eq_none_iff, wantsKeyboard_run]

/-- A frame does not bring back the keyboard that the trace panel has taken, and an Enter that
calculates, here the empty line, does not take it. -/
theorem content_type_run_panel :
    "2" ≠ "" ∧ LosesText [.click (.key '1'), .click .trace, .repaint] ∧
      ((run {} [.click (.key '1'), .click .trace, .repaint]).step (.type "2")).screen.content =
        (run {} [.click (.key '1'), .click .trace, .repaint]).screen.content ∧
      ¬ LosesText [.enter, .type "1"] ∧
      ((run {} [.enter, .type "1"]).step (.type "2")).screen.content =
        { (run {} [.enter, .type "1"]).screen.content with
          display := (run {} [.enter, .type "1"]).screen.display ++ "2", notice := .blank } := by
  have htext : "2" ≠ "" := by decide
  have hlost : LosesText [.click (.key '1'), .click .trace, .repaint] :=
    ⟨[.click (.key '1')], .click .trace, by decide, .inl rfl⟩
  have hkept : ¬ LosesText [.enter, .type "1"] := by
    rw [← takesText_run_eq_false_iff]
    decide +kernel
  exact ⟨htext, hlost, (content_type_run _ htext).2.1.1 hlost, hkept,
    (content_type_run _ htext).1 hkept⟩

end Session

end Calculator
