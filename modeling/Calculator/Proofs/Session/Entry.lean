/-
  Ways of entering a word: with keys and by typing, in any pieces, with frames in between. While the
  line takes text, the pieces come to stand one after the other behind the old line, and `=` does
  the same after all ways of entering the word (`run_enters`).
-/
import Calculator.Proofs.Session.Typing

namespace Calculator

namespace Screen

/-- Typing does not depend on the wish for the keyboard. -/
theorem content_type_content (s : Screen) (text : String) :
    (s.content.type text).content = (s.type text).content := rfl

theorem type_type (s : Screen) (text other : String) :
    (s.type text).type other = s.type (text ++ other) := by
  simp only [type, String.append_assoc]

end Screen

namespace Session

/-- The events enter the word piece by piece: with keys, by typing, and with frames in between. -/
inductive Enters : String → List Event → Prop where
  | nil : Enters "" []
  | key {word events} (symbol : Char) (rest : Enters word events) :
      Enters (.singleton symbol ++ word) (.click (.key symbol) :: events)
  | type {word events} (text : String) (rest : Enters word events) :
      Enters (text ++ word) (.type text :: events)
  | repaint {word events} (rest : Enters word events) : Enters word (.repaint :: events)

theorem content_key (s : Session) (symbol : Char) :
    (s.step (.click (.key symbol))).screen.content =
      (s.screen.type (.singleton symbol)).content := by
  rw [content_step]
  rfl

section Enters

variable {s : Session} {word : String} {events : List Event}

/-- The last disjunct is the case in which no more is entered. -/
theorem content_run_of_typed {text : String} {t : Session}
    (ht : t.screen.content = (s.screen.type text).content)
    (h : (t.run events).screen.content = (t.screen.type word).content ∨
      word = "" ∧ (t.run events).screen.content = t.screen.content) :
    (t.run events).screen.content = (s.screen.type (text ++ word)).content := by
  rcases h with hrun | ⟨rfl, hrun⟩
  · rw [hrun, ← Screen.content_type_content, ht, Screen.content_type_content, Screen.type_type]
  · rw [hrun, ht, String.append_empty]

theorem content_run_of_enters (h : Enters word events) (hs : s.takesText = true) :
    (s.run events).screen.content = (s.screen.type word).content ∨
      word = "" ∧ (s.run events).screen.content = s.screen.content := by
  -- each piece stands behind the line that the pieces before it have left
  induction h generalizing s with
  | nil => exact .inr ⟨rfl, rfl⟩
  | key symbol rest ih =>
    have htakes : (s.step (.click (.key symbol))).takesText = true := by simp [takesText_step]
    have hrun := content_run_of_typed (s.content_key symbol) (ih htakes)
    exact .inl hrun
  | type text rest ih =>
    have htakes : (s.step (.type text)).takesText = true := by rwa [takesText_step]
    have hstep : (s.step (.type text)).screen.content = (s.screen.type text).content := by
      rw [content_type, if_pos hs]
    have hrun := content_run_of_typed hstep (ih htakes)
    exact .inl hrun
  | repaint rest ih =>
    have htakes : (s.step .repaint).takesText = true := by rwa [takesText_step]
    have hstep : (s.step .repaint).screen.content = s.screen.content := content_step s .repaint
    have hrun := ih htakes
    rw [← Screen.content_type_content, hstep] at hrun
    exact hrun

theorem traceOpen_run_of_enters (h : Enters word events) :
    (s.run events).traceOpen = s.traceOpen := by
  induction h generalizing s with
  | nil => rfl
  | key symbol rest ih => exact ih.trans (s.traceOpen_step _)
  | type text rest ih => exact ih.trans (s.traceOpen_step _)
  | repaint rest ih => exact ih.trans (s.traceOpen_step _)

/-- Whatever the way of entering a word, it stands behind the old line, and `=` does the same. -/
theorem run_enters (hs : s.hasKeyboard = true ∨ s.screen.wantsKeyboard = true)
    (h : Enters word events) (hword : word ≠ "") :
    (s.run events).screen.content =
      { s.screen.content with display := s.screen.display ++ word, notice := .blank } ∧
    ∀ other, Enters word other →
      (s.run events).step (.click .equals) = (s.run other).step (.click .equals) := by
  have htakes : s.takesText = true := by rwa [takesText, Bool.or_eq_true]
  have hcontent : ∀ way, Enters word way →
      (s.run way).screen.content = (s.screen.type word).content := by
    intro way hway
    rcases content_run_of_enters hway htakes with hrun | ⟨hempty, -⟩
    · exact hrun
    · exact absurd hempty hword
  refine ⟨hcontent events h, ?_⟩
  intro other hother
  obtain ⟨hdisplay, -, hunit, -⟩ :=
    Screen.content_eq_iff.1 ((hcontent events h).trans (hcontent other hother).symm)
  rw [step_equals, step_equals, Screen.calculate_congr hdisplay hunit, traceOpen_run_of_enters h,
    traceOpen_run_of_enters hother]

end Enters

/-- With a key and by typing, or all typed, `12` comes to stand behind `3+`. -/
theorem run_enters_twelve :
    (run {} [.type "3+"]).hasKeyboard = true ∧
      Enters "12" [.click (.key '1'), .repaint, .type "2"] ∧ Enters "12" [.type "12"] ∧
      "12" ≠ "" ∧
      ((run {} [.type "3+"]).run [.click (.key '1'), .repaint, .type "2"]).screen.content =
        { (run {} [.type "3+"]).screen.content with
          display := (run {} [.type "3+"]).screen.display ++ "12", notice := .blank } ∧
      ((run {} [.type "3+"]).run [.click (.key '1'), .repaint, .type "2"]).step (.click .equals) =
        ((run {} [.type "3+"]).run [.type "12"]).step (.click .equals) := by
  have hkeyboard : (run {} [.type "3+"]).hasKeyboard = true := by decide
  have hword : String.singleton '1' ++ ("2" ++ "") = "12" := by decide
  have hpieces : Enters "12" [.click (.key '1'), .repaint, .type "2"] :=
    hword ▸ .key '1' (.repaint (.type "2" .nil))
  have htyped : Enters "12" [.type "12"] := .type "12" .nil
  have hne : "12" ≠ "" := by decide
  obtain ⟨hcontent, hequals⟩ := run_enters (.inl hkeyboard) hpieces hne
  exact ⟨hkeyboard, hpieces, htyped, hne, hcontent, hequals _ htyped⟩

end Session

end Calculator
