/-
  The line as a stack of characters. Four of the actions edit it, and each takes the notice away and
  makes the new line of the old one alone (`toList_display_perform`); the other four leave the line
  as it is. So the line after any actions is that after the edits among them, and a text that has
  been appended is taken off again by as many steps back as it has characters, whatever is done in
  between that edits nothing (`display_performAll`).
-/
import Calculator.Screen

namespace Calculator.Screen

namespace Action

/-- The actions that change the line. -/
def edits : Action → Bool
  | append _ => true
  | clear => true
  | backspace => true
  | showResult _ _ => true
  | toggleUnit => false
  | clearNotice => false
  | fail _ => false
  | inform _ => false

/-- What an action makes of the characters of the line. -/
def edit (line : List Char) : Action → List Char
  | append text => line ++ text.toList
  | clear => []
  | backspace => line.dropLast
  | showResult text _ => text.toList
  | _ => line

@[simp] theorem edit_of_not_edits {a : Action} (h : a.edits = false) (line : List Char) :
    a.edit line = line := by
  cases a with
  | append text => cases h
  | clear => cases h
  | backspace => cases h
  | showResult text trace => cases h
  | _ => rfl

theorem foldl_edit_filter (line : List Char) (actions : List Action) :
    (actions.filter edits).foldl edit line = actions.foldl edit line := by
  induction actions generalizing line with
  | nil => rfl
  | cons a actions ih =>
    cases ha : a.edits with
    | true => rw [List.filter_cons_of_pos ha, List.foldl_cons, List.foldl_cons, ih]
    | false =>
      rw [List.filter_cons_of_neg (by simp [ha]), List.foldl_cons, edit_of_not_edits ha, ih]

/-- Steps back leave a front part of the line, and an empty line as it is. -/
theorem foldl_edit_backspace (line : List Char) (n : Nat) :
    (List.replicate n backspace).foldl edit line = line.take (line.length - n) := by
  induction n generalizing line with
  | zero => simp
  | succ n ih =>
    rw [List.replicate_succ, List.foldl_cons, ih, edit, List.length_dropLast,
      List.dropLast_eq_take, List.take_take]
    congr 1
    omega

/-- As many steps back as a text has characters take it off the line. -/
theorem foldl_edit_undo (line : List Char) (text : String) :
    (append text :: List.replicate text.length backspace).foldl edit line = line := by
  rw [List.foldl_cons, foldl_edit_backspace, edit, List.length_append, String.length_toList,
    Nat.add_sub_cancel, List.take_left]

end Action

/-- The screen after a list of actions. -/
def performAll (s : Screen) (actions : List Action) : Screen := actions.foldl perform s

@[simp] theorem toList_display_perform (s : Screen) (a : Action) :
    (s.perform a).display.toList = a.edit s.display.toList := by
  cases a with
  | append text => exact String.toList_append
  | backspace => exact String.toList_ofList
  | _ => rfl

theorem display_perform_of_not_edits {a : Action} (h : a.edits = false) (s : Screen) :
    (s.perform a).display = s.display := by
  rw [← String.toList_inj]
  simp [h]

/-- Whatever edits the line takes the notice away. -/
theorem notice_perform_of_edits {a : Action} (h : a.edits = true) (s : Screen) :
    (s.perform a).notice = .blank := by
  cases a with
  | toggleUnit => cases h
  | clearNotice => cases h
  | fail text => cases h
  | inform text => cases h
  | _ => rfl

theorem toList_display_performAll (s : Screen) (actions : List Action) :
    (s.performAll actions).display.toList = actions.foldl Action.edit s.display.toList := by
  induction actions generalizing s with
  | nil => rfl
  | cons a actions ih =>
    rw [List.foldl_cons, ← toList_display_perform]
    exact ih (s.perform a)

/-- The line after any actions is what their edits make, one after the other, of the characters of
the line before: whatever else is left out, and on whatever screen. It is the line before if the
edits are a text and the steps back over it. -/
theorem display_performAll (s : Screen) (actions : List Action) :
    (s.performAll actions).display.toList = actions.foldl Action.edit s.display.toList ∧
    (∀ t : Screen, t.display = s.display →
      (s.performAll actions).display = (t.performAll (actions.filter Action.edits)).display) ∧
    ∀ text : String,
      actions.filter Action.edits = .append text :: .replicate text.length .backspace →
        (s.performAll actions).display = s.display := by
  refine ⟨toList_display_performAll s actions, ?_, ?_⟩
  · intro t ht
    rw [← String.toList_inj, toList_display_performAll, toList_display_performAll,
      Action.foldl_edit_filter, ht]
  · intro text hedits
    rw [← String.toList_inj, toList_display_performAll, ← Action.foldl_edit_filter, hedits,
      Action.foldl_edit_undo]

/-- Two characters, of two and four bytes, are appended and taken off, with other actions before,
between and after. -/
theorem display_performAll_undo :
    [Action.inform "?", .append "é😀", .toggleUnit, .backspace, .fail "!", .clearNotice, .backspace,
        .toggleUnit].filter Action.edits = .append "é😀" :: .replicate "é😀".length .backspace ∧
      (performAll { display := "1+" } [.inform "?", .append "é😀", .toggleUnit, .backspace,
        .fail "!", .clearNotice, .backspace, .toggleUnit]).display = "1+" := by
  have hedits : [Action.inform "?", .append "é😀", .toggleUnit, .backspace, .fail "!", .clearNotice,
      .backspace, .toggleUnit].filter Action.edits =
        .append "é😀" :: .replicate "é😀".length .backspace := by decide
  exact ⟨hedits, (display_performAll { display := "1+" } _).2.2 "é😀" hedits⟩

end Calculator.Screen
