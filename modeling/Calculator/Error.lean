/-
  What can go wrong in a calculation, and what the user is told.
-/

namespace Calculator

inductive CalculationError where
  /-- A closing parenthesis without an open one, or an open one that is never closed. -/
  | mismatchedParentheses
  /-- An operator without its two operands, or more or fewer values at the end than one. -/
  | invalidExpression
  /-- An infinity or NaN where a finite result is asked for. -/
  | nonFiniteResult
  /-- A character that no calculation is made of, or no character at all. -/
  | invalidCharacters
  /-- No number at the head of a text that a function is to be applied to. -/
  | numberExpected
deriving DecidableEq

def CalculationError.message : CalculationError → String
  | mismatchedParentheses => "Parenthèses non appariées"
  | invalidExpression => "Expression invalide"
  | nonFiniteResult => "Division par zéro ou résultat invalide"
  | invalidCharacters => "Caractères invalides"
  | numberExpected => "Entrez d’abord un nombre"

/-! ## Steps that may fail, one after the other -/

section Steps

variable {ε α β : Type}

@[simp] theorem ok_bind (a : α) (f : α → Except ε β) : (.ok a >>= f) = f a := rfl

@[simp] theorem error_bind (e : ε) (f : α → Except ε β) : (.error e >>= f) = .error e := rfl

@[simp] theorem pure_eq_ok (a : α) : (pure a : Except ε α) = .ok a := rfl

@[simp] theorem map_ok (a : α) (f : α → β) : (.ok a : Except ε α).map f = .ok (f a) := rfl

@[simp] theorem map_error (e : ε) (f : α → β) : (.error e : Except ε α).map f = .error e := rfl

@[simp] theorem bind_eq_ok_iff {x : Except ε α} {f : α → Except ε β} {b : β} :
    x >>= f = .ok b ↔ ∃ a, x = .ok a ∧ f a = .ok b := by
  cases x with
  | ok a => simp
  | error e => simp

@[simp] theorem bind_eq_error_iff {x : Except ε α} {f : α → Except ε β} {e : ε} :
    x >>= f = .error e ↔ x = .error e ∨ ∃ a, x = .ok a ∧ f a = .error e := by
  cases x with
  | ok a => simp
  | error d => simp

@[simp] theorem map_eq_ok_iff {x : Except ε α} {f : α → β} {b : β} :
    x.map f = .ok b ↔ ∃ a, x = .ok a ∧ f a = b := by
  cases x with
  | ok a => simp
  | error e => simp

@[simp] theorem map_eq_error_iff {x : Except ε α} {f : α → β} {e : ε} :
    x.map f = .error e ↔ x = .error e := by
  cases x with
  | ok a => simp
  | error d => simp

theorem exists_eq_error_iff {x : Except ε α} {f : α → β} :
    (∃ e, x = .error e) ↔ ¬ ∃ b, x.map f = .ok b := by
  cases x with
  | ok a => simp
  | error e => simp

theorem foldlM_cons_eq_ok_iff {f : β → α → Except ε β} {a : α} {l : List α} {b c : β} :
    (a :: l).foldlM f b = .ok c ↔ ∃ next, f b a = .ok next ∧ l.foldlM f next = .ok c := by
  simp

/-- Steps fail at the first of them that does. -/
theorem foldlM_eq_error_iff {f : β → α → Except ε β} {l : List α} {b : β} {e : ε} :
    l.foldlM f b = .error e ↔
      ∃ before a after c, l = before ++ a :: after ∧ before.foldlM f b = .ok c ∧
        f c a = .error e := by
  constructor
  · intro h
    induction l generalizing b with
    | nil => cases h
    | cons a l ih =>
      rw [List.foldlM_cons] at h
      rcases bind_eq_error_iff.1 h with ha | ⟨next, hnext, hl⟩
      · exact ⟨[], a, l, b, rfl, rfl, ha⟩
      · obtain ⟨before, d, after, c, rfl, hbefore, hd⟩ := ih hl
        refine ⟨a :: before, d, after, c, rfl, ?_, hd⟩
        simp [hnext, hbefore]
  · rintro ⟨before, a, after, c, rfl, hbefore, ha⟩
    simp [hbefore, ha]

theorem foldlM_eq_error {f : β → α → Except ε β} {l : List α} {b : β} {e : ε}
    (h : l.foldlM f b = .error e) : ∃ a ∈ l, ∃ c, f c a = .error e := by
  obtain ⟨before, a, after, c, rfl, -, ha⟩ := foldlM_eq_error_iff.1 h
  exact ⟨a, by simp, c, ha⟩

/-- What every step keeps is kept by all of them. -/
theorem foldlM_invariant {f : β → α → Except ε β} {P : β → Prop}
    (hstep : ∀ b a c, f b a = .ok c → P b → P c) {l : List α} {b c : β}
    (h : l.foldlM f b = .ok c) (hb : P b) : P c := by
  induction l generalizing b with
  | nil =>
    obtain rfl := Except.ok.inj h
    exact hb
  | cons a l ih =>
    obtain ⟨next, hnext, hl⟩ := foldlM_cons_eq_ok_iff.1 h
    exact ih hl (hstep b a next hnext hb)

/-- Elements on which no step does anything may be left out. -/
theorem foldlM_filter_of_ok {f : β → α → Except ε β} {p : α → Bool}
    (h : ∀ a, p a = false → ∀ b, f b a = .ok b) (l : List α) (b : β) :
    (l.filter p).foldlM f b = l.foldlM f b := by
  induction l generalizing b with
  | nil => rfl
  | cons a l ih =>
    cases ha : p a with
    | true =>
      rw [List.filter_cons_of_pos ha, List.foldlM_cons, List.foldlM_cons]
      exact congrArg (f b a >>= ·) (funext ih)
    | false => simp [ha, h a ha, ih]

end Steps

end Calculator
