/-
  Parentheses that match. The parentheses of a text, taken as steps up and down, must form a Dyck
  word; how many are open at a place is then the height of the walk there. The conversion to
  postfix order follows that walk with the open parentheses among what waits
  (`foldlM_step_openCount`), whatever the other tokens are. So it succeeds exactly on balanced
  tokens (`exists_ofInfix_eq_ok_iff`) and has one error only (`ofInfix_eq_error`).
-/
import Calculator.Proofs.Postfix.Conversion
import Calculator.Proofs.Token.Lexer

namespace Calculator

open DyckStep

/-! ## Walks -/

/-- The steps are those of a Dyck word. -/
def IsBalanced (steps : List DyckStep) : Prop := ∃ word : DyckWord, word.toList = steps

/-- One step of a walk that must not go below the ground. -/
def climb (height : Nat) : DyckStep → Except CalculationError Nat
  | U => .ok (height + 1)
  | D => if height = 0 then .error .mismatchedParentheses else .ok (height - 1)

theorem climb_eq_error {height : Nat} {s : DyckStep} {e : CalculationError}
    (h : climb height s = .error e) : e = .mismatchedParentheses := by
  unfold climb at h
  split at h
  · cases h
  · split at h
    · exact (Except.error.inj h).symm
    · cases h

theorem forall_take_cons {α : Type} (P : List α → Prop) (a : α) (l : List α) :
    (∀ i, P ((a :: l).take i)) ↔ P [] ∧ ∀ i, P (a :: l.take i) := by
  constructor
  · intro h
    exact ⟨h 0, fun i => h (i + 1)⟩
  · rintro ⟨hnil, hcons⟩ i
    cases i with
    | zero => exact hnil
    | succ i => exact hcons i

/-- A walk ends at a height if no part of it goes below the ground and the steps add up. -/
theorem foldlM_climb_eq_ok_iff {steps : List DyckStep} {height last : Nat} :
    steps.foldlM climb height = .ok last ↔
      (∀ i, (steps.take i).count D ≤ height + (steps.take i).count U) ∧
        last + steps.count D = height + steps.count U := by
  induction steps generalizing height with
  | nil =>
    simp [eq_comm]
  | cons s steps ih =>
    rw [List.foldlM_cons, forall_take_cons (fun p => p.count D ≤ height + p.count U)]
    cases s with
    | U => simp [climb, ih, Nat.add_assoc, Nat.add_comm 1]
    | D =>
      by_cases hz : height = 0
      · refine iff_of_false (by simp [climb, hz]) ?_
        rintro ⟨⟨-, hpre⟩, -⟩
        simpa [hz] using hpre 0
      · rw [climb, if_neg hz, ok_bind, ih]
        have hpre : ∀ i, (D :: steps.take i).count D ≤ height + (D :: steps.take i).count U ↔
            (steps.take i).count D ≤ height - 1 + (steps.take i).count U := by
          intro i
          simp
          omega
        simp only [hpre]
        simp
        omega

theorem isBalanced_iff {steps : List DyckStep} :
    IsBalanced steps ↔ steps.foldlM climb 0 = .ok 0 := by
  rw [foldlM_climb_eq_ok_iff]
  constructor
  · rintro ⟨word, rfl⟩
    refine ⟨?_, ?_⟩
    · intro i
      rw [Nat.zero_add]
      exact word.count_D_le_count_U i
    · rw [word.count_U_eq_count_D]
  · rintro ⟨hpre, hsum⟩
    refine ⟨⟨steps, by omega, ?_⟩, rfl⟩
    intro i
    have := hpre i
    omega

theorem IsBalanced.append {steps others : List DyckStep} (h : IsBalanced steps)
    (hothers : IsBalanced others) : IsBalanced (steps ++ others) := by
  obtain ⟨word, rfl⟩ := h
  obtain ⟨other, rfl⟩ := hothers
  exact ⟨word + other, rfl⟩

/-! ## The walk of a conversion -/

namespace Postfix.Conversion

/-- How many parentheses are open. -/
def openCount (state : Conversion) : Nat := state.pending.count .paren

theorem openCount_flush (op : Operator) (written : List Token) (pending : List Pending) :
    (flush op written pending).openCount = pending.count .paren := by
  induction pending generalizing written with
  | nil => rfl
  | cons top rest ih =>
    cases top with
    | paren => rfl
    | operator top =>
      by_cases hy : op.yieldsTo top = true
      · simp [flush, hy, ih]
      · simp [flush, hy, openCount]

theorem openCount_close (written : List Token) (pending : List Pending) :
    (close written pending).map openCount = climb (pending.count .paren) D := by
  induction pending generalizing written with
  | nil => rfl
  | cons top rest ih =>
    cases top with
    | paren => simp [close, climb, openCount]
    | operator top => simp [close, ih]

theorem finish_eq (written : List Token) (pending : List Pending) :
    (finish written pending).map (fun _ => ()) =
      if pending.count .paren = 0 then .ok () else .error .mismatchedParentheses := by
  induction pending generalizing written with
  | nil => rfl
  | cons top rest ih =>
    cases top with
    | paren => simp [finish]
    | operator top => simp [finish, ih]

theorem step_openCount (state : Conversion) (t : Token) :
    (step state t).map openCount = t.paren?.toList.foldlM climb state.openCount := by
  cases t with
  | number literal =>
    cases hread : Decimal.readLiteral? literal with
    | none => simp [step, hread]
    | some x => simp [step, hread, openCount]
  | operator symbol =>
    cases hfind : Operator.find? symbol with
    | none => simp [step, hfind]
    | some op =>
      have hflush := openCount_flush op state.written state.pending
      simpa [step, hfind, openCount] using hflush
  | leftParen => simp [step, climb, openCount]
  | rightParen =>
    have hclose := openCount_close state.written state.pending
    rw [step, hclose]
    exact (bind_pure _).symm

theorem foldlM_step_openCount (state : Conversion) (ts : List Token) :
    (ts.foldlM step state).map openCount =
      (ts.filterMap Token.paren?).foldlM climb state.openCount := by
  induction ts generalizing state with
  | nil => rfl
  | cons t ts ih =>
    rw [filterMap_cons_eq, List.foldlM_append, ← step_openCount, List.foldlM_cons]
    cases step state t with
    | error e => simp
    | ok next => simp [ih]

end Postfix.Conversion

namespace Postfix

open Conversion

/-- Whether tokens can be converted is a matter of the walk of their parentheses. -/
theorem ofInfix_eq_walk (ts : List Token) :
    (ofInfix ts).map (fun _ => ()) =
      (ts.filterMap Token.paren?).foldlM climb 0 >>= fun height =>
        if height = 0 then .ok () else .error .mismatchedParentheses := by
  have hwalk : (ts.foldlM step start).map openCount =
      (ts.filterMap Token.paren?).foldlM climb 0 := foldlM_step_openCount start ts
  rw [← hwalk, ofInfix]
  cases ts.foldlM step start with
  | error e => simp
  | ok last => simp [finish_eq, openCount]

theorem ofInfix_eq_error {ts : List Token} {e : CalculationError} (h : ofInfix ts = .error e) :
    e = .mismatchedParentheses := by
  have hwalk := ofInfix_eq_walk ts
  rw [h] at hwalk
  rcases bind_eq_error_iff.1 hwalk.symm with hsteps | ⟨height, -, hheight⟩
  · obtain ⟨s, -, height, hs⟩ := foldlM_eq_error hsteps
    exact climb_eq_error hs
  · by_cases hz : height = 0
    · rw [if_pos hz] at hheight
      cases hheight
    · rw [if_neg hz] at hheight
      exact (Except.error.inj hheight).symm

theorem exists_ofInfix_eq_ok_iff {ts : List Token} :
    (∃ ps, ofInfix ts = .ok ps) ↔ IsBalanced (ts.filterMap Token.paren?) := by
  have hwalk := ofInfix_eq_walk ts
  rw [isBalanced_iff]
  constructor
  · rintro ⟨ps, hps⟩
    rw [hps] at hwalk
    obtain ⟨height, hsteps, hheight⟩ := bind_eq_ok_iff.1 hwalk.symm
    by_cases hz : height = 0
    · rw [hsteps, hz]
    · rw [if_neg hz] at hheight
      cases hheight
  · intro hsteps
    have hdone : (ofInfix ts).map (fun _ => ()) = .ok () := by simp [hwalk, hsteps]
    obtain ⟨ps, hps, -⟩ := map_eq_ok_iff.1 hdone
    exact ⟨ps, hps⟩

end Postfix

end Calculator
