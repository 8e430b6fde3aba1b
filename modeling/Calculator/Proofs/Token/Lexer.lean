/-
  What a text and its tokens have in common, character by character: they have the same
  parentheses (`filterMap_paren?_tokenize`), and a text holds only blanks and the characters of
  arithmetic exactly when its tokens are literals, parentheses and operators of the table
  (`forall_isArithmetic_tokenize`).
-/
import Mathlib.Combinatorics.Enumerative.DyckWord
import Calculator.Evaluation
import Calculator.Proofs.Expression

namespace Calculator

open DyckStep

/-! ## Parentheses -/

/-- The step that a character is, if it is a parenthesis. -/
def parenOfChar? (c : Char) : Option DyckStep :=
  if c = '(' then some U else if c = ')' then some D else none

/-- The step that a token is, if it is a parenthesis. -/
def Token.paren? : Token → Option DyckStep
  | number _ => none
  | operator _ => none
  | leftParen => some U
  | rightParen => some D

section Equations

variable (literal : List Char) (symbol : Char)

@[simp] theorem Token.paren?_number : (number literal).paren? = none := by rfl

@[simp] theorem Token.paren?_operator : (operator symbol).paren? = none := by rfl

@[simp] theorem Token.paren?_paren : leftParen.paren? = some U ∧ rightParen.paren? = some D :=
  ⟨rfl, rfl⟩

end Equations

theorem filterMap_cons_eq {α β : Type} (f : α → Option β) (a : α) (l : List α) :
    (a :: l).filterMap f = (f a).toList ++ l.filterMap f := by
  rw [List.filterMap_cons]
  cases f a <;> rfl

theorem count_filterMap_paren? (ts : List Token) :
    (ts.filterMap Token.paren?).count U = ts.count .leftParen ∧
      (ts.filterMap Token.paren?).count D = ts.count .rightParen := by
  rw [List.count_filterMap, List.count_filterMap]
  constructor
  · refine List.countP_congr fun t _ => ?_
    cases t <;> simp
  · refine List.countP_congr fun t _ => ?_
    cases t <;> simp

@[simp] theorem parenOfChar?_of_isBlank {c : Char} (h : isBlank c = true) :
    parenOfChar? c = none := by
  have hl : c ≠ '(' := by rintro rfl; revert h; decide
  have hr : c ≠ ')' := by rintro rfl; revert h; decide
  simp [parenOfChar?, hl, hr]

@[simp] theorem parenOfChar?_of_isNumeral {c : Char} (h : isNumeral c = true) :
    parenOfChar? c = none := by
  have hl : c ≠ '(' := by rintro rfl; revert h; decide
  have hr : c ≠ ')' := by rintro rfl; revert h; decide
  simp [parenOfChar?, hl, hr]

@[simp] theorem paren?_ofSymbol (c : Char) : (Token.ofSymbol c).paren? = parenOfChar? c := by
  unfold Token.ofSymbol parenOfChar?
  split
  · rfl
  · split <;> rfl

theorem filterMap_paren?_consChar (c : Char) (ts : List Token) :
    (Token.consChar c ts).filterMap Token.paren? =
      (parenOfChar? c).toList ++ ts.filterMap Token.paren? := by
  unfold Token.consChar
  by_cases hn : isNumeral c = true
  · rw [if_pos hn, parenOfChar?_of_isNumeral hn]
    split <;> rfl
  · rw [if_neg hn, filterMap_cons_eq, paren?_ofSymbol]

/-- Cutting a text into tokens keeps its parentheses. -/
theorem filterMap_paren?_tokenize (cs : List Char) :
    (tokenize cs).filterMap Token.paren? = cs.filterMap parenOfChar? := by
  unfold tokenize
  induction cs with
  | nil => rfl
  | cons c cs ih =>
    rw [filterMap_cons_eq, ← ih]
    by_cases hb : isBlank c = true
    · simp [hb]
    · rw [List.filter_cons_of_pos (by simp [hb]), List.foldr_cons, filterMap_paren?_consChar]

/-! ## The characters of arithmetic -/

/-- Whether a token belongs to arithmetic: any literal, an operator of the table, or a
parenthesis. -/
def Token.isArithmetic : Token → Bool
  | number _ => true
  | operator symbol => (Operator.find? symbol).isSome
  | leftParen => true
  | rightParen => true

section Equations

variable (literal : List Char) (symbol : Char)

@[simp] theorem Token.isArithmetic_number : (number literal).isArithmetic = true := by rfl

@[simp] theorem Token.isArithmetic_operator :
    (operator symbol).isArithmetic = (Operator.find? symbol).isSome := by rfl

@[simp] theorem Token.isArithmetic_paren :
    leftParen.isArithmetic = true ∧ rightParen.isArithmetic = true := ⟨rfl, rfl⟩

end Equations

theorem Token.isArithmetic_of_isKnown {t : Token} (h : t.isKnown = true) :
    t.isArithmetic = true := by
  cases t with
  | number literal => rfl
  | operator symbol => exact h
  | leftParen => rfl
  | rightParen => rfl

@[simp] theorem isArithmetic_of_isNumeral {c : Char} (h : isNumeral c = true) :
    isArithmetic c = true := by
  simp only [isNumeral, Bool.or_eq_true, decide_eq_true_eq] at h
  rcases h with h | rfl
  · simp [isArithmetic, h]
  · decide

theorem isSome_find? (symbol : Char) :
    (Operator.find? symbol).isSome = decide (symbol ∈ ['+', '-', '*', '/']) := by
  rw [Bool.eq_iff_iff, Operator.find?, List.find?_isSome]
  simp [Operator.table, @eq_comm _ symbol]

theorem isArithmetic_ofSymbol {c : Char} (h : ¬ isNumeral c = true) :
    (Token.ofSymbol c).isArithmetic = isArithmetic c := by
  have hdigit : c.isDigit = false := by
    simp only [isNumeral, Bool.or_eq_true, not_or, Bool.not_eq_true] at h
    exact h.1
  have hpoint : c ≠ '.' := by
    rintro rfl
    exact h (by decide)
  unfold Token.ofSymbol
  by_cases hl : c = '('
  · subst hl
    decide
  · by_cases hr : c = ')'
    · subst hr
      decide
    · rw [if_neg hl, if_neg hr, Token.isArithmetic_operator, isSome_find?]
      simp [isArithmetic, hdigit, hpoint, hl, hr]

theorem forall_isArithmetic_consChar (c : Char) (ts : List Token) :
    (∀ t ∈ Token.consChar c ts, t.isArithmetic = true) ↔
      isArithmetic c = true ∧ ∀ t ∈ ts, t.isArithmetic = true := by
  unfold Token.consChar
  by_cases hn : isNumeral c = true
  · rw [if_pos hn]
    split <;> simp [hn]
  · rw [if_neg hn, List.forall_mem_cons, isArithmetic_ofSymbol hn]

theorem forall_isArithmetic_tokenize (cs : List Char) :
    (∀ t ∈ tokenize cs, t.isArithmetic = true) ↔
      ∀ c ∈ cs, (isBlank c || isArithmetic c) = true := by
  unfold tokenize
  induction cs with
  | nil => simp
  | cons c cs ih =>
    rw [List.forall_mem_cons, ← ih]
    by_cases hb : isBlank c = true
    · simp [hb]
    · rw [List.filter_cons_of_pos (by simp [hb]), List.foldr_cons, forall_isArithmetic_consChar]
      simp [hb]

end Calculator
