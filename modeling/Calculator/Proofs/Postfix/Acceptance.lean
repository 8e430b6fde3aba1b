/-
  Which postfix lists have a value, and how the others fail. A list has a value if, tokens without
  meaning apart, it is the postfix order of a tree (`value_eq_ok_iff`); and it is that of one tree
  only, since a postfix order can be taken back from its end (`append_postorder_inj`).

  Main statement: `value_classification`. Without parentheses there is one error for all lists that
  have no tree. A parenthesis is an error of its own, unless an operator before it has found fewer
  than two values (`Underflows`), which can be told by counting (`underflows_iff_count`).
-/
import Calculator.Proofs.Postfix.Reduction
import Calculator.Proofs.Token.Lexer

namespace Calculator

/-! ## Operands and operators -/

/-- How many literals can be read. -/
def operandCount (ts : List Token) : Nat := ts.countP fun t => t.isKnown && t.isNumber

/-- How many operators are in the table. -/
def operatorCount (ts : List Token) : Nat := ts.countP fun t => t.isKnown && t.isOperator

@[simp] theorem operandCount_append (ts us : List Token) :
    operandCount (ts ++ us) = operandCount ts + operandCount us := List.countP_append

@[simp] theorem operatorCount_append (ts us : List Token) :
    operatorCount (ts ++ us) = operatorCount ts + operatorCount us := List.countP_append

section Cons

variable {op : Operator} (known : op ∈ Operator.table) (l : Literal) (ts : List Token)

@[simp] theorem operandCount_operator (symbol : Char) :
    operandCount (.operator symbol :: ts) = operandCount ts := by
  simp [operandCount]

include known in
@[simp] theorem operatorCount_operator :
    operatorCount (.operator op.symbol :: ts) = operatorCount ts + 1 := by
  simp [operatorCount, known]

@[simp] theorem operandCount_number :
    operandCount (.number l.text :: ts) = operandCount ts + 1 := by
  simp [operandCount]

@[simp] theorem operatorCount_number :
    operatorCount (.number l.text :: ts) = operatorCount ts := by
  simp [operatorCount]

variable {t : Token} (hun : t.isKnown = false)
include hun

@[simp] theorem operandCount_unknown : operandCount (t :: ts) = operandCount ts := by
  simp [operandCount, hun]

@[simp] theorem operatorCount_unknown : operatorCount (t :: ts) = operatorCount ts := by
  simp [operatorCount, hun]

end Cons

/-! ## The tree of a postfix order -/

theorem Literal.eq_of_text {l m : Literal} (h : l.text = m.text) : l = m := by
  obtain ⟨text, x, hx⟩ := l
  obtain ⟨_, y, hy⟩ := m
  subst h
  obtain rfl : x = y := Option.some.inj (hx.symm.trans hy)
  rfl

theorem Operator.eq_of_symbol {op other : Operator} (known : op ∈ table) (hother : other ∈ table)
    (h : op.symbol = other.symbol) : op = other := by
  have hfind := find?_symbol known
  rw [h, find?_symbol hother] at hfind
  exact (Option.some.inj hfind).symm

namespace Expression

/-- The last token is the root of the tree, the right operand ends before it, and the left one
before that. -/
theorem append_postorder_inj {e f : Expression} {us vs : List Token}
    (h : us ++ e.postorder = vs ++ f.postorder) : us = vs ∧ e = f := by
  induction e generalizing f us vs with
  | literal l =>
    cases f with
    | literal m =>
      obtain ⟨hbefore, htext⟩ := List.append_inj' h rfl
      have hlm : l = m := Literal.eq_of_text (by simpa using htext)
      exact ⟨hbefore, congrArg literal hlm⟩
    | binary op known left right =>
      rw [postorder, postorder, ← List.append_assoc] at h
      exact absurd (List.append_inj' h rfl).2 (by simp)
  | binary op known left right ihl ihr =>
    cases f with
    | literal m =>
      rw [postorder, postorder, ← List.append_assoc] at h
      exact absurd (List.append_inj' h rfl).2 (by simp)
    | binary other hother left' right' =>
      simp only [postorder, ← List.append_assoc] at h
      obtain ⟨hoperands, hsymbol⟩ := List.append_inj' h rfl
      obtain rfl : op = other := Operator.eq_of_symbol known hother (by simpa using hsymbol)
      obtain ⟨hleft, rfl⟩ := ihr hoperands
      obtain ⟨hbefore, rfl⟩ := ihl hleft
      exact ⟨hbefore, rfl⟩

theorem postorder_injective {e f : Expression} (h : e.postorder = f.postorder) : e = f :=
  (append_postorder_inj (congrArg ([] ++ ·) h)).2

end Expression

namespace Postfix

/-! ## Lists with a value -/

theorem value_filter_isKnown (ps : List Token) : value (ps.filter Token.isKnown) = value ps := by
  rw [value, value, foldlM_filter_of_ok fun t h stack => reduce_unknown h stack]

theorem value_eq_ok_iff {ps : List Token} {x : Binary64} :
    value ps = .ok x ↔ ∃ e : Expression, ps.filter Token.isKnown = e.postorder ∧ e.value = x := by
  constructor
  · exact exists_of_value_eq_ok
  · rintro ⟨e, he, rfl⟩
    rw [← value_filter_isKnown, he, value_postorder]

/-! ## Steps that fail -/

/-- A token fails on a stack if it is an operator without its two operands, or a parenthesis. -/
theorem reduce_eq_error_iff {stack : List Binary64} {t : Token} {e : CalculationError} :
    reduce stack t = .error e ↔
      (∃ op ∈ Operator.table, t = .operator op.symbol ∧ stack.length < 2 ∧
        e = .invalidExpression) ∨
      t.paren? ≠ none ∧ e = .mismatchedParentheses := by
  cases t with
  | number literal =>
    cases hread : Decimal.readLiteral? literal <;> simp [reduce, hread]
  | operator symbol =>
    simp only [Token.paren?_operator, ne_eq, not_true_eq_false, false_and, or_false,
      Token.operator.injEq]
    cases hfind : Operator.find? symbol with
    | none =>
      refine iff_of_false (by simp [reduce, hfind]) ?_
      rintro ⟨op, known, rfl, -⟩
      simp [known] at hfind
    | some op =>
      obtain ⟨known, rfl⟩ := Operator.find?_eq_some_iff.1 hfind
      have hop : (∃ other ∈ Operator.table, op.symbol = other.symbol ∧ stack.length < 2 ∧
          e = .invalidExpression) ↔ stack.length < 2 ∧ e = .invalidExpression := by
        constructor
        · rintro ⟨other, -, -, h⟩
          exact h
        · intro h
          exact ⟨op, known, rfl, h⟩
      rw [hop]
      rcases stack with _ | ⟨b, _ | ⟨a, rest⟩⟩
      · simp [reduce, hfind, eq_comm]
      · simp [reduce, hfind, eq_comm]
      · simp [reduce, hfind]
  | leftParen => simp [reduce, eq_comm]
  | rightParen => simp [reduce, eq_comm]

theorem value_of_foldlM_eq_error {ps : List Token} {e : CalculationError}
    (h : ps.foldlM reduce [] = .error e) : value ps = .error e := by
  simp [value, h]

/-- Some operator of the table finds fewer than two values when its turn comes. -/
def Underflows (ps : List Token) : Prop :=
  ∃ before op after stack, ps = before ++ .operator op.symbol :: after ∧ op ∈ Operator.table ∧
    before.foldlM reduce [] = .ok stack ∧ stack.length < 2

theorem Underflows.foldlM_eq_error {ps : List Token} (h : Underflows ps) :
    ps.foldlM reduce [] = .error .invalidExpression := by
  obtain ⟨before, op, after, stack, rfl, known, hbefore, hlt⟩ := h
  have hop : reduce stack (.operator op.symbol) = .error .invalidExpression :=
    reduce_eq_error_iff.2 (.inl ⟨op, known, rfl, hlt, rfl⟩)
  exact foldlM_eq_error_iff.2 ⟨before, _, after, stack, rfl, hbefore, hop⟩

theorem Underflows.append {ps : List Token} (h : Underflows ps) (qs : List Token) :
    Underflows (ps ++ qs) := by
  obtain ⟨before, op, after, stack, rfl, hop⟩ := h
  exact ⟨before, op, after ++ qs, stack, by simp, hop⟩

section NoParens

variable {ps : List Token} (hps : ∀ t ∈ ps, t.paren? = none)
include hps

theorem underflows_of_foldlM_eq_error {e : CalculationError}
    (h : ps.foldlM reduce [] = .error e) : Underflows ps := by
  obtain ⟨before, t, after, stack, rfl, hbefore, ht⟩ := foldlM_eq_error_iff.1 h
  rcases reduce_eq_error_iff.1 ht with ⟨op, known, rfl, hlt, -⟩ | ⟨hparen, -⟩
  · exact ⟨before, op, after, stack, rfl, known, hbefore, hlt⟩
  · exact absurd (hps t (by simp)) hparen

theorem exists_foldlM_of_not_underflows (h : ¬ Underflows ps) :
    ∃ stack, ps.foldlM reduce [] = .ok stack := by
  cases hfold : ps.foldlM reduce [] with
  | ok stack => exact ⟨stack, rfl⟩
  | error e => exact absurd (underflows_of_foldlM_eq_error hps hfold) h

theorem value_eq_error {e : CalculationError} (h : value ps = .error e) :
    e = .invalidExpression := by
  unfold value at h
  rcases bind_eq_error_iff.1 h with hfold | ⟨stack, -, hstack⟩
  · have hunder := (underflows_of_foldlM_eq_error hps hfold).foldlM_eq_error
    exact Except.error.inj (hfold.symm.trans hunder)
  · split at hstack
    · cases hstack
    · exact (Except.error.inj hstack).symm

theorem value_eq_invalid (h : ¬ ∃ e : Expression, ps.filter Token.isKnown = e.postorder) :
    value ps = .error .invalidExpression := by
  cases hvalue : value ps with
  | ok x =>
    obtain ⟨e, he, -⟩ := value_eq_ok_iff.1 hvalue
    exact absurd ⟨e, he⟩ h
  | error e => rw [value_eq_error hps hvalue]

end NoParens

/-! ## Values by counting -/

/-- A literal adds a value to the stack, and an operator takes one away. -/
theorem length_add_operatorCount {ps : List Token} {stack after : List Binary64}
    (h : ps.foldlM reduce stack = .ok after) :
    after.length + operatorCount ps = stack.length + operandCount ps := by
  induction ps generalizing stack with
  | nil =>
    obtain rfl : stack = after := Except.ok.inj h
    rfl
  | cons t ps ih =>
    obtain ⟨middle, ht, hps⟩ := foldlM_cons_eq_ok_iff.1 h
    have hrest := ih hps
    rcases reduce_eq_ok ht with ⟨hun, rfl⟩ | ⟨l, rfl, rfl⟩ | ⟨op, known, a, b, rest, rfl, rfl, rfl⟩
    · simpa [hun] using hrest
    · simp at hrest ⊢
      omega
    · simp [known] at hrest ⊢
      omega

theorem underflows_iff_count {ps : List Token} (hps : ∀ t ∈ ps, t.paren? = none) :
    Underflows ps ↔ ∃ before op after, ps = before ++ .operator op.symbol :: after ∧
      op ∈ Operator.table ∧ operandCount before < operatorCount before + 2 := by
  constructor
  · rintro ⟨before, op, after, stack, rfl, known, hbefore, hlt⟩
    have hlength := length_add_operatorCount hbefore
    rw [List.length_nil] at hlength
    exact ⟨before, op, after, rfl, known, by omega⟩
  · rintro ⟨before, op, after, rfl, known, hcount⟩
    -- an operator before this one may be the first that finds too few values
    by_cases hearlier : Underflows before
    · exact hearlier.append _
    · obtain ⟨stack, hbefore⟩ := exists_foldlM_of_not_underflows
        (fun t ht => hps t (List.mem_append_left _ ht)) hearlier
      have hlength := length_add_operatorCount hbefore
      rw [List.length_nil] at hlength
      exact ⟨before, op, after, stack, rfl, known, hbefore, by omega⟩

/-! ## All lists -/

/-- The first parenthesis is the end of a list, if it is reached. -/
theorem value_append_paren {before : List Token} (hbefore : ∀ u ∈ before, u.paren? = none)
    {t : Token} (ht : t.paren? ≠ none) (after : List Token) :
    (Underflows before → value (before ++ t :: after) = .error .invalidExpression) ∧
      (¬ Underflows before → value (before ++ t :: after) = .error .mismatchedParentheses) := by
  constructor
  · intro hunder
    exact value_of_foldlM_eq_error (hunder.append (t :: after)).foldlM_eq_error
  · intro hreached
    obtain ⟨stack, hstack⟩ := exists_foldlM_of_not_underflows hbefore hreached
    have hparen : reduce stack t = .error .mismatchedParentheses :=
      reduce_eq_error_iff.2 (.inr ⟨ht, rfl⟩)
    exact value_of_foldlM_eq_error
      (foldlM_eq_error_iff.2 ⟨before, t, after, stack, rfl, hstack, hparen⟩)

/-- The value of a postfix list is that of its one tree; a list without parentheses that has no tree
fails, and a list with parentheses fails before the first of them or there. -/
theorem value_classification (ps : List Token) :
    ((∀ t ∈ ps, t.paren? = none) →
      (∀ x, value ps = .ok x ↔
        ∃ e : Expression, ps.filter Token.isKnown = e.postorder ∧ e.value = x) ∧
      (∀ e f : Expression, ps.filter Token.isKnown = e.postorder →
        ps.filter Token.isKnown = f.postorder → e = f) ∧
      ((¬ ∃ e : Expression, ps.filter Token.isKnown = e.postorder) →
        value ps = .error .invalidExpression)) ∧
    ∀ before t after, ps = before ++ t :: after → (∀ u ∈ before, u.paren? = none) →
      t.paren? ≠ none →
      (Underflows before → value ps = .error .invalidExpression) ∧
      (¬ Underflows before → value ps = .error .mismatchedParentheses) ∧
      (Underflows before ↔ ∃ us op vs, before = us ++ .operator op.symbol :: vs ∧
        op ∈ Operator.table ∧ operandCount us < operatorCount us + 2) := by
  constructor
  · intro hps
    refine ⟨fun x => value_eq_ok_iff, ?_, value_eq_invalid hps⟩
    intro e f he hf
    exact Expression.postorder_injective (he.symm.trans hf)
  · rintro before t after rfl hbefore ht
    obtain ⟨hunder, hreached⟩ := value_append_paren hbefore ht after
    exact ⟨hunder, hreached, underflows_iff_count hbefore⟩

/-- In `2 . 3 -` the lone point is skipped, and the tree is that of `2-3`. Before the parenthesis,
an operator finds one value in `2 + (`, and two in `2 3 + (`. -/
theorem value_classification_difference :
    (∀ t ∈ [Token.number ['2'], .number ['.'], .number ['3'], .operator '-'], t.paren? = none) ∧
      value [.number ['2'], .number ['.'], .number ['3'], .operator '-'] =
        .ok (.ofBits 0xBFF0000000000000) ∧
      value [.number ['2'], .operator '+', .leftParen] = .error .invalidExpression ∧
      value [.number ['2'], .number ['3'], .operator '+', .leftParen] =
        .error .mismatchedParentheses := by
  have plus : (⟨'+', 1, .left⟩ : Operator) ∈ Operator.table := by decide
  have minus : (⟨'-', 1, .left⟩ : Operator) ∈ Operator.table := by decide
  let two : Literal := ⟨['2'], .ofBits 0x4000000000000000, by decide +kernel⟩
  let three : Literal := ⟨['3'], .ofBits 0x4008000000000000, by decide +kernel⟩
  have hplain : ∀ t ∈ [Token.number ['2'], .number ['.'], .number ['3'], .operator '-'],
      t.paren? = none := by decide
  have hkept : [Token.number ['2'], .number ['.'], .number ['3'], .operator '-'].filter
      Token.isKnown = [.number ['2'], .number ['3'], .operator '-'] := by decide +kernel
  have hminus : Operator.apply ⟨'-', 1, .left⟩ (.ofBits 0x4000000000000000)
      (.ofBits 0x4008000000000000) = .ofBits 0xBFF0000000000000 := by decide +kernel
  have hvalue := (((value_classification _).1 hplain).1 (.ofBits 0xBFF0000000000000)).2
    ⟨.binary _ minus (.literal two) (.literal three), hkept, hminus⟩
  have hone : operandCount [.number ['2']] < operatorCount [.number ['2']] + 2 := by
    decide +kernel
  have htwo : [Token.number ['2'], .number ['3'], .operator '+'].foldlM reduce [] =
      .ok [.ofBits 0x4014000000000000] := by decide +kernel
  have hunder := (value_classification [.number ['2'], .operator '+', .leftParen]).2
    [.number ['2'], .operator '+'] .leftParen [] rfl (by decide) (by decide)
  have hreached := (value_classification [.number ['2'], .number ['3'], .operator '+',
    .leftParen]).2 [.number ['2'], .number ['3'], .operator '+'] .leftParen [] rfl (by decide)
      (by decide)
  refine ⟨hplain, hvalue, hunder.1 (hunder.2.2.2 ⟨[.number ['2']], _, [], rfl, plus, hone⟩),
    hreached.2.1 ?_⟩
  intro hfails
  rw [hfails.foldlM_eq_error] at htwo
  cases htwo

end Postfix

end Calculator
