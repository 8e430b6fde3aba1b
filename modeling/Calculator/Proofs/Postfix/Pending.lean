/-
  What waits during a conversion to postfix order. Only operators of the table are made to wait, and
  one is put on top of another only if it binds tighter (`pending_of_step`): for an operator first
  writes out all those on top that it yields to, and every operator of the table yields to its
  equals. Between two open parentheses there is thus one operator at most of each precedence, and
  what waits is bounded by the number of open parentheses, however long the tokens are
  (`foldlM_step_pending`).
-/
import Mathlib.Data.List.Chain
import Calculator.Proofs.Postfix.Balance

namespace Calculator.Postfix

namespace Pending

/-- Of two neighbours that are both operators, the upper one binds tighter. -/
def BindsTighter : Pending → Pending → Prop
  | operator upper, operator lower => lower.precedence < upper.precedence
  | _, _ => True

/-- How tightly the uppermost of what waits binds, if that is an operator. -/
def topPrecedence : List Pending → Nat
  | operator op :: _ => op.precedence
  | _ => 0

/-- What waits as a token. -/
def token : Pending → Token
  | paren => .leftParen
  | operator op => .operator op.symbol

end Pending

namespace Conversion

/-- The operators that wait are operators of the table. -/
def KnowsPending (state : Conversion) : Prop :=
  ∀ op, Pending.operator op ∈ state.pending → op ∈ Operator.table

/-- The operators that wait are in the table, and each binds tighter than one right below it. -/
structure IsOrdered (state : Conversion) : Prop where
  known : state.KnowsPending
  bindsTighter : state.pending.IsChain Pending.BindsTighter

/-! ## One token -/

theorem flush_suffix (op : Operator) (written : List Token) (pending : List Pending) :
    (flush op written pending).pending <:+ pending := by
  induction pending generalizing written with
  | nil => exact List.suffix_refl []
  | cons top rest ih =>
    cases top with
    | paren => exact List.suffix_refl _
    | operator top =>
      unfold flush
      split_ifs
      · exact (ih (.operator top.symbol :: written)).trans (List.suffix_cons _ rest)
      · exact List.suffix_refl _

/-- Where the writing out ends: at an operator that is not yielded to. -/
theorem yieldsTo_eq_false_of_flush {op top : Operator} {written : List Token}
    {pending : List Pending} (h : .operator top ∈ (flush op written pending).pending.head?) :
    op.yieldsTo top = false := by
  induction pending generalizing written with
  | nil => cases h
  | cons first rest ih =>
    cases first with
    | paren => cases h
    | operator first =>
      unfold flush at h
      split_ifs at h with hy
      · exact ih h
      · obtain rfl : first = top := Pending.operator.inj (Option.some.inj h)
        exact Bool.not_eq_true _ ▸ hy

theorem close_suffix {written : List Token} {pending : List Pending} {next : Conversion}
    (h : close written pending = .ok next) : next.pending <:+ pending := by
  induction pending generalizing written with
  | nil => cases h
  | cons top rest ih =>
    cases top with
    | paren =>
      obtain rfl : ⟨written, rest⟩ = next := Except.ok.inj h
      exact List.suffix_cons _ rest
    | operator top => exact (ih h).trans (List.suffix_cons _ rest)

/-- What a token does to what waits: a part of that stays, and an open parenthesis may come to it, or
an operator of the table that does not yield to what is uppermost then. -/
theorem pending_of_step {state next : Conversion} {t : Token} (h : step state t = .ok next) :
    ∃ rest, rest <:+ state.pending ∧
      (next.pending = rest ∨ next.pending = .paren :: rest ∨
        ∃ op ∈ Operator.table, next.pending = .operator op :: rest ∧
          ∀ top, .operator top ∈ rest.head? → op.yieldsTo top = false) := by
  cases t with
  | number literal =>
    refine ⟨state.pending, List.suffix_refl _, .inl ?_⟩
    cases hread : Decimal.readLiteral? literal with
    | some x =>
      simp only [step, hread, Except.ok.injEq] at h
      rw [← h]
    | none =>
      simp only [step, hread, Except.ok.injEq] at h
      rw [h]
  | operator symbol =>
    cases hfind : Operator.find? symbol with
    | some op =>
      simp only [step, hfind, Except.ok.injEq] at h
      refine ⟨_, flush_suffix op state.written state.pending, .inr (.inr ⟨op, ?_, ?_, ?_⟩)⟩
      · exact (Operator.find?_eq_some_iff.1 hfind).1
      · rw [← h]
      · intro top htop
        exact yieldsTo_eq_false_of_flush htop
    | none =>
      simp only [step, hfind, Except.ok.injEq] at h
      exact ⟨state.pending, List.suffix_refl _, .inl (by rw [h])⟩
  | leftParen =>
    simp only [step, Except.ok.injEq] at h
    exact ⟨state.pending, List.suffix_refl _, .inr (.inl (by rw [← h]))⟩
  | rightParen => exact ⟨next.pending, close_suffix h, .inl rfl⟩

theorem step_known {state next : Conversion} {t : Token} (hstep : step state t = .ok next)
    (h : state.KnowsPending) : next.KnowsPending := by
  intro other hother
  obtain ⟨rest, hsuffix, hpending | hpending | ⟨op, known, hpending, -⟩⟩ := pending_of_step hstep
  · exact h other (hsuffix.subset (hpending ▸ hother))
  · rw [hpending, List.mem_cons] at hother
    exact h other (hsuffix.subset (hother.resolve_left Pending.noConfusion))
  · rw [hpending, List.mem_cons] at hother
    rcases hother with heq | hother
    · rw [Pending.operator.inj heq]
      exact known
    · exact h other (hsuffix.subset hother)

/-- An operator that does not yield to another binds tighter, as equals do not stay. -/
theorem bindsTighter_of_yieldsTo {op : Operator} (known : op ∈ Operator.table)
    {rest : List Pending} (h : ∀ top, .operator top ∈ rest.head? → op.yieldsTo top = false) :
    ∀ p ∈ rest.head?, Pending.BindsTighter (.operator op) p := by
  intro p hp
  cases p with
  | paren => trivial
  | operator top =>
    have hyields := h top hp
    rw [Operator.yieldsTo_eq known, decide_eq_false_iff_not] at hyields
    exact Nat.lt_of_not_le hyields

theorem step_ordered {state next : Conversion} {t : Token} (hstep : step state t = .ok next)
    (h : state.IsOrdered) : next.IsOrdered := by
  refine ⟨step_known hstep h.known, ?_⟩
  obtain ⟨rest, hsuffix, hpending⟩ := pending_of_step hstep
  have hrest := h.bindsTighter.suffix hsuffix
  rcases hpending with hpending | hpending | ⟨op, known, hpending, hyields⟩
  · rwa [hpending]
  · rw [hpending, List.isChain_cons]
    exact ⟨fun p _ => trivial, hrest⟩
  · rw [hpending, List.isChain_cons]
    exact ⟨bindsTighter_of_yieldsTo known hyields, hrest⟩

/-! ## Any tokens -/

theorem foldlM_step_known {ts : List Token} {state last : Conversion}
    (hrun : ts.foldlM step state = .ok last) (h : state.KnowsPending) : last.KnowsPending :=
  foldlM_invariant (fun _ _ _ => step_known) hrun h

theorem isOrdered_start : start.IsOrdered :=
  ⟨fun _ hop => absurd hop List.not_mem_nil, .nil⟩

theorem foldlM_step_ordered {ts : List Token} {state last : Conversion}
    (hrun : ts.foldlM step state = .ok last) (h : state.IsOrdered) : last.IsOrdered :=
  foldlM_invariant (fun _ _ _ => step_ordered) hrun h

end Conversion

/-! ## How much waits -/

namespace Pending

/-- With no open parenthesis between them, the operators that wait bind tighter and tighter towards
the top. -/
theorem pairwise_precedence {pending : List Pending} (hchain : pending.IsChain BindsTighter)
    {ops : List Operator} (hops : ops.map operator <:+: pending) :
    (ops.map Operator.precedence).Pairwise (· > ·) := by
  have hpart : (ops.map operator).IsChain BindsTighter := hchain.infix hops
  rw [List.isChain_map] at hpart
  rw [← List.isChain_iff_pairwise, List.isChain_map]
  exact hpart

theorem topPrecedence_le {pending : List Pending}
    (hknown : ∀ op, operator op ∈ pending → op ∈ Operator.table) : topPrecedence pending ≤ 2 := by
  match pending, hknown with
  | [], _ => exact Nat.zero_le 2
  | paren :: _, _ => exact Nat.zero_le 2
  | operator op :: _, hknown => exact (Operator.precedence_bounds (hknown op List.mem_cons_self)).2

theorem topPrecedence_lt {op : Operator} (known : op ∈ Operator.table) {rest : List Pending}
    (h : ∀ p ∈ rest.head?, BindsTighter (operator op) p) : topPrecedence rest < op.precedence := by
  match rest, h with
  | [], _ => exact (Operator.precedence_bounds known).1
  | paren :: _, _ => exact (Operator.precedence_bounds known).1
  | operator _ :: _, h => exact h _ rfl

/-- Each open parenthesis has two operators below it at most, and those above the last one are no
more than the precedence of the uppermost tells. -/
theorem length_le {pending : List Pending} (hchain : pending.IsChain BindsTighter)
    (hknown : ∀ op, operator op ∈ pending → op ∈ Operator.table) :
    pending.length ≤ 3 * pending.count paren + topPrecedence pending := by
  induction pending with
  | nil => exact Nat.zero_le _
  | cons p rest ih =>
    obtain ⟨hhead, hrest⟩ := List.isChain_cons.1 hchain
    have hknownRest : ∀ op, operator op ∈ rest → op ∈ Operator.table := fun op hop =>
      hknown op (List.mem_cons_of_mem p hop)
    have hle := ih hrest hknownRest
    -- the precedence on top bounds the operators since the last parenthesis, which counts anew
    cases p with
    | paren =>
      have htop := topPrecedence_le hknownRest
      rw [List.length_cons, List.count_cons_self]
      omega
    | operator op =>
      have htop := topPrecedence_lt (hknown op List.mem_cons_self) hhead
      rw [List.length_cons, List.count_cons_of_ne (by simp), topPrecedence]
      omega

end Pending

namespace Conversion

/-! ## Operators looked up -/

/-- The writing out of the operators that `op` yields to, where they wait as tokens and are looked
up in the table one by one; none if one of them is not there. -/
def flushTokens? (op : Operator) (written : List Token) :
    List Token → Option (List Token × List Token)
  | .operator symbol :: rest =>
    match Operator.find? symbol with
    | some top =>
      if op.yieldsTo top then flushTokens? op (.operator symbol :: written) rest
      else some (written, .operator symbol :: rest)
    | none => none
  | waiting => some (written, waiting)

theorem flushTokens?_eq {pending : List Pending}
    (hknown : ∀ o, Pending.operator o ∈ pending → o ∈ Operator.table) (op : Operator)
    (written : List Token) :
    flushTokens? op written (pending.map Pending.token) =
      some ((flush op written pending).written,
        (flush op written pending).pending.map Pending.token) := by
  induction pending generalizing written with
  | nil => rfl
  | cons p rest ih =>
    cases p with
    | paren => rfl
    | operator top =>
      have hfind := Operator.find?_symbol (hknown top List.mem_cons_self)
      have hrest := ih fun o ho => hknown o (List.mem_cons_of_mem _ ho)
      simp only [List.map_cons, Pending.token, flushTokens?, hfind, flush]
      split_ifs
      · exact hrest (.operator top.symbol :: written)
      · rfl

/-- The parentheses that are open are those that the tokens have opened and not closed. -/
theorem openCount_add_count {ts : List Token} {state : Conversion}
    (h : ts.foldlM step start = .ok state) :
    state.openCount + ts.count .rightParen = ts.count .leftParen := by
  have hwalk := foldlM_step_openCount start ts
  rw [h] at hwalk
  obtain ⟨-, hsum⟩ := foldlM_climb_eq_ok_iff.1 hwalk.symm
  obtain ⟨hleft, hright⟩ := count_filterMap_paren? ts
  rwa [hleft, hright, show start.openCount = 0 from rfl, Nat.zero_add] at hsum

end Conversion

open Conversion

/-- What waits after any tokens that have been taken without error: parentheses and operators of the
table, in order, not many for the parentheses that are open, and all of them found again. -/
theorem foldlM_step_pending {ts : List Token} {state : Conversion}
    (h : ts.foldlM step start = .ok state) :
    (∀ p ∈ state.pending, p = .paren ∨ ∃ op ∈ Operator.table, p = .operator op) ∧
    (∀ ops : List Operator, ops.map .operator <:+: state.pending →
      (ops.map Operator.precedence).Pairwise (· > ·)) ∧
    state.pending.length ≤ 3 * state.openCount + 2 ∧
    state.openCount + ts.count .rightParen = ts.count .leftParen ∧
    ∀ op, flushTokens? op state.written (state.pending.map Pending.token) =
      some ((flush op state.written state.pending).written,
        (flush op state.written state.pending).pending.map Pending.token) := by
  obtain ⟨hknown, hchain⟩ := foldlM_step_ordered h isOrdered_start
  refine ⟨?_, ?_, ?_, openCount_add_count h, fun op => flushTokens?_eq hknown op state.written⟩
  · intro p hp
    cases p with
    | paren => exact .inl rfl
    | operator op => exact .inr ⟨op, hknown op hp, rfl⟩
  · intro ops hops
    exact Pending.pairwise_precedence hchain hops
  · exact (Pending.length_le hchain hknown).trans
      (Nat.add_le_add_left (Pending.topPrecedence_le hknown) _)

/-- In `1+2*(3-4*5` as much waits as may wait with one open parenthesis: a sum and a product below
it, a difference and a product above it. -/
theorem foldlM_step_pending_product :
    ∃ state, [Token.number ['1'], .operator '+', .number ['2'], .operator '*', .leftParen,
          .number ['3'], .operator '-', .number ['4'], .operator '*', .number ['5']].foldlM step start =
        .ok state ∧
      state.pending.length = 3 * state.openCount + 2 ∧ state.openCount = 1 ∧
      [Operator.mk '*' 2 .left, ⟨'-', 1, .left⟩].map .operator <:+: state.pending ∧
      ([Operator.mk '*' 2 .left, ⟨'-', 1, .left⟩].map Operator.precedence).Pairwise (· > ·) := by
  let waiting : List Pending := [.operator ⟨'*', 2, .left⟩, .operator ⟨'-', 1, .left⟩, .paren,
    .operator ⟨'*', 2, .left⟩, .operator ⟨'+', 1, .left⟩]
  let written : List Token := [.number ['5'], .number ['4'], .number ['3'], .number ['2'],
    .number ['1']]
  have hrun : [Token.number ['1'], .operator '+', .number ['2'], .operator '*', .leftParen,
      .number ['3'], .operator '-', .number ['4'], .operator '*', .number ['5']].foldlM step start =
        .ok ⟨written, waiting⟩ := by decide +kernel
  have hops : [Operator.mk '*' 2 .left, ⟨'-', 1, .left⟩].map .operator <:+: waiting :=
    ⟨[], [.paren, .operator ⟨'*', 2, .left⟩, .operator ⟨'+', 1, .left⟩], rfl⟩
  obtain ⟨-, hordered, -, -, -⟩ := foldlM_step_pending hrun
  exact ⟨_, hrun, by decide, by decide, hops, hordered _ hops⟩

end Calculator.Postfix
