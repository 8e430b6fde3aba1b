/-
  A group in parentheses means its value. If some tokens have a value, then between any others
  they may stand in parentheses where a literal of that value stands: the whole has the same value
  or the same error (`ofInfix_group_interchangeable`). The others need not be well formed.
-/
import Mathlib.Control.Monad.Basic
import Calculator.Proofs.Postfix.Conversion
import Calculator.Proofs.Postfix.Reduction

namespace Calculator.Postfix

open Conversion

theorem value_append_of_value {ps : List Token} {l : Literal} (h : value ps = .ok l.value)
    (first last : List Token) :
    value (first ++ ps ++ last) = value (first ++ [.number l.text] ++ last) := by
  simp only [value, List.foldlM_append]
  cases first.foldlM reduce [] with
  | error e => rfl
  | ok stack => simp [foldlM_reduce_of_value h]

theorem ofInfix_group {ts ps : List Token} (h : ofInfix ts = .ok ps) :
    ofInfix ([.leftParen] ++ ts ++ [.rightParen]) = .ok ps := by
  have hgroup := foldlM_step_group h start
  rw [List.singleton_append, ofInfix, hgroup]
  simp [write, start, finish]

theorem complete_group {ts ps : List Token} {l : Literal} (hps : ofInfix ts = .ok ps)
    (hx : value ps = .ok l.value) (state : Conversion) (behind : List Token) :
    (state.complete ([.leftParen] ++ ts ++ [.rightParen] ++ behind) >>= value) =
      (state.complete ([.number l.text] ++ behind) >>= value) := by
  have hgroup : ([Token.leftParen] ++ ts ++ [Token.rightParen]).foldlM step state =
      .ok (state.write ps) := foldlM_step_group hps state
  have hnumber : [Token.number l.text].foldlM step state =
      .ok (state.write [.number l.text]) := by simp
  rw [complete_append, complete_append, hgroup, hnumber, ok_bind, ok_bind, complete_write,
    complete_write]
  cases (⟨[], state.pending⟩ : Conversion).complete behind with
  | error e => rfl
  | ok rest => exact value_append_of_value hx _ _

theorem ofInfix_group_interchangeable {ts ps : List Token} {x : Binary64} (hps : ofInfix ts = .ok ps)
    (hx : value ps = .ok x) :
    (∀ (literal : List Char) (before behind : List Token),
      Decimal.readLiteral? literal = some x →
        (ofInfix (before ++ [.leftParen] ++ ts ++ [.rightParen] ++ behind) >>= value) =
          (ofInfix (before ++ [.number literal] ++ behind) >>= value)) ∧
    ofInfix ([.leftParen] ++ ts ++ [.rightParen]) = .ok ps ∧
    (ofInfix ([.leftParen] ++ ts ++ [.rightParen]) >>= value) = .ok x := by
  refine ⟨?_, ofInfix_group hps, ?_⟩
  · intro literal before behind hread
    simp only [ofInfix_eq_complete, List.append_assoc]
    rw [complete_append, complete_append]
    cases before.foldlM step start with
    | error e => rfl
    | ok state =>
      have h := complete_group (l := ⟨literal, x, hread⟩) hps hx state behind
      simpa using h
  · rw [ofInfix_group hps]
    exact hx

/-- In `8-(1+2)*2` the group may be replaced by `3`. -/
theorem ofInfix_group_interchangeable_three :
    ofInfix [.number ['1'], .operator '+', .number ['2']] =
        .ok [.number ['1'], .number ['2'], .operator '+'] ∧
      value [.number ['1'], .number ['2'], .operator '+'] = .ok (.ofBits 0x4008000000000000) ∧
      Decimal.readLiteral? ['3'] = some (.ofBits 0x4008000000000000) ∧
      (ofInfix [.number ['8'], .operator '-', .leftParen, .number ['1'], .operator '+',
          .number ['2'], .rightParen, .operator '*', .number ['2']] >>= value) =
        (ofInfix [.number ['8'], .operator '-', .number ['3'], .operator '*', .number ['2']] >>=
          value) := by
  have hps : ofInfix [.number ['1'], .operator '+', .number ['2']] =
      .ok [.number ['1'], .number ['2'], .operator '+'] := by decide +kernel
  have hx : value [.number ['1'], .number ['2'], .operator '+'] =
      .ok (.ofBits 0x4008000000000000) := by decide +kernel
  have hread : Decimal.readLiteral? ['3'] = some (.ofBits 0x4008000000000000) := by
    decide +kernel
  exact ⟨hps, hx, hread, (ofInfix_group_interchangeable hps hx).1 ['3']
    [.number ['8'], .operator '-'] [.operator '*', .number ['2']] hread⟩

end Calculator.Postfix
