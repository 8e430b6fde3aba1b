/-
  From infix to postfix order. The tokens are taken one by one; numbers are written out at once,
  and operators wait, innermost first, until no later one binds tighter. Literals that cannot be
  read and symbols outside the operator table are left out.
-/
import Calculator.Decimal.Reader
import Calculator.Error
import Calculator.Operator
import Calculator.Token.Basic

namespace Calculator.Postfix

/-- What waits for its right end: an open parenthesis, or an operator for its right operand. -/
inductive Pending where
  | paren
  | operator (op : Operator)
deriving DecidableEq

/-- A conversion under way. -/
structure Conversion where
  /-- What has been written, the last token first. -/
  written : List Token
  /-- What waits, the innermost first. -/
  pending : List Pending
deriving DecidableEq

namespace Conversion

/-- Writes out the waiting operators that `op` yields to, up to the nearest open parenthesis. -/
def flush (op : Operator) (written : List Token) : List Pending → Conversion
  | .operator top :: rest =>
    if op.yieldsTo top then flush op (.operator top.symbol :: written) rest
    else ⟨written, .operator top :: rest⟩
  | pending => ⟨written, pending⟩

/-- Writes out the waiting operators down to the nearest open parenthesis, and closes it. -/
def close (written : List Token) : List Pending → Except CalculationError Conversion
  | .operator top :: rest => close (.operator top.symbol :: written) rest
  | .paren :: rest => .ok ⟨written, rest⟩
  | [] => .error .mismatchedParentheses

/-- Writes out all waiting operators; no parenthesis may be open. -/
def finish (written : List Token) : List Pending → Except CalculationError (List Token)
  | .operator top :: rest => finish (.operator top.symbol :: written) rest
  | .paren :: _ => .error .mismatchedParentheses
  | [] => .ok written.reverse

/-- Takes one token. -/
def step (state : Conversion) : Token → Except CalculationError Conversion
  | .number literal =>
    match Decimal.readLiteral? literal with
    | some _ => .ok { state with written := .number literal :: state.written }
    | none => .ok state
  | .operator symbol =>
    match Operator.find? symbol with
    | some op =>
      let flushed := flush op state.written state.pending
      .ok { flushed with pending := .operator op :: flushed.pending }
    | none => .ok state
  | .leftParen => .ok { state with pending := .paren :: state.pending }
  | .rightParen => close state.written state.pending

/-- Nothing written, nothing waiting. -/
def start : Conversion := ⟨[], []⟩

end Conversion

/-- The tokens in postfix order, without parentheses. -/
def ofInfix (tokens : List Token) : Except CalculationError (List Token) := do
  let last ← tokens.foldlM Conversion.step Conversion.start
  Conversion.finish last.written last.pending

end Calculator.Postfix
