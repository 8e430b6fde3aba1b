/-
  The value of a postfix list: numbers are stacked, and an operator replaces the two uppermost
  values. Literals that cannot be read and symbols outside the operator table count for nothing.
-/
import Calculator.Decimal.Reader
import Calculator.Error
import Calculator.Operator
import Calculator.Token.Basic

namespace Calculator.Postfix

/-- Takes one token; the stack has its top first. -/
def reduce (stack : List Binary64) : Token → Except CalculationError (List Binary64)
  | .number literal =>
    match Decimal.readLiteral? literal with
    | some x => .ok (x :: stack)
    | none => .ok stack
  | .operator symbol =>
    match Operator.find? symbol, stack with
    | some op, b :: a :: rest => .ok (op.apply a b :: rest)
    | some _, _ => .error .invalidExpression
    | none, _ => .ok stack
  | .leftParen | .rightParen => .error .mismatchedParentheses

/-- The value left when all tokens are taken, which must be the only one. -/
def value (tokens : List Token) : Except CalculationError Binary64 := do
  match ← tokens.foldlM reduce [] with
  | [x] => .ok x
  | _ => .error .invalidExpression

end Calculator.Postfix
