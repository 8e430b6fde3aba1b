/-
  Tokens of an arithmetic line, and their text.
-/

namespace Calculator

inductive Token where
  /-- A literal as it was written, readable or not. -/
  | number (literal : List Char)
  | operator (symbol : Char)
  | leftParen
  | rightParen
deriving DecidableEq

namespace Token

def text : Token → List Char
  | number literal => literal
  | operator symbol => [symbol]
  | leftParen => ['(']
  | rightParen => [')']

/-- The texts of the tokens with one space between any two. -/
def render : List Token → List Char
  | [] => []
  | [t] => t.text
  | t :: u :: ts => t.text ++ ' ' :: render (u :: ts)

end Token

end Calculator
