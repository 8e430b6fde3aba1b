/-
  Cutting a text into tokens. Blanks are dropped before the text is cut, so they never end a
  literal. A longest run of digits and points is one literal, readable or not; every other
  character stands for itself. Any text can be cut.
-/
import Calculator.Text.Blank
import Calculator.Token.Basic

namespace Calculator

/-- The characters of a literal. -/
def isNumeral (c : Char) : Bool := c.isDigit || c = '.'

namespace Token

/-- The token of a character that belongs to no literal. -/
def ofSymbol (c : Char) : Token :=
  if c = '(' then leftParen else if c = ')' then rightParen else operator c

/-- The tokens of a text, from its first character and the tokens of the others: a numeral joins a
literal that follows it. -/
def consChar (c : Char) (ts : List Token) : List Token :=
  if isNumeral c then
    match ts with
    | number literal :: rest => number (c :: literal) :: rest
    | _ => number [c] :: ts
  else ofSymbol c :: ts

end Token

def tokenize (cs : List Char) : List Token :=
  (cs.filter fun c => !isBlank c).foldr Token.consChar []

end Calculator
