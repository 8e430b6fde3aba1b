/-
  From a line of text to its value. `evaluate` takes any text and any value; `calculate` admits
  only the characters of arithmetic and only finite results.
-/
import Calculator.Postfix.OfInfix
import Calculator.Postfix.Value
import Calculator.Token.Lexer

namespace Calculator

/-- How a value was found: the tokens of the line, as read and in postfix order. -/
structure Trace where
  tokens : String
  reordered : String
deriving DecidableEq

def Trace.empty : Trace := ⟨"", ""⟩

structure Evaluation where
  value : Binary64
  trace : Trace
deriving DecidableEq

def evaluate (text : String) : Except CalculationError Evaluation := do
  let tokens := tokenize text.toList
  let reordered ← Postfix.ofInfix tokens
  let value ← Postfix.value reordered
  .ok ⟨value, ⟨.ofList (Token.render tokens), .ofList (Token.render reordered)⟩⟩

/-- The characters of arithmetic, blanks apart. -/
def isArithmetic (c : Char) : Bool :=
  c.isDigit || c ∈ ['+', '-', '*', '/', '(', ')', '.']

/-- Whether a text may be calculated: it is not empty, and holds arithmetic and blanks only. -/
def isCalculable (text : String) : Bool :=
  !text.toList.isEmpty && text.toList.all fun c => isBlank c || isArithmetic c

def calculate (text : String) : Except CalculationError Evaluation := do
  if !isCalculable text then .error .invalidCharacters
  else
    let result ← evaluate text
    if result.value.isFinite then .ok result else .error .nonFiniteResult

end Calculator
