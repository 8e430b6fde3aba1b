/-
  The number at the head of a line, whatever follows it, and a circular function of it.
-/
import Calculator.Decimal.Reader
import Calculator.Error
import Calculator.Text.Blank
import Calculator.Trigonometry.Function

namespace Calculator

/-- An unsigned number at the head of a text: the word `Infinity`, or the longest decimal. -/
def leadingUnsigned? (cs : List Char) : Option Binary64 :=
  if "Infinity".toList.isPrefixOf cs then some (.infinity false)
  else (Decimal.read? cs).map fun (d, _) => d.toBinary64

/-- The number at the head of a text, after blanks and with an optional sign. -/
def leadingNumber? (cs : List Char) : Option Binary64 :=
  let (negative, afterSign) := Decimal.readSign (cs.dropWhile isBlank)
  (leadingUnsigned? afterSign).map fun x => if negative then -x else x

/-- The function of the number at the head of a text. -/
def CircularFunction.ofText (f : CircularFunction) (text : String) (unit : AngleUnit) :
    Except CalculationError Binary64 :=
  match leadingNumber? text.toList with
  | some x => .ok (f.apply x unit)
  | none => .error .numberExpected

end Calculator
