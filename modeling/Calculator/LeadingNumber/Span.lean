/-
  The part of a text that the number at its head takes, found by positions in the bytes: the
  position moves over the sign, the digits and the point, and over an exponent if there is a whole
  one. What lies between the two ends is then read as a literal.
-/
import Calculator.Decimal.Reader
import Calculator.Text.Blank
import Calculator.Text.ByteReader

namespace Calculator

def isDigitByte (b : UInt8) : Bool := '0'.toUInt8 ≤ b && b ≤ '9'.toUInt8

/-- A line without the blanks in front of it. -/
def withoutBlanks (line : String) : String := .ofList (line.toList.dropWhile isBlank)

/-- A number at the head of a text: the word `Infinity`, or a decimal and its two ends. The sign
lies before the start. -/
inductive NumberSpan where
  | infinity (negative : Bool)
  | decimal (negative : Bool) (start stop : Nat)
deriving DecidableEq

namespace ByteReader

/-- How many digits stand at a position. -/
def digitCount (text : String) (start : Nat) : ByteReader Nat := do
  let tail ← bytes text start text.utf8ByteSize
  pure (tail.takeWhile isDigitByte).length

/-- Whether a minus stands at a position, and the position behind the sign, if there is one. -/
def sign (text : String) (start : Nat) : ByteReader (Bool × Nat) := do
  let first ← byteAt? text start
  if first = some '-'.toUInt8 then pure (true, start + 1)
  else if first = some '+'.toUInt8 then pure (false, start + 1)
  else pure (false, start)

/-- The position behind digits and a point among them; none if there is no digit. -/
def mantissaEnd? (text : String) (start : Nat) : ByteReader (Option Nat) := do
  let whole ← digitCount text start
  let behindWhole := start + whole
  if (← byteAt? text behindWhole) = some '.'.toUInt8 then
    let fraction ← digitCount text (behindWhole + 1)
    pure (if whole = 0 ∧ fraction = 0 then none else some (behindWhole + 1 + fraction))
  else
    pure (if whole = 0 then none else some behindWhole)

/-- The position behind the exponent that stands at `start`; `start` itself if no digit does. -/
def exponentEnd (text : String) (start : Nat) : ByteReader Nat := do
  let mark ← byteAt? text start
  if mark = some 'e'.toUInt8 ∨ mark = some 'E'.toUInt8 then
    let (_, behindSign) ← sign text (start + 1)
    let digits ← digitCount text behindSign
    pure (if digits = 0 then start else behindSign + digits)
  else
    pure start

/-- Where the number at the head of a text is. -/
def numberSpan? (text : String) : ByteReader (Option NumberSpan) := do
  let (negative, start) ← sign text 0
  let tail ← characters text start text.utf8ByteSize
  if "Infinity".toList.isPrefixOf tail then
    pure (some (.infinity negative))
  else
    match ← mantissaEnd? text start with
    | none => pure none
    | some behindMantissa => do
      let stop ← exponentEnd text behindMantissa
      pure (some (.decimal negative start stop))

/-- The number that a span stands for. -/
def value? (text : String) : Option NumberSpan → ByteReader (Option Binary64)
  | none => pure none
  | some (.infinity negative) => pure (some (.infinity negative))
  | some (.decimal negative start stop) => do
    let literal ← characters text start stop
    pure ((Decimal.readLiteral? literal).map fun x => if negative then -x else x)

/-- The number at the head of a text. -/
def headNumber? (text : String) : ByteReader (Option Binary64) := do
  let span? ← numberSpan? text
  value? text span?

end ByteReader

end Calculator
