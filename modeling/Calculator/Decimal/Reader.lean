/-
  Reading decimals. `read?` takes the longest unsigned decimal at the head of a text and gives
  back the rest; `readLiteral?` reads a whole text as a binary64 number, the names of infinity and
  NaN included.
-/
import Calculator.Decimal.Basic

namespace Calculator.Decimal

/-- The digits at the head of a text. -/
def leadingDigits (cs : List Char) : List Char := cs.takeWhile Char.isDigit

/-- What follows them. -/
def afterDigits (cs : List Char) : List Char := cs.dropWhile Char.isDigit

@[simp] theorem leadingDigits_append_afterDigits (cs : List Char) :
    leadingDigits cs ++ afterDigits cs = cs := List.takeWhile_append_dropWhile

theorem isDigit_of_mem_leadingDigits {cs : List Char} {c : Char} (h : c ∈ leadingDigits cs) :
    c.isDigit = true :=
  List.all_eq_true.1 List.all_takeWhile c h

/-- An optional sign: whether it is a minus, and the rest. -/
def readSign : List Char → Bool × List Char
  | '-' :: cs => (true, cs)
  | '+' :: cs => (false, cs)
  | cs => (false, cs)

/-- The fraction after a point, and the rest. The point belongs to the number if a digit stands on
either side of it; `hasWhole` says whether one stands before. -/
def readFraction (hasWhole : Bool) : List Char → List Char × List Char
  | '.' :: cs =>
    if hasWhole || !(leadingDigits cs).isEmpty then (leadingDigits cs, afterDigits cs)
    else ([], '.' :: cs)
  | cs => ([], cs)

/-- An exponent and the rest; an exponent without digits is none, and all is left as it was. -/
def readExponent : List Char → Int × List Char
  | [] => (0, [])
  | c :: cs =>
    let (negative, afterSign) := readSign cs
    let digits := leadingDigits afterSign
    if (c = 'e' ∨ c = 'E') ∧ digits ≠ [] then
      let size := Nat.ofDigitChars 10 digits 0
      (if negative then -size else size, afterDigits afterSign)
    else (0, c :: cs)

/-- The longest unsigned decimal at the head of a text, and the rest; none if no digit is found. -/
def read? (cs : List Char) : Option (Decimal × List Char) :=
  let whole := leadingDigits cs
  let (fraction, afterFraction) := readFraction (!whole.isEmpty) (afterDigits cs)
  if whole.isEmpty && fraction.isEmpty then none
  else
    let (exponent, rest) := readExponent afterFraction
    some (⟨Nat.ofDigitChars 10 (whole ++ fraction) 0, exponent - fraction.length⟩, rest)

/-- The numbers that have a name, in any case of ASCII letters. -/
def readName? (cs : List Char) : Option Binary64 :=
  let name := cs.map Char.toLower
  if name = ['i', 'n', 'f'] ∨ name = ['i', 'n', 'f', 'i', 'n', 'i', 't', 'y'] then
    some (.infinity false)
  else if name = ['n', 'a', 'n'] then some .nan
  else none

/-- A whole text without sign, as a number. -/
def readUnsigned? (cs : List Char) : Option Binary64 :=
  match read? cs with
  | some (d, []) => some d.toBinary64
  | _ => readName? cs

/-- A whole text, as the nearest binary64 number. -/
def readLiteral? (cs : List Char) : Option Binary64 :=
  let (negative, afterSign) := readSign cs
  (readUnsigned? afterSign).map fun x => if negative then -x else x

end Calculator.Decimal
