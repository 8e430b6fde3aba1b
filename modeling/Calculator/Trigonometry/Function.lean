/-
  Sine, cosine and tangent of binary64 numbers, correctly rounded, and of an angle in degrees or
  radians.
-/
import Calculator.Binary64.Arithmetic
import Calculator.Trigonometry.Series

namespace Calculator

inductive CircularFunction where
  | sin | cos | tan
deriving DecidableEq

inductive AngleUnit where
  | degrees | radians
deriving DecidableEq

namespace CircularFunction

def name : CircularFunction → String
  | sin => "sin"
  | cos => "cos"
  | tan => "tan"

/-- The function of a finite number of radians other than zero. -/
def atFinite (f : CircularFunction) (x : Rat) : Binary64 :=
  let (s, c) := Trigonometry.sineCosine (x * Trigonometry.one).floor
  .ofRat <| match f with
    | sin => (s : Rat) / Trigonometry.one
    | cos => (c : Rat) / Trigonometry.one
    | tan => (s : Rat) / c

/-- The function of a number of radians. A zero keeps its sign under sine and tangent; infinities
have no sine. -/
def atRadians (f : CircularFunction) (x : Binary64) : Binary64 :=
  match x with
  | .nan | .infinity _ => .nan
  | .finite negative place =>
    if place.val = 0 then (if f = cos then .ofRat 1 else .zero negative) else f.atFinite x.toRat

end CircularFunction

namespace AngleUnit

/-- The other unit. -/
def toggle : AngleUnit → AngleUnit
  | degrees => radians
  | radians => degrees

@[simp] theorem toggle_ne_self (unit : AngleUnit) : unit.toggle ≠ unit := by
  cases unit <;> simp [toggle]

@[simp] theorem toggle_toggle (unit : AngleUnit) : unit.toggle.toggle = unit := by
  cases unit <;> rfl

def label : AngleUnit → String
  | degrees => "Degrés"
  | radians => "Radians"

/-- The binary64 number nearest to `π`. -/
def pi : Binary64 := .ofBits 0x400921FB54442D18

/-- A number of this unit in radians; degrees are multiplied by `π` first and then divided. -/
def toRadians : AngleUnit → Binary64 → Binary64
  | degrees, x => x * pi / .ofRat 180
  | radians, x => x

end AngleUnit

/-- The function of an angle in the given unit. -/
def CircularFunction.apply (f : CircularFunction) (x : Binary64) (unit : AngleUnit) : Binary64 :=
  f.atRadians (unit.toRadians x)

end Calculator
