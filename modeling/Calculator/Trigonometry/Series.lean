/-
  Sine and cosine on a fine grid. A real number stands as an integer, its multiple of `2^-2400`.
  The largest finite binary64 number is below `2^1024`, and the smallest magnitude is `2^-1074`:
  a quarter turn known to 2400 binary places leaves more than 1300 of them right after the whole
  turns are taken off any number, and every binary64 number is itself on the grid.
-/

namespace Calculator.Trigonometry

/-- Binary places of the grid; also more terms than any series here needs. -/
def places : Nat := 2400

/-- The number one on the grid. -/
def one : Int := Nat.pow 2 places

protected def mul (a b : Int) : Int := (a * b).tdiv one

/-- `power / k - (power / square) / (k + 2) + …`, up to the first power that vanishes on the
grid. -/
def arctanSeries (square : Int) : Nat → Int → Int → Int
  | 0, _, _ => 0
  | terms + 1, k, power =>
    if power = 0 then 0
    else power.tdiv k - arctanSeries square terms (k + 2) (power.tdiv square)

/-- The arctangent of `1 / n`. -/
def arctanInverse (n : Int) : Int := arctanSeries (n * n) places 1 (one.tdiv n)

/-- A quarter turn, `π / 2`, from `π / 4 = 4 arctan (1/5) - arctan (1/239)`. -/
def quarterTurn : Int := 8 * arctanInverse 5 - 2 * arctanInverse 239

/-- `term - term * square / ((n + 1) (n + 2)) + …`, up to the first term that vanishes on the
grid. -/
def alternatingSeries (square : Int) : Nat → Int → Int → Int
  | 0, _, _ => 0
  | terms + 1, n, term =>
    if term = 0 then 0
    else
      let next := (Trigonometry.mul term square).tdiv ((n + 1) * (n + 2))
      term - alternatingSeries square terms (n + 2) next

/-- The sine of an angle within an eighth turn of zero. -/
def sineNearZero (x : Int) : Int := alternatingSeries (Trigonometry.mul x x) places 1 x

/-- The cosine of an angle within an eighth turn of zero. -/
def cosineNearZero (x : Int) : Int := alternatingSeries (Trigonometry.mul x x) places 0 one

/-- The nearest whole number of quarter turns. -/
def quarterTurns (x : Int) : Int := (2 * x + quarterTurn) / (2 * quarterTurn)

/-- Sine and cosine: those of the angle less its quarter turns, rotated by them. -/
def sineCosine (x : Int) : Int × Int :=
  let turns := quarterTurns x
  let rest := x - turns * quarterTurn
  let s := sineNearZero rest
  let c := cosineNearZero rest
  if turns % 4 = 0 then (s, c)
  else if turns % 4 = 1 then (c, -s)
  else if turns % 4 = 2 then (-s, -c)
  else (-c, s)

end Calculator.Trigonometry
