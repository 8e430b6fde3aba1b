/-
  The four operations of binary64: the exact rational result, rounded once, and the rules for
  signed zeros, infinities and NaN.
-/
import Calculator.Binary64.Rounding

namespace Calculator.Binary64

/-- An exact sum of zero is the positive zero, unless both operands are the negative one. -/
protected def add : Binary64 → Binary64 → Binary64
  | nan, _ => nan
  | _, nan => nan
  | infinity s, infinity t => if s = t then infinity s else nan
  | infinity s, finite .. => infinity s
  | finite .., infinity t => infinity t
  | finite s p, finite t r =>
    let sum := toRat (finite s p) + toRat (finite t r)
    if sum = 0 then zero (s && t) else ofRat sum

protected def sub (x y : Binary64) : Binary64 := Binary64.add x (-y)

/-- The sign of a product is that of its factors together, also for zeros and infinities. -/
protected def mul : Binary64 → Binary64 → Binary64
  | nan, _ => nan
  | _, nan => nan
  | infinity s, infinity t => infinity (s != t)
  | infinity s, finite t r => if r.val = 0 then nan else infinity (s != t)
  | finite s p, infinity t => if p.val = 0 then nan else infinity (s != t)
  | finite s p, finite t r => ofMagnitude (s != t) (magnitude p * magnitude r)

/-- A number other than zero divided by zero is an infinity; `0/0` and the quotient of two
infinities are undefined. -/
protected def div : Binary64 → Binary64 → Binary64
  | nan, _ => nan
  | _, nan => nan
  | infinity _, infinity _ => nan
  | infinity s, finite t _ => infinity (s != t)
  | finite s _, infinity t => zero (s != t)
  | finite s p, finite t r =>
    if r.val = 0 then (if p.val = 0 then nan else infinity (s != t))
    else ofMagnitude (s != t) (magnitude p / magnitude r)

instance : Add Binary64 := ⟨Binary64.add⟩
instance : Sub Binary64 := ⟨Binary64.sub⟩
instance : Mul Binary64 := ⟨Binary64.mul⟩
instance : Div Binary64 := ⟨Binary64.div⟩

end Calculator.Binary64
