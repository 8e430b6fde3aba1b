/-
  What becomes of infinities and NaN in the four operations. A sum, a difference or a product with
  an operand that is not finite is not finite either; among the quotients only that of a finite
  number by an infinity is, which is a zero (`isFinite_div`, `div_infinity`). A number divided by
  zero is never finite (`isFinite_div_zero`).
-/
import Calculator.Binary64.Arithmetic

namespace Calculator.Binary64

def isInfinite : Binary64 → Bool
  | infinity _ => true
  | _ => false

@[simp] theorem isFinite_neg (x : Binary64) : (-x).isFinite = x.isFinite := by
  cases x <;> rfl

theorem div_infinity {x : Binary64} (h : x.isFinite = true) (s : Bool) :
    ∃ t, x / infinity s = zero t := by
  cases x with
  | finite t p => exact ⟨t != s, rfl⟩
  | _ => cases h

theorem finite_div_zero (s t : Bool) (p : Place) :
    finite s p / zero t = if p.val = 0 then nan else infinity (s != t) := by
  have h : finite s p / zero t = Binary64.div (finite s p) (finite t ⟨0, by decide⟩) := rfl
  rw [h, Binary64.div, if_pos rfl]

@[simp] theorem isFinite_div_zero (x : Binary64) (s : Bool) : (x / zero s).isFinite = false := by
  cases x with
  | nan => rfl
  | infinity t => rfl
  | finite t p =>
    rw [finite_div_zero]
    split <;> rfl

section NotFinite

variable {x y : Binary64} (h : x.isFinite = false ∨ y.isFinite = false)
include h

theorem isFinite_add : (x + y).isFinite = false := by
  cases x with
  | nan => rfl
  | infinity s =>
    cases y with
    | nan => rfl
    | finite t r => rfl
    | infinity t =>
      show (if s = t then infinity s else nan).isFinite = false
      split <;> rfl
  | finite s p =>
    cases y with
    | finite t r => simp at h
    | _ => rfl

theorem isFinite_sub : (x - y).isFinite = false := by
  rw [← isFinite_neg y] at h
  exact isFinite_add h

theorem isFinite_mul : (x * y).isFinite = false := by
  cases x with
  | nan => rfl
  | infinity s =>
    cases y with
    | nan => rfl
    | infinity t => rfl
    | finite t r =>
      show (if r.val = 0 then nan else infinity (s != t)).isFinite = false
      split <;> rfl
  | finite s p =>
    cases y with
    | nan => rfl
    | infinity t =>
      show (if p.val = 0 then nan else infinity (s != t)).isFinite = false
      split <;> rfl
    | finite t r => simp at h

theorem isFinite_div : (x / y).isFinite = (x.isFinite && y.isInfinite) := by
  cases x with
  | nan => rfl
  | infinity s => cases y <;> rfl
  | finite s p =>
    cases y with
    | nan => rfl
    | infinity t =>
      obtain ⟨u, hzero⟩ := div_infinity (x := finite s p) rfl t
      rw [hzero]
      rfl
    | finite t r => simp at h

end NotFinite

end Calculator.Binary64
