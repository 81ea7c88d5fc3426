import Mathlib.Algebra.Order.Field.Rat

set_option autoImplicit false

/-!
# Python floats

The chunkers scale a window by a quotient of two integers and compare cosine similarities. No law
of floating point is assumed, so what is proved holds whatever the rounding does.
-/
namespace Ragent.PyNumbers

class PyFloat (F : Type) where
  ofInt : ℤ → F
  add : F → F → F
  sub : F → F → F
  mul : F → F → F
  div : F → F → F
  /-- `x ** 0.5` -/
  sqrt : F → F
  /-- `sum(xs)`, which adds with a compensation term since Python 3.12. -/
  sum : List F → F
  lt : F → F → Bool
  isZero : F → Bool
  /-- `a / b` of two integers. -/
  trueDiv : ℤ → ℤ → F
  /-- `int(x)` -/
  trunc : F → ℤ

/-- Exact arithmetic, with a root that is good to the integer below. -/
instance : PyFloat ℚ where
  ofInt a := a
  add a b := a + b
  sub a b := a - b
  mul a b := a * b
  div a b := a / b
  sqrt a := ((a.num.toNat.sqrt : ℕ) : ℚ) / ((a.den.sqrt : ℕ) : ℚ)
  sum xs := xs.foldl (· + ·) 0
  lt a b := decide (a < b)
  isZero a := decide (a = 0)
  trueDiv a b := (a : ℚ) / (b : ℚ)
  trunc a := a.num.tdiv a.den

end Ragent.PyNumbers
