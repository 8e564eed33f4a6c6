import Abacus.Real.Dyadic

/-!
# Complex numbers

Complex numbers in Cartesian form over doubles. Every formula is a fixed sequence of roundings, so
the order of the operations is part of the definition: a product is `(ac - bd) + (ad + bc) i`, and
what can be said in polar form is computed from the length and the angle.
-/

namespace Abacus

/-- A complex number by its real and its imaginary part. -/
structure Complex where
  re : Float
  im : Float
deriving DecidableEq

namespace Complex

def zero : Complex := ⟨0.0, 0.0⟩
def one : Complex := ⟨1.0, 0.0⟩
/-- The imaginary unit. -/
def unit : Complex := ⟨0.0, 1.0⟩

def add (z w : Complex) : Complex := ⟨z.re + w.re, z.im + w.im⟩
def sub (z w : Complex) : Complex := ⟨z.re - w.re, z.im - w.im⟩
def neg (z : Complex) : Complex := ⟨-z.re, -z.im⟩
def conj (z : Complex) : Complex := ⟨z.re, -z.im⟩

def mul (z w : Complex) : Complex :=
  ⟨z.re * w.re - z.im * w.im, z.re * w.im + z.im * w.re⟩

def div (z w : Complex) : Complex :=
  let n := w.re * w.re + w.im * w.im
  ⟨(z.re * w.re + z.im * w.im) / n, (z.im * w.re - z.re * w.im) / n⟩

instance : Add Complex := ⟨add⟩
instance : Sub Complex := ⟨sub⟩
instance : Neg Complex := ⟨neg⟩
instance : Mul Complex := ⟨mul⟩
instance : Div Complex := ⟨div⟩

/-- Equality of both parts as numbers: zeros of either sign are equal, and no number equals itself
if a part is none. -/
def equals (z w : Complex) : Bool := z.re == w.re && z.im == w.im

def isZero (z : Complex) : Bool := z.re == 0.0 && z.im == 0.0

/-! ## Polar form -/

/-- The distance from the origin. -/
def norm (z : Complex) : Float := Real.hypotenuse z.re z.im

/-- The angle from the positive real axis. -/
def arg (z : Complex) : Float := Float.atan2 z.im z.re

def ofPolar (length angle : Float) : Complex := ⟨length * angle.cos, length * angle.sin⟩

/-! ## Exponential, logarithm and roots -/

/-- The exponential. Infinite real parts are settled before the angle is looked at, so that
`exp (-inf)` is zero for every angle. -/
def exp (z : Complex) : Complex :=
  if z.re.isInf then
    if z.re < 0.0 then
      if z.im.isFinite then ofPolar z.re.exp z.im else zero
    else if z.im == 0.0 || !z.im.isFinite then
      ⟨z.re, if z.im.isInf then Real.notANumber else z.im⟩
    else ofPolar z.re.exp z.im
  else if z.re.isNaN && z.im == 0.0 then z
  else ofPolar z.re.exp z.im

/-- The natural logarithm. -/
def log (z : Complex) : Complex := ⟨z.norm.log, z.arg⟩

/-- The square root with the non-negative real part; on the axes it is exact. -/
def sqrt (z : Complex) : Complex :=
  if z.im == 0.0 then
    if Real.isNegative z.re then
      let root := (-z.re).sqrt
      ⟨0.0, if Real.isNegative z.im then -root else root⟩
    else ⟨z.re.sqrt, z.im⟩
  else if z.re == 0.0 then
    let root := (z.im.abs / 2.0).sqrt
    ⟨root, if Real.isNegative z.im then -root else root⟩
  else ofPolar z.norm.sqrt (z.arg / 2.0)

/-- A power with a real exponent. -/
def powReal (z : Complex) (exponent : Float) : Complex :=
  if exponent == 0.0 then one
  else ofPolar (z.norm.pow exponent) (z.arg * exponent)

/-- A power with a complex exponent. -/
def pow (z w : Complex) : Complex :=
  if w.isZero then one else exp (w * log z)

/-! ## Trigonometry -/

def sin (z : Complex) : Complex := ⟨z.re.sin * z.im.cosh, z.re.cos * z.im.sinh⟩

def cos (z : Complex) : Complex := ⟨z.re.cos * z.im.cosh, -z.re.sin * z.im.sinh⟩

def tan (z : Complex) : Complex :=
  let a := z.re + z.re
  let b := z.im + z.im
  let n := a.cos + b.cosh
  ⟨a.sin / n, b.sinh / n⟩

def asin (z : Complex) : Complex := -unit * log (sqrt (one - z * z) + unit * z)

def acos (z : Complex) : Complex := -unit * log (unit * sqrt (one - z * z) + z)

/-- The inverse tangent; its two poles are answered directly. -/
def atan (z : Complex) : Complex :=
  if z.equals unit then ⟨0.0, Real.infinity⟩
  else if z.equals (-unit) then ⟨0.0, -Real.infinity⟩
  else (log (one + unit * z) - log (one - unit * z)) / ((one + one) * unit)

end Complex

end Abacus
