/-!
# Doubles as dyadic fractions

A finite double is a natural number times a power of two, with a sign. Taken apart this way, the
operations that have to be exact (cutting off the fraction, the remainder of a division, the shortest
decimal) become arithmetic on natural numbers, and rounding happens once, when the result is put
together again.
-/

namespace Abacus

/-- A sign and a natural number times a power of two. -/
structure Dyadic where
  negative : Bool
  significand : Nat
  exponent : Int

namespace Dyadic

/-- The parts of a double. Meaningful for finite ones only. -/
def ofFloat (x : Float) : Dyadic :=
  let bits : Nat := x.toBits.toNat
  let biased : Nat := bits / Nat.pow 2 52 % Nat.pow 2 11
  let fraction := bits % Nat.pow 2 52
  let negative := bits / Nat.pow 2 63 == 1
  if biased = 0 then ⟨negative, fraction, -1074⟩
  else ⟨negative, Nat.pow 2 52 + fraction, (biased : Int) - 1075⟩

/-- The number of binary digits of a natural number; none for zero. -/
def bitLength (n : Nat) : Nat := if n = 0 then 0 else n.log2 + 1

/-- A natural number divided by a power of two, to the nearest whole, a half to the even one. -/
def shiftRight (n : Nat) (shift : Nat) : Nat :=
  let unit := Nat.pow 2 shift
  let quotient := n / unit
  let rest := n % unit
  if 2 * rest > unit ∨ (2 * rest = unit ∧ quotient % 2 = 1) then quotient + 1 else quotient

/-- The nearest double, a tie going to the even significand; too large a number becomes infinite. -/
def toFloat (d : Dyadic) : Float :=
  let least := max (d.exponent + (bitLength d.significand : Int) - 53) (-1074)
  let magnitude :=
    if least ≤ d.exponent then (Float.ofNat d.significand).scaleB d.exponent
    else (Float.ofNat (shiftRight d.significand (least - d.exponent).toNat)).scaleB least
  if d.negative then -magnitude else magnitude

/-- The significand at a lower exponent, so that the value stays. -/
def significandAt (d : Dyadic) (exponent : Int) : Nat :=
  d.significand * Nat.pow 2 (d.exponent - exponent).toNat

/-- The value with its fraction cut off. -/
def truncate (d : Dyadic) : Int :=
  let magnitude : Nat :=
    if 0 ≤ d.exponent then d.significand * Nat.pow 2 d.exponent.toNat
    else d.significand / Nat.pow 2 (-d.exponent).toNat
  if d.negative then -(magnitude : Int) else magnitude

end Dyadic

/-! ## Signs, fractions and remainders -/

namespace Real

/-- The double that is no number. -/
def notANumber : Float := 0.0 / 0.0

def infinity : Float := 1.0 / 0.0

/-- The sign bit, which zeros have too. -/
def isNegative (x : Float) : Bool := x.toBits.toNat / Nat.pow 2 63 == 1

/-- The nearest whole number on the side of zero. -/
def truncate (x : Float) : Float := if x < 0.0 then x.ceil else x.floor

/-- What is left of a number without its whole part; no number for an infinite one. -/
def fraction (x : Float) : Float := x - truncate x

/-- The exact remainder of a division whose quotient is cut off: it has the sign of the dividend. -/
def remainder (x y : Float) : Float :=
  if x.isNaN || y.isNaN || x.isInf || y == 0.0 then notANumber
  else if y.isInf || x == 0.0 then x
  else
    let a := Dyadic.ofFloat x
    let b := Dyadic.ofFloat y
    let exponent := min a.exponent b.exponent
    Dyadic.toFloat ⟨a.negative, a.significandAt exponent % b.significandAt exponent, exponent⟩

/-! ## The length of a vector -/

/-- The power of two with this exponent. -/
def twoTo (exponent : Int) : Float := (1.0 : Float).scaleB exponent

/-- The root of `a² + b²` for `b` at most `a`: a first root, and one step of correction, whose two
terms are chosen so that little is lost where the first root is close to either side. -/
def correctedRoot (a b : Float) : Float :=
  let root := (a * a + b * b).sqrt
  let excess :=
    if root ≤ 2.0 * b then
      let rest := root - b
      a * (2.0 * rest - a) + (rest - 2.0 * (a - b)) * rest
    else
      let rest := root - a
      2.0 * rest * (a - 2.0 * b) + ((4.0 * rest - b) * b + rest * rest)
  root - excess / (2.0 * root)

/-- The length of the vector from the origin to `(x, y)`. Where a square could leave the range of
doubles, both sides are scaled; a side too short to be seen is only added. -/
def hypotenuse (x y : Float) : Float :=
  if x.isInf || y.isInf then infinity
  else if x.isNaN || y.isNaN then notANumber
  else
    let long := if x.abs < y.abs then y.abs else x.abs
    let short := if x.abs < y.abs then x.abs else y.abs
    if short * twoTo 54 ≤ long then long + short
    else if long > twoTo 511 then
      correctedRoot (long * twoTo (-600)) (short * twoTo (-600)) / twoTo (-600)
    else if short < twoTo (-459) then
      correctedRoot (long / twoTo (-600)) (short / twoTo (-600)) * twoTo (-600)
    else correctedRoot long short

end Real

end Abacus
