import Abacus.Number.Arithmetic

/-!
# Functions of one number

Roots, logarithms and inverse sines leave the reals where a real argument has no real answer; the
rounding functions keep the kind of their argument and are not defined on complex numbers.
-/

namespace Abacus.Number

/-- The size of a number; that of a complex number is a real. -/
def abs : Number → Number
  | .integer n => widen n.toInt.natAbs (ofInt64 n).abs
  | .real x => .real x.abs
  | .complex z => .real z.norm

def sqrt : Number → Number
  | .complex z => .complex z.sqrt
  | n => if n.realPart < 0.0 then imaginary (-n.realPart).sqrt else .real n.realPart.sqrt

/-- The natural logarithm; that of a negative real is complex. -/
def log : Number → Number
  | .complex z => .complex z.log
  | n => if n.realPart < 0.0 then .complex (Complex.log ⟨n.realPart, 0.0⟩) else .real n.realPart.log

/-! ## Functions that keep to the reals -/

/-- A function given on reals and on complex numbers, on all numbers. -/
def extend (onReals : Float → Float) (onComplex : Complex → Complex) : Number → Number
  | .complex z => .complex (onComplex z)
  | n => .real (onReals n.realPart)

def exp : Number → Number := extend Float.exp Complex.exp
def sin : Number → Number := extend Float.sin Complex.sin
def cos : Number → Number := extend Float.cos Complex.cos
def tan : Number → Number := extend Float.tan Complex.tan
def atan : Number → Number := extend Float.atan Complex.atan

/-! ## Functions that are real only between minus one and one -/

/-- A function given on the reals of size at most one and on complex numbers, on all numbers. -/
def extendUnit (onReals : Float → Float) (onComplex : Complex → Complex) : Number → Number
  | .complex z => .complex (onComplex z)
  | n =>
    if n.realPart.abs > 1.0 then .complex (onComplex n.toComplex) else .real (onReals n.realPart)

def asin : Number → Number := extendUnit Float.asin Complex.asin
def acos : Number → Number := extendUnit Float.acos Complex.acos

/-! ## Rounding -/

/-- Rounds reals by a rule, and leaves integers as they are. -/
def roundBy (rule : Float → Float) (operation : OrderedOperation) : Number → Except Failure Number
  | .integer n => .ok (.integer n)
  | .real x => .ok (.real (rule x))
  | .complex _ => .error (.undefinedOnComplex operation)

def floor : Number → Except Failure Number := roundBy Float.floor .floor
def ceil : Number → Except Failure Number := roundBy Float.ceil .ceiling
/-- To the nearest whole number, a half away from zero. -/
def round : Number → Except Failure Number := roundBy Float.round .rounding

/-! ## Parts -/

def re : Number → Number
  | .complex z => .real z.re
  | n => n

def im : Number → Number
  | .integer _ => .integer 0
  | .real _ => .real 0.0
  | .complex z => .real z.im

def conj : Number → Number
  | .complex z => .complex z.conj
  | n => n

def arg (n : Number) : Number := .real n.toComplex.arg

end Abacus.Number
