import Abacus.Complex
import Abacus.Real.Decimal

/-!
# Numbers

A number is an integer of 64 bits, a real or a complex number, and each kind stands below the next.
Two operands meet at the higher of their kinds (`Number.meet`); that is where every binary operation
and every comparison begins.
-/

namespace Abacus

/-- A number of one of the three kinds. -/
inductive Number where
  | integer (n : Int64)
  | real (x : Float)
  | complex (z : Complex)
deriving DecidableEq

/-- The kinds, from the lowest to the highest. -/
inductive NumberKind where
  | integer
  | real
  | complex
deriving DecidableEq

namespace Number

/-- The 64-bit integer of this value, if it has one. -/
def fit? (n : Int) : Option Int64 :=
  if Int64.minValue.toInt ≤ n ∧ n ≤ Int64.maxValue.toInt then some (Int64.ofInt n) else none

/-- The real nearest to an integer. -/
def ofInt64 (n : Int64) : Float := Float.ofInt n.toInt

def kind : Number → NumberKind
  | .integer _ => .integer
  | .real _ => .real
  | .complex _ => .complex

/-- The number `x i`. -/
def imaginary (x : Float) : Number := .complex ⟨0.0, x⟩

/-- The real component. -/
def realPart : Number → Float
  | .integer n => ofInt64 n
  | .real x => x
  | .complex z => z.re

def toComplex : Number → Complex
  | .complex z => z
  | n => ⟨n.realPart, 0.0⟩

/-! ## Meeting at a kind -/

/-- Two operands at a common kind. -/
inductive Pair where
  | integers (a b : Int64)
  | reals (a b : Float)
  | complexes (a b : Complex)

/-- Both operands at the higher of their kinds. -/
def meet : Number → Number → Pair
  | .integer a, .integer b => .integers a b
  | .complex a, b => .complexes a b.toComplex
  | a, .complex b => .complexes a.toComplex b
  | a, b => .reals a.realPart b.realPart

/-! ## Equality and order -/

/-- Whether the value is zero; zeros of either sign are. -/
def isZero : Number → Bool
  | .integer n => n == 0
  | .real x => x == 0.0
  | .complex z => z.isZero

/-- Equality of value at the common kind. -/
def equals (a b : Number) : Bool :=
  match meet a b with
  | .integers a b => a == b
  | .reals a b => a == b
  | .complexes a b => a.equals b

/-- Equality of value between numbers of one kind; numbers of two kinds are never the same. -/
def same : Number → Number → Bool
  | .integer a, .integer b => a == b
  | .real a, .real b => a == b
  | .complex a, .complex b => a.equals b
  | _, _ => false

/-! ## Failures -/

/-- Operations that complex numbers do not have. -/
inductive OrderedOperation where
  | toInteger
  | remainder
  | ordering
  | floor
  | ceiling
  | rounding
deriving DecidableEq

def OrderedOperation.name : OrderedOperation → String
  | .toInteger => "integer conversion"
  | .remainder => "modulo"
  | .ordering => "ordering"
  | .floor => "floor"
  | .ceiling => "ceil"
  | .rounding => "round"

/-- Why an operation on numbers has no answer. -/
inductive Failure where
  | divisionByZero
  | undefinedOnComplex (operation : OrderedOperation)
  /-- A complex number stands where a real one is needed. -/
  | complexForReal
  /-- A real that no 64-bit integer represents. -/
  | notAnInteger (x : Float)
deriving DecidableEq

def Failure.message : Failure → String
  | .divisionByZero => "division by zero"
  | .undefinedOnComplex operation => operation.name ++ " is not defined for complex numbers"
  | .complexForReal => "expected a real number, found a complex number"
  | .notAnInteger x => Real.pointedText x ++ " cannot be represented as an integer"

/-- The order at the common kind; no order where a part is no number. -/
def compare (a b : Number) : Except Failure (Option Ordering) :=
  match meet a b with
  | .integers a b => .ok (some (if a < b then .lt else if a = b then .eq else .gt))
  | .reals a b =>
    .ok (if a < b then some .lt else if b < a then some .gt else if a == b then some .eq else none)
  | .complexes _ _ => .error (.undefinedOnComplex .ordering)

/-! ## Conversions -/

def toReal : Number → Except Failure Float
  | .complex _ => .error .complexForReal
  | n => .ok n.realPart

/-- The integer that remains when a real loses its fraction. -/
def toInteger : Number → Except Failure Int64
  | .integer n => .ok n
  | .real x =>
    if !x.isFinite then .error (.notAnInteger x)
    else
      match fit? (Dyadic.ofFloat x).truncate with
      | some n => .ok n
      | none => .error (.notAnInteger x)
  | .complex _ => .error (.undefinedOnComplex .toInteger)

/-! ## Text -/

/-- A number as it is written: a real always with a point, a complex number with plain parts. -/
def text : Number → String
  | .integer n => toString n.toInt
  | .real x => Real.pointedText x
  | .complex z =>
    Real.text z.re ++ (if Real.isNegative z.im then "-" else "+") ++ Real.text z.im.abs ++ "i"

end Number

end Abacus
