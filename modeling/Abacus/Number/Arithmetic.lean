import Abacus.Number.Basic

/-!
# Arithmetic on numbers

Integers stay integers as long as the exact result fits into 64 bits and widen to reals otherwise;
only division always leaves them. So the only failures are a zero divisor and what complex numbers
do not have.
-/

namespace Abacus.Number

/-- The exact result if it is a 64-bit integer, or else the real computed in its place. -/
def widen (exact : Int) (instead : Float) : Number :=
  match fit? exact with
  | some n => .integer n
  | none => .real instead

def add (a b : Number) : Number :=
  match meet a b with
  | .integers a b => widen (a.toInt + b.toInt) (ofInt64 a + ofInt64 b)
  | .reals a b => .real (a + b)
  | .complexes a b => .complex (a + b)

def sub (a b : Number) : Number :=
  match meet a b with
  | .integers a b => widen (a.toInt - b.toInt) (ofInt64 a - ofInt64 b)
  | .reals a b => .real (a - b)
  | .complexes a b => .complex (a - b)

def mul (a b : Number) : Number :=
  match meet a b with
  | .integers a b => widen (a.toInt * b.toInt) (ofInt64 a * ofInt64 b)
  | .reals a b => .real (a * b)
  | .complexes a b => .complex (a * b)

/-- Division never truncates: two integers divide to a real. -/
def div (a b : Number) : Except Failure Number :=
  if b.isZero then .error .divisionByZero
  else
    match meet a b with
    | .integers a b => .ok (.real (ofInt64 a / ofInt64 b))
    | .reals a b => .ok (.real (a / b))
    | .complexes a b => .ok (.complex (a / b))

/-- The remainder of the division whose quotient is cut off, with the sign of the dividend. -/
def rem (a b : Number) : Except Failure Number :=
  match meet a b with
  | .complexes _ _ => .error (.undefinedOnComplex .remainder)
  | .integers m n =>
    if b.isZero then .error .divisionByZero
    else .ok (.integer (Int64.ofInt (m.toInt.tmod n.toInt)))
  | .reals x y => if b.isZero then .error .divisionByZero else .ok (.real (Real.remainder x y))

/-- The exact power of an integer, if it fits into 64 bits. Exponents of 32 bits and more are not
tried, and a base of at least two in size outgrows every 64-bit integer at the exponent 64. -/
def intPow? (base : Int) (exponent : Nat) : Option Int64 :=
  if Nat.pow 2 32 ≤ exponent then none
  else if base = 0 ∨ base = 1 then fit? (if exponent = 0 then 1 else base)
  else if base = -1 then fit? (if exponent % 2 = 0 then 1 else -1)
  else if 64 ≤ exponent then none
  else fit? (Int.pow base exponent)

def pow (a b : Number) : Number :=
  match meet a b with
  | .integers base exponent =>
    let approximate := Number.real ((ofInt64 base).pow (ofInt64 exponent))
    if exponent < 0 then approximate
    else
      match intPow? base.toInt exponent.toInt.toNat with
      | some n => .integer n
      | none => approximate
  | .reals base exponent =>
    if base < 0.0 && Real.fraction exponent != 0.0 then .complex (Complex.powReal ⟨base, 0.0⟩ exponent)
    else .real (base.pow exponent)
  | .complexes base exponent =>
    if base.isZero && exponent.isZero then .complex .one
    else if base.isZero && exponent.re > 0.0 then .complex .zero
    else .complex (base.pow exponent)

def neg : Number → Number
  | .integer n => widen (-n.toInt) (-(ofInt64 n))
  | .real x => .real (-x)
  | .complex z => .complex (-z)

end Abacus.Number
