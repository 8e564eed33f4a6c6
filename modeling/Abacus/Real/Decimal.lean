import Abacus.Real.Dyadic

/-!
# Decimal text of reals

A real is written with the fewest decimal digits that read back as the same double, and of those the
ones nearest to it, always positionally: however large or small the number, no exponent is written.

The digits are found in exact arithmetic. A double stands for the interval of numbers that round to
it; the coarsest power of ten with a multiple in that interval fixes the number of digits, and one of
the double's two neighbours on that grid is the multiple nearest to it.
-/

namespace Abacus

/-- A decimal fraction: digits times a power of ten. -/
structure Decimal where
  digits : Nat
  exponent : Int

namespace Decimal

/-- The numbers that round to a positive double, on the scale of a quarter of its last binary digit:
the double, its lower and its upper end, and whether the ends belong to it. -/
structure Interval where
  middle : Nat
  lower : Nat
  upper : Nat
  closed : Bool
  /-- The power of two that one unit of the scale stands for. -/
  exponent : Int

def Interval.ofDyadic (d : Dyadic) : Interval :=
  let narrow := d.significand == Nat.pow 2 52 && d.exponent > -1074
  ⟨4 * d.significand, 4 * d.significand - (if narrow then 1 else 2), 4 * d.significand + 2,
    d.significand % 2 == 0, d.exponent - 2⟩

/-- The multiple of `10 ^ power` in the interval that is nearest to its middle, if there is one; of
two that are equally near, the upper. -/
def Interval.multiple? (i : Interval) (power : Int) : Option Nat :=
  -- a number of the scale over `unit` counts multiples of the power of ten
  let scale := Nat.pow 2 i.exponent.toNat * Nat.pow 10 (-power).toNat
  let unit := Nat.pow 2 (-i.exponent).toNat * Nat.pow 10 power.toNat
  let middle := i.middle * scale
  let holds (n : Nat) : Bool :=
    if i.closed then i.lower * scale ≤ n * unit && n * unit ≤ i.upper * scale
    else i.lower * scale < n * unit && n * unit < i.upper * scale
  let below := middle / unit
  let above := below + 1
  match 0 < below && holds below, holds above with
  | true, true => if middle - below * unit < above * unit - middle then some below else some above
  | true, false => some below
  | false, true => some above
  | false, false => none

/-- Looks for a multiple on ever finer grids. -/
def Interval.search (i : Interval) : Nat → Int → Decimal
  | 0, power => ⟨0, power⟩
  | fuel + 1, power =>
    match i.multiple? power with
    | some n => ⟨n, power⟩
    | none => i.search fuel (power - 1)

/-- The shortest decimal that reads back as a positive double. A double below `2 ^ k` is below
`10 ^ (0.30103 k + 1)`, and seventeen digits always suffice. -/
def shortest (d : Dyadic) : Decimal :=
  let bits := d.exponent + (Dyadic.bitLength d.significand : Int)
  (Interval.ofDyadic d).search 32 (bits * 30103 / 100000 + 2)

/-- The decimal written out without an exponent. -/
def positional (d : Decimal) : String :=
  let digits := toString d.digits
  if 0 ≤ d.exponent then digits ++ String.ofList (List.replicate d.exponent.toNat '0')
  else
    let places := (-d.exponent).toNat
    let padded := List.replicate (places + 1 - digits.length) '0' ++ digits.toList
    let whole := padded.take (padded.length - places)
    let fraction := padded.drop (padded.length - places)
    String.ofList (whole ++ '.' :: fraction)

/-- The double nearest to a decimal. -/
def toFloat (d : Decimal) : Float :=
  Float.ofScientific d.digits (d.exponent < 0) d.exponent.natAbs

end Decimal

namespace Real

/-- A real as short as it can be written: whole numbers carry no point. -/
def text (x : Float) : String :=
  if x.isNaN then "NaN"
  else
    let sign := if isNegative x then "-" else ""
    if x.isInf then sign ++ "inf"
    else if x == 0.0 then sign ++ "0"
    else sign ++ (Decimal.shortest (Dyadic.ofFloat x)).positional

/-- A real that reads as a real: a finite one always has a point. -/
def pointedText (x : Float) : String :=
  let plain := text x
  if x.isFinite && !plain.toList.contains '.' then plain ++ ".0" else plain

end Real

end Abacus
