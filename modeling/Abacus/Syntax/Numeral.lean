import Abacus.Number.Basic

/-!
# Numerals

A numeral is digits with an optional fraction, an optional exponent and an optional `i`. The digits
before the point may be missing if there is a fraction; the exponent may be negative, may have a
fraction itself, and may be left empty, in which case the numeral has a shape but no value.

**The law** (`Numeral.scan_text_append`): a scanned numeral is a front part of the text.
-/

namespace Abacus

/-- The digits at the front of a text. -/
def leadingDigits (text : List Char) : List Char := text.takeWhile Char.isDigit

/-- The digits after a point at the front of a text; none if the point is not followed by a digit. -/
def pointDigits : List Char → List Char
  | '.' :: rest => leadingDigits rest
  | _ => []

/-- Digits with their point, or nothing. -/
def pointed (digits : List Char) : List Char := if digits.isEmpty then [] else '.' :: digits

/-- What follows the `e` of a numeral. -/
structure Exponent where
  negative : Bool
  whole : List Char
  fraction : List Char
deriving DecidableEq

namespace Exponent

def text (e : Exponent) : List Char :=
  'e' :: ((if e.negative then ['-'] else []) ++ (e.whole ++ pointed e.fraction))

def scan : List Char → Option Exponent
  | 'e' :: '-' :: rest =>
    some ⟨true, leadingDigits rest, pointDigits (rest.drop (leadingDigits rest).length)⟩
  | 'e' :: rest =>
    some ⟨false, leadingDigits rest, pointDigits (rest.drop (leadingDigits rest).length)⟩
  | _ => none

end Exponent

/-- A numeral by its parts. -/
structure Numeral where
  whole : List Char
  fraction : List Char
  exponent : Option Exponent
  imaginary : Bool
deriving DecidableEq

namespace Numeral

/-- The numeral as it is written. -/
def text (n : Numeral) : List Char :=
  n.whole ++ (pointed n.fraction ++ ((n.exponent.map Exponent.text).getD [] ++
    (if n.imaginary then ['i'] else [])))

/-- The longest numeral at the front of a text. -/
def scan (text : List Char) : Numeral :=
  let whole := leadingDigits text
  let afterWhole := text.drop whole.length
  let fraction := pointDigits afterWhole
  let afterFraction := afterWhole.drop (pointed fraction).length
  let exponent := Exponent.scan afterFraction
  let afterExponent := afterFraction.drop ((exponent.map Exponent.text).getD []).length
  ⟨whole, fraction, exponent, afterExponent.head? == some 'i'⟩

/-! ## Value -/

/-- The number that digits write in base ten. -/
def digitsValue (digits : List Char) : Nat :=
  digits.foldl (fun n c => 10 * n + (c.toNat - '0'.toNat)) 0

/-- The double nearest to digits with a fraction. -/
def decimalValue (whole fraction : List Char) : Float :=
  Decimal.toFloat ⟨digitsValue (whole ++ fraction), -(fraction.length : Int)⟩

/-- The value of an exponent, if it has any digits. -/
def exponentValue? (e : Exponent) : Option Float :=
  if e.whole.isEmpty && e.fraction.isEmpty then none
  else
    let size := decimalValue e.whole e.fraction
    some (if e.negative then -size else size)

/-- The value without the `i`: an integer if there is neither fraction nor exponent. A power of ten
is computed and rounded on its own before it scales the digits. -/
def scaledValue? (n : Numeral) : Option Number :=
  match n.exponent with
  | some e => (exponentValue? e).map fun power =>
      .real (decimalValue n.whole n.fraction * Float.pow 10.0 power)
  | none =>
    if n.fraction.isEmpty then (Number.fit? (digitsValue n.whole)).map .integer
    else some (.real (decimalValue n.whole n.fraction))

/-- The value of a numeral; none if the integer is too large or the exponent empty. -/
def value? (n : Numeral) : Option Number :=
  n.scaledValue?.map fun value => if n.imaginary then .imaginary value.realPart else value

/-! ## Scanning reads a front part -/

theorem leadingDigits_append (text : List Char) :
    leadingDigits text ++ text.drop (leadingDigits text).length = text := by
  unfold leadingDigits
  induction text with
  | nil => rfl
  | cons c rest ih =>
    rw [List.takeWhile_cons]
    split
    · simp [ih]
    · simp

theorem pointed_pointDigits_append (text : List Char) :
    pointed (pointDigits text) ++ text.drop (pointed (pointDigits text)).length = text := by
  unfold pointDigits pointed
  split
  · next rest =>
    split
    · simp
    · simp [leadingDigits_append]
  · simp

theorem exponentText_append (text : List Char) :
    ((Exponent.scan text).map Exponent.text).getD [] ++
      text.drop (((Exponent.scan text).map Exponent.text).getD []).length = text := by
  unfold Exponent.scan
  split
  · next rest =>
    have h := leadingDigits_append rest
    have h' := pointed_pointDigits_append (rest.drop (leadingDigits rest).length)
    simp only [List.drop_drop] at h'
    simp [Exponent.text, h', h]
  · next rest _ =>
    have h := leadingDigits_append rest
    have h' := pointed_pointDigits_append (rest.drop (leadingDigits rest).length)
    simp only [List.drop_drop] at h'
    simp [Exponent.text, h', h]
  · simp

/-- **A scanned numeral is a front part of the text.** -/
theorem scan_text_append (text : List Char) :
    (scan text).text ++ text.drop (scan text).text.length = text := by
  have hw := leadingDigits_append text
  have hf := pointed_pointDigits_append (text.drop (leadingDigits text).length)
  have he := exponentText_append ((text.drop (leadingDigits text).length).drop
    (pointed (pointDigits (text.drop (leadingDigits text).length))).length)
  generalize hrest : ((text.drop (leadingDigits text).length).drop
    (pointed (pointDigits (text.drop (leadingDigits text).length))).length) = rest at hf he
  have hi : (if (rest.drop (((Exponent.scan rest).map Exponent.text).getD []).length).head? == some 'i'
      then ['i'] else []) ++ (rest.drop (((Exponent.scan rest).map Exponent.text).getD []).length).drop
      (if (rest.drop (((Exponent.scan rest).map Exponent.text).getD []).length).head? == some 'i'
        then ['i'] else []).length = rest.drop (((Exponent.scan rest).map Exponent.text).getD []).length := by
    generalize rest.drop (((Exponent.scan rest).map Exponent.text).getD []).length = tail
    cases tail with
    | nil => simp
    | cons c cs => by_cases h : c = 'i' <;> simp [h]
  unfold scan Numeral.text
  simp only [hrest]
  simp only [List.append_assoc, List.length_append]
  rw [← List.drop_drop, ← List.drop_drop, ← List.drop_drop, hrest, hi, he, hf, hw]

end Numeral

end Abacus
