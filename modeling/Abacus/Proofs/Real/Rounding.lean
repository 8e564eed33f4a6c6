import Abacus.Number.Basic
import Abacus.Proofs.Real.Order

/-!
# Rounded sums and integers as doubles

A result that has too many binary digits loses them one by one, and a round bit and a sticky bit
remember what is lost (`Real.Cut`); so many digits go that 53 are left, and one more if rounding up
has made it 54 of them. In units of `2 ^ -1074` all of this is `Real.nearest`.

**The laws.** The sum of two finite doubles is the nearest number to the exact sum
(`Real.units_add`), and an integer of 64 bits is converted to the nearest number
(`Number.units_ofInt64`), as long as the result is below the infinite ones.
-/

namespace Abacus.Real

open Abacus.Dyadic
open Float.Model (UnpackedFloat Format totalExponent)
open Float.Model.UnpackedFloat (Sign ExtendedMantissa)

/-! ## Digits that are lost -/

/-- What is left of a significand that loses its last digits: the quotient, whether the rest is at
least one half, and whether the rest is something else than nothing and one half. -/
structure Cut (n k : Nat) (em : ExtendedMantissa) : Prop where
  quotient : em.mantissa = n / 2 ^ k
  half : em.roundBit = true ↔ 2 ^ k ≤ 2 * (n % 2 ^ k)
  rest : em.stickyBit = true ↔ 2 * (n % 2 ^ k) ≠ 0 ∧ 2 * (n % 2 ^ k) ≠ 2 ^ k

variable {n k m : Nat} {e : Int} {em : ExtendedMantissa}

/-- Nothing has been cut off an exact mantissa. -/
theorem Cut.of_exact (n : Nat) : Cut n 0 (.ofMantissaAndAccuracy n .exact) where
  quotient := (Nat.div_one n).symm
  half := by simp [ExtendedMantissa.ofMantissaAndAccuracy, Nat.mod_one]
  rest := by simp [ExtendedMantissa.ofMantissaAndAccuracy, Nat.mod_one]

/-- A bit is cut off, and how exact the rest is takes note of it. -/
theorem Cut.shiftRightOne (h : Cut n k em) : Cut n (k + 1) em.shiftRightOne := by
  obtain ⟨hquotient, hhalf, hrest⟩ := h
  have hlt := Nat.mod_lt n (Nat.two_pow_pos k)
  have hunit : 2 ^ (k + 1) = 2 ^ k + 2 ^ k := by rw [Nat.pow_succ, Nat.mul_two]
  -- the lost digit becomes the half, and the half before it a part of the rest
  have hnext : n / 2 ^ k % 2 = 0 ∧ n % 2 ^ (k + 1) = n % 2 ^ k ∨
      n / 2 ^ k % 2 = 1 ∧ n % 2 ^ (k + 1) = n % 2 ^ k + 2 ^ k := by
    rw [Nat.mod_pow_succ]
    obtain h | h := Nat.mod_two_eq_zero_or_one (n / 2 ^ k) <;> simp [h]
  refine ⟨?_, ?_, ?_⟩
  · rw [ExtendedMantissa.shiftRightOne, hquotient, Nat.div_div_eq_div_mul, Nat.pow_succ]
  · simp only [ExtendedMantissa.shiftRightOne, hquotient, bne_iff_ne]
    omega
  · simp only [ExtendedMantissa.shiftRightOne, Bool.or_eq_true, hhalf, hrest]
    omega

/-- Several bits are cut off one by one. -/
theorem Cut.of_shiftRight (n : Nat) :
    ∀ k : Nat, Cut n k (ExtendedMantissa.ofMantissaAndAccuracy n .exact >>> k)
  | 0 => .of_exact n
  | k + 1 => (of_shiftRight n k).shiftRightOne

/-- Rounding by the two bits is division to the nearest whole. -/
theorem Cut.roundedMantissa_eq (h : Cut n k em) : em.roundedMantissa = shiftRight n k := by
  obtain ⟨hquotient, hhalf, hrest⟩ := h
  have hpos := Nat.two_pow_pos k
  obtain ⟨q, round, sticky⟩ := em
  simp only at hquotient hhalf hrest
  rcases shiftRight_cases n k with ⟨hup, h⟩ | ⟨hdown, h⟩
  all_goals
    rw [h, RoundsUp] at *
    cases round <;> cases sticky <;>
      simp only [ExtendedMantissa.roundedMantissa, ExtendedMantissa.accuracy,
        UnpackedFloat.Accuracy.roundToNearestEven] <;>
      simp at hhalf hrest <;> omega

/-! ## One rounding -/

/-- A canonical finite number of so many units. -/
structure Represents (u : UnpackedFloat) (x : Int) : Prop where
  canonical : Canonical u
  finite : u.isFinite = true
  units : unitsOf u = x

/-- A size has the excess that its mantissa and exponent leave. -/
theorem excess_size (hm : 0 < m) (e : Int) :
    excess (size m e) = bitLength m + (e + 1074).toNat - 53 := by
  rw [size, excess, bitLength_scale hm]

/-- The exponent at which 53 digits are left. -/
theorem targetExponent_eq (hm : 0 < m) (he : -1074 ≤ e) :
    Format.binary64.targetExponent (totalExponent m e) = excess (size m e) - 1074 := by
  have hwidth : (Format.binary64.mantissaBits : Int) = 53 := rfl
  have hleast : Format.binary64.minExponent = -1074 := rfl
  rw [Format.targetExponent, totalExponent, excess_size hm, bitLength, if_neg hm.ne', hwidth, hleast]
  omega

/-- A mantissa fits if it is full or the exponent is the least, and if its size stays below the
limit. -/
theorem Fits.of_size_lt_limit (hshort : m < 2 ^ 53) (hleast : -1074 ≤ e)
    (hfull : 2 ^ 52 ≤ m ∨ e = -1074) (hsize : size m e < limit) : Fits m e := by
  refine ⟨hshort, hleast, Int.not_lt.mp fun hlt => Nat.not_le.mpr hsize ?_, hfull⟩
  have hnormal : 2 ^ 52 ≤ m := hfull.resolve_right (by omega)
  calc limit = size (2 ^ 52) (971 + 1) := limit_eq
    _ ≤ size m e := size_le_size hnormal hlt

/-- A significand in range stays at its exponent; one that has grown to 54 digits moves to the next
exponent and loses a zero. -/
theorem exists_shiftToTargetExponent (hm : 0 < m) (hle : m ≤ 2 ^ 53) (he : -1074 ≤ e)
    (hfull : 2 ^ 52 ≤ m ∨ e = -1074) :
    ∃ em e', UnpackedFloat.shiftToTargetExponent .binary64 m e .exact = (em, e') ∧
      0 < em.mantissa ∧ em.mantissa < 2 ^ 53 ∧ -1074 ≤ e' ∧
      (2 ^ 52 ≤ em.mantissa ∨ e' = -1074) ∧ size em.mantissa e' = size m e := by
  refine ⟨_, _, rfl, ?_⟩
  rw [targetExponent_eq hm he, excess_size hm, (Cut.of_shiftRight m _).quotient]
  obtain hlt | rfl := Nat.lt_or_eq_of_le hle
  · have hstay : ((bitLength m + (e + 1074).toNat - 53 : Nat) - 1074 - e : Int).toNat = 0 := by
      have hshort : bitLength m ≤ 53 := bitLength_le.mpr hlt
      have hlong : 52 < bitLength m ↔ 2 ^ 52 ≤ m := lt_bitLength
      omega
    rw [hstay, Nat.pow_zero, Nat.div_one, Int.natCast_zero, Int.add_zero]
    exact ⟨hm, hlt, he, hfull, rfl⟩
  · have hmove : ((bitLength (2 ^ 53) + (e + 1074).toNat - 53 : Nat) - 1074 - e : Int).toNat = 1 := by
      have hlength : bitLength (2 ^ 53) = 54 := by decide
      omega
    rw [hmove]
    exact ⟨by decide, by decide, by omega, .inl (by decide), (size_two_pow he).symm⟩

/-- The first shift and rounding: what is left is a whole number of 53 digits, or the power of two
after those. -/
theorem exists_rounded (hm : 0 < m) (he : -1074 ≤ e)
    (htarget : e ≤ Format.binary64.targetExponent (totalExponent m e)) :
    ∃ em e', UnpackedFloat.shiftToTargetExponent .binary64 m e .exact = (em, e') ∧
      0 < em.roundedMantissa ∧ em.roundedMantissa ≤ 2 ^ 53 ∧ -1074 ≤ e' ∧
      (2 ^ 52 ≤ em.roundedMantissa ∨ e' = -1074) ∧
      size em.roundedMantissa e' = nearestNat (size m e) := by
  refine ⟨_, _, rfl, ?_⟩
  rw [targetExponent_eq hm he] at htarget ⊢
  obtain ⟨k, hk⟩ := Int.eq_ofNat_of_zero_le (Int.sub_nonneg.mpr htarget)
  have hexcess : excess (size m e) = k + (e + 1074).toNat := by omega
  have hshift : shiftRight m k = shiftRight (size m e) (excess (size m e)) := by
    rw [hexcess, size, shiftRight_scale]
  rw [hk, Int.toNat_natCast, (Cut.of_shiftRight m k).roundedMantissa_eq, hshift]
  have hle := shiftRight_excess_le (size m e)
  have hexponent : (e + k + 1074).toNat = excess (size m e) := by omega
  obtain hzero | hpos := Nat.eq_zero_or_pos (excess (size m e))
  · have hsame : shiftRight (size m e) (excess (size m e)) = size m e := by
      have := shiftRight_mul (size m e) 0
      rwa [Nat.pow_zero, Nat.mul_one, ← hzero] at this
    refine ⟨by rw [hsame]; exact size_pos hm e, hle, by omega, .inr (by omega), ?_⟩
    rw [nearestNat, size, hexponent]
  · have hge := le_shiftRight_excess hpos
    refine ⟨by omega, hle, by omega, .inl hge, ?_⟩
    rw [nearestNat, size, hexponent]

/-- Rounding gives a canonical number, the nearest one. -/
theorem Represents.of_roundWithAccuracy (s : Sign) (hm : 0 < m) (he : -1074 ≤ e)
    (htarget : e ≤ Format.binary64.targetExponent (totalExponent m e))
    (hlimit : nearestNat (size m e) < limit) :
    Represents (.roundWithAccuracy .binary64 s m e .exact) (s.apply (nearestNat (size m e))) := by
  obtain ⟨em, e₁, hfirst, hpos, hle, hleast, hfull, hsize⟩ := exists_rounded hm he htarget
  obtain ⟨em', e₂, hsecond, hpos', hlt, hleast', hfull', hsize'⟩ :=
    exists_shiftToTargetExponent hpos hle hleast hfull
  rw [hsize] at hsize'
  have hround : UnpackedFloat.roundWithAccuracy .binary64 s m e .exact =
      .finite s em'.mantissa e₂ hpos' := by
    rw [UnpackedFloat.roundWithAccuracy, hfirst]
    dsimp only
    rw [hsecond]
    exact dif_neg hpos'.ne'
  rw [hround]
  exact ⟨.of_size_lt_limit hlt hleast' hfull' (hsize' ▸ hlimit), rfl,
    congrArg (fun n : Nat => s.apply n) hsize'⟩

/-- A lower exponent changes the significand and not the number. -/
theorem size_shiftLeft (m d : Nat) (hd : d ≤ e + 1074) : size (m <<< d) (e - d) = size m e := by
  have hsum : (e + 1074).toNat = d + (e - d + 1074).toNat := by omega
  rw [size, size, Nat.shiftLeft_eq, hsum, Nat.pow_add, Nat.mul_assoc]

/-- A float that is rounded represents the number nearest to its size. -/
theorem Represents.of_round (s : Sign) (hm : 0 < m) (he : -1074 ≤ e)
    (hlimit : nearestNat (size m e) < limit) :
    Represents (.round .binary64 s m e) (s.apply (nearestNat (size m e))) := by
  have ht := targetExponent_eq hm he
  rw [UnpackedFloat.round]
  generalize Format.binary64.targetExponent (totalExponent m e) = t at ht ⊢
  obtain ⟨d, hd⟩ : ∃ d, (e - t).toNat = d := ⟨_, rfl⟩
  have hsize := size_shiftLeft m d (e := e) (by omega)
  have hpos : 0 < m <<< d := by
    rw [Nat.shiftLeft_eq]
    exact Nat.mul_pos hm (Nat.two_pow_pos d)
  simp only [UnpackedFloat.decreaseExponent, hd]
  rw [← hsize] at hlimit ht ⊢
  exact .of_roundWithAccuracy s hpos (by omega)
    (by rw [targetExponent_eq hpos (by omega)]; omega) hlimit

/-- A size as an integer. -/
theorem natCast_size (m : Nat) (e : Int) : (size m e : Int) = m * 2 ^ (e + 1074).toNat := by
  rw [size, natCast_mul_two_pow]

/-- A number of units, counted at any exponent. -/
theorem Represents.of_normalize (x : Int) (zero : Sign) (he : -1074 ≤ e)
    (hlimit : (nearest (x * 2 ^ (e + 1074).toNat)).natAbs < limit) :
    Represents (.normalize .binary64 x e zero) (nearest (x * 2 ^ (e + 1074).toNat)) := by
  obtain ⟨m, rfl | rfl⟩ := x.eq_nat_or_neg <;> obtain rfl | hm := Nat.eq_zero_or_pos m
  · refine ⟨trivial, rfl, ?_⟩
    rw [Int.natCast_zero, Int.zero_mul, nearest_zero]
    rfl
  · rw [← natCast_size, nearest_natCast] at hlimit ⊢
    rw [UnpackedFloat.normalize, Int.compare_eq_gt.mpr (by omega)]
    exact .of_round .positive hm he hlimit
  · refine ⟨trivial, rfl, ?_⟩
    rw [Int.natCast_zero, Int.neg_zero, Int.zero_mul, nearest_zero]
    rfl
  · rw [Int.neg_mul, nearest_neg, ← natCast_size, nearest_natCast] at hlimit ⊢
    rw [UnpackedFloat.normalize, Int.compare_eq_lt.mpr (by omega), Int.neg_neg]
    exact .of_round .negative hm he (by rwa [Int.natAbs_neg] at hlimit)

/-! ## Sums -/

variable {u v : UnpackedFloat} {a b : Int}

/-- A sign applies to a product through its first factor. -/
theorem apply_mul (s : Sign) (x y : Int) : s.apply x * y = s.apply (x * y) := by
  cases s with
  | positive => rfl
  | negative => exact Int.neg_mul x y

/-- A canonical number has room for all its digits. -/
theorem Represents.nearest_eq (h : Represents u a) : nearest a = a := by
  obtain ⟨hcanonical, hfinite, rfl⟩ := h
  match u, hcanonical, hfinite with
  | .zero _, _, _ => exact nearest_zero
  | .finite s m e hm, hfits, _ =>
    have hshort := Fits.short hfits
    change nearest (s.apply (size m e)) = s.apply (size m e)
    rw [natCast_size, ← apply_mul]
    exact nearest_of_room (by cases s <;> simp only [Sign.apply] <;> omega) _

/-- A finite number brought down to a lower exponent. -/
theorem apply_shiftLeft (s : Sign) (m : Nat) {t : Int} (ht : -1074 ≤ t) (hte : t ≤ e) :
    s.apply (m <<< (e - t).toNat : Nat) * 2 ^ (t + 1074).toNat = s.apply (size m e) := by
  have hsize := size_shiftLeft m (e - t).toNat (e := e) (by omega)
  have hexponent : e - (e - t).toNat = t := by omega
  rw [apply_mul, ← natCast_size, ← hsize, hexponent]

/-- The sum is rounded once. -/
theorem Represents.add (hu : Represents u a) (hv : Represents v b)
    (hlimit : (nearest (a + b)).natAbs < limit) :
    Represents (.add .binary64 u v) (nearest (a + b)) := by
  match u, v, hu, hv with
  | .zero s, .zero t, hu, hv =>
    obtain rfl : 0 = a := hu.units
    obtain rfl : 0 = b := hv.units
    rw [Int.add_zero, nearest_zero]
    cases s <;> cases t <;> exact ⟨trivial, rfl, rfl⟩
  | .zero _, .finite t n f hn, hu, hv =>
    obtain rfl : 0 = a := hu.units
    rwa [Int.zero_add, hv.nearest_eq]
  | .finite s m e hm, .zero _, hu, hv =>
    obtain rfl : 0 = b := hv.units
    rwa [Int.add_zero, hu.nearest_eq]
  | .finite s m e hm, .finite t n f hn, hu, hv =>
    have he : -1074 ≤ e := Fits.least hu.canonical
    have hf : -1074 ≤ f := Fits.least hv.canonical
    have hsum : (s.apply (m <<< (e - min e f).toNat : Nat) +
        t.apply (n <<< (f - min e f).toNat : Nat)) * 2 ^ (min e f + 1074).toNat = a + b := by
      rw [Int.add_mul, apply_shiftLeft s m (by omega) (by omega),
        apply_shiftLeft t n (by omega) (by omega)]
      exact congrArg₂ (· + ·) hu.units hv.units
    rw [← hsum] at hlimit ⊢
    exact .of_normalize _ .positive (by omega) hlimit

/-- What is put into a double comes out of it. -/
theorem Represents.ofModel_pack (h : Represents u a) :
    Represents (Float.ofModel (.pack u)).toModel.unpack a := by
  have hsame : (Float.ofModel (.pack u)).toModel.unpack = u := unpack_pack h.canonical
  rwa [hsame]

variable {x y : Float}

/-- A finite float represents its units. -/
theorem represents_units (h : x.isFinite = true) : Represents x.toModel.unpack (units x) :=
  ⟨canonical x, h, rfl⟩

/-- What represents something is a number. -/
theorem Represents.isNaN (h : Represents x.toModel.unpack a) : x.isNaN = false :=
  isNaN_eq_false_iff.mpr fun hnan => nomatch hnan ▸ h.finite

/-- The sum of two finite doubles is the nearest number to the exact sum. -/
theorem units_add (hx : x.isFinite = true) (hy : y.isFinite = true)
    (hlimit : (nearest (units x + units y)).natAbs < limit) :
    (x + y).isFinite = true ∧ units (x + y) = nearest (units x + units y) :=
  have h := ((represents_units hx).add (represents_units hy) hlimit).ofModel_pack
  ⟨h.finite, h.units⟩

/-! ## Integers as doubles -/

/-- With exponent zero a size is counted in ones. -/
theorem size_zero (n : Nat) : size n 0 = n * one := by
  rw [size, one, size, Nat.one_mul]

/-- Rounding is the same in units as in ones. -/
theorem nearestNat_mul_one (n : Nat) : nearestNat (n * one) = nearestNat n * one := by
  rw [one, size, Nat.one_mul, nearestNat_scale]

/-- The same for integers. -/
theorem nearest_mul_one (x : Int) : nearest (x * one) = nearest x * one := by
  rw [one, natCast_size, Int.natCast_one, Int.one_mul, nearest_scale]

/-- Integers of 64 bits are far below the limit. -/
theorem mul_one_lt_limit (hn : n ≤ 2 ^ 64) : n * one < limit := by
  calc n * one ≤ 2 ^ 52 <<< 12 * one := Nat.mul_le_mul_right _ hn
    _ = size (2 ^ 52 <<< 12) (12 - (12 : Nat)) := (size_zero _).symm
    _ = size (2 ^ 52) 12 := size_shiftLeft _ _ (by decide)
    _ < limit := size_lt_size (by decide) (by decide)

/-- A number not below one keeps its value when it is multiplied by one. -/
theorem Represents.mul_one (h : Represents u a) (ha : a = 0 ∨ one ≤ a.natAbs) (hpos : 0 < 2 ^ 52) :
    Represents (.mul .binary64 u (.finite .positive (2 ^ 52) (-52) hpos)) a := by
  match u, h with
  | .zero _, h => exact ⟨trivial, rfl, h.units⟩
  | .finite s m e hm, h =>
    obtain ⟨hshort, hleast, -, hfull⟩ : Fits m e := h.canonical
    have hlimit : size m e < limit := Fits.size_lt_limit h.canonical
    obtain rfl : s.apply (size m e) = a := h.units
    have hpositive : 0 < size m e := size_pos hm e
    have hone : one = size (2 ^ 53) (-53) := (size_shiftLeft 1 53 (e := 0) (by decide)).symm
    have hexponent : -53 < e := Int.not_le.mp fun hle => by
      have := size_lt_size hshort hle
      cases s <;> simp only [Sign.apply] at ha <;> omega
    have hlength : 52 < bitLength m := lt_bitLength.mpr (hfull.resolve_right (by omega))
    have hsize : size (m * 2 ^ 52) (e + -52) = size m e := by
      rw [← Nat.shiftLeft_eq]
      exact size_shiftLeft m 52 (by omega)
    have hsame : nearestNat (size m e) = size m e := by
      rw [size]
      exact nearestNat_of_room (Nat.le_of_lt hshort) _
    have hsign : s * .positive = s := by cases s <;> rfl
    have hround := of_roundWithAccuracy s (m := m * 2 ^ 52) (e := e + -52) (by omega) (by omega)
      (by rw [targetExponent_eq (by omega) (by omega), hsize, excess_size hm]; omega)
      (by rwa [hsize, hsame])
    rw [hsize, hsame] at hround
    change Represents (.roundWithAccuracy .binary64 (s * .positive) (m * 2 ^ 52) (e + -52) .exact) _
    rwa [hsign]

/-- The opposite number. -/
theorem Represents.neg (h : Represents u a) : Represents u.neg (-a) := by
  match u, h with
  | .zero _, h => exact ⟨trivial, rfl, congrArg (- ·) h.units⟩
  | .finite s m e hm, h =>
    obtain rfl : s.apply (size m e) = a := h.units
    refine ⟨h.canonical, rfl, ?_⟩
    cases s with
    | positive => rfl
    | negative => exact (Int.neg_neg _).symm

/-- A rounded size in ones, as an integer. -/
theorem nearestNat_size_zero (n : Nat) : (nearestNat (size n 0) : Int) = nearestNat n * one := by
  rw [size_zero, nearestNat_mul_one, Int.natCast_mul]

/-- It stays below the limit. -/
theorem nearestNat_size_zero_lt_limit {n : Nat} (hn : n ≤ 2 ^ 63) : nearestNat (size n 0) < limit := by
  rw [size_zero, nearestNat_mul_one]
  exact mul_one_lt_limit (Nat.le_trans (nearestNat_le_two_pow hn) (by decide))

/-- A word becomes the float nearest to it. -/
theorem represents_toFloat {w : UInt64} (hw : w.toNat ≤ 2 ^ 63) :
    Represents w.toFloat.toModel.unpack (nearestNat w.toNat * one) := by
  have hnormal := Represents.of_normalize w.toNat .positive (e := 0) (by decide)
    (by
      rw [← natCast_size, nearest_natCast, Int.natAbs_natCast]
      exact nearestNat_size_zero_lt_limit hw)
  rw [← natCast_size, nearest_natCast, nearestNat_size_zero] at hnormal
  exact hnormal.ofModel_pack

/-- A literal of at most 53 bits is converted exactly. -/
theorem ofNat_of_lt {n : Nat} (h : n < 2 ^ 53) :
    Float.ofNat n = n.toUInt64.toFloat * Float.ofBits 0x3FF0000000000000 := by
  change Float.ofScientific n false 0 = _
  rw [Float.ofScientific, dif_pos ⟨h, by decide⟩]
  rfl

/-- A longer one is rounded once. -/
theorem ofNat_of_le {n : Nat} (h : 2 ^ 53 ≤ n) :
    Float.ofNat n = .ofModel (.pack
      (.roundWithAccuracy .binary64 .positive (n <<< 53) (0 - (53 : Nat)) .exact)) := by
  have hscientific : UnpackedFloat.ofScientific .binary64 n 0 =
      .roundWithAccuracy .binary64 .positive (n <<< 53 * 1) (0 - (53 : Nat)) .exact := by
    rw [UnpackedFloat.ofScientific, dif_neg (by omega), if_neg (by decide),
      if_neg (by simp only; omega), if_pos (by decide)]
    rfl
  change Float.ofScientific n false 0 = _
  rw [Float.ofScientific, dif_neg fun h' => Nat.not_lt.mpr h h'.1]
  exact congrArg (fun u => Float.ofModel (.pack u)) (hscientific.trans (by rw [Nat.mul_one]))

/-- A natural number is converted to the nearest double. -/
theorem represents_ofNat {n : Nat} (hn : n ≤ 2 ^ 63) :
    Represents (Float.ofNat n).toModel.unpack (nearestNat n * one) := by
  obtain hlt | hge := Nat.lt_or_ge n (2 ^ 53)
  · have hword : n.toUInt64.toNat = n := Nat.mod_eq_of_lt (by omega)
    have hconverted := represents_toFloat (w := n.toUInt64) (by omega)
    rw [hword] at hconverted
    rw [ofNat_of_lt hlt]
    refine Represents.ofModel_pack (hconverted.mul_one ?_ (by decide))
    rw [nearestNat_of_lt hlt, ← Int.natCast_mul, Int.natAbs_natCast]
    obtain rfl | hpos := Nat.eq_zero_or_pos n
    · exact .inl (congrArg Nat.cast (Nat.zero_mul one))
    · exact .inr (Nat.le_mul_of_pos_left one hpos)
  · have hsize := size_shiftLeft n 53 (e := 0) (by decide)
    have hpos : 0 < n <<< 53 := by
      rw [Nat.shiftLeft_eq]
      omega
    have hlength : 53 < bitLength n := lt_bitLength.mpr hge
    have hround := Represents.of_roundWithAccuracy .positive hpos (e := 0 - (53 : Nat)) (by decide)
      (by rw [targetExponent_eq hpos (by decide), hsize, excess_size (by omega)]; omega)
      (by rw [hsize]; exact nearestNat_size_zero_lt_limit hn)
    rw [hsize, Sign.apply, nearestNat_size_zero] at hround
    rw [ofNat_of_le hge]
    exact hround.ofModel_pack

end Abacus.Real

namespace Abacus.Number

open Abacus.Real

/-- An integer of 64 bits is converted to the nearest double. -/
theorem represents_ofInt64 (n : Int64) :
    Represents (ofInt64 n).toModel.unpack (nearest n.toInt * one) := by
  have hlow := n.le_toInt
  have hhigh := n.toInt_lt
  rw [ofInt64]
  generalize n.toInt = x at hlow hhigh
  cases x with
  | ofNat m =>
    rw [Int.ofNat_eq_natCast] at hhigh
    exact nearest_natCast m ▸ represents_ofNat (by omega)
  | negSucc m =>
    have hneg := (represents_ofNat (n := m + 1) (by omega)).neg.ofModel_pack
    rwa [← Int.neg_mul, ← nearest_natCast, ← nearest_neg] at hneg

/-- An integer of 64 bits becomes the float nearest to it. -/
theorem units_ofInt64 (n : Int64) : units (ofInt64 n) = nearest n.toInt * one :=
  (represents_ofInt64 n).units

/-- The sum of two integers of 64 bits as reals: both are rounded, and then their sum is. -/
theorem represents_add_ofInt64 (m n : Int64) :
    Represents (ofInt64 m + ofInt64 n).toModel.unpack
      (nearest (nearest m.toInt + nearest n.toInt) * one) := by
  have hscaled : nearest (nearest m.toInt * one + nearest n.toInt * one) =
      nearest (nearest m.toInt + nearest n.toInt) * one := by
    rw [← Int.add_mul, nearest_mul_one]
  have hpart : ∀ n : Int64, (nearest n.toInt).natAbs ≤ 2 ^ 63 := fun n =>
    natAbs_nearest_le (by have := n.le_toInt; have := n.toInt_lt; omega)
  have hsum := natAbs_nearest_le (x := nearest m.toInt + nearest n.toInt) (k := 64)
    (by have := hpart m; have := hpart n; omega)
  rw [← hscaled]
  refine ((represents_ofInt64 m).add (represents_ofInt64 n) ?_).ofModel_pack
  rw [hscaled, Int.natAbs_mul, Int.natAbs_natCast]
  exact mul_one_lt_limit hsum

end Abacus.Number
