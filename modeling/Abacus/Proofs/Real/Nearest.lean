import Abacus.Real.Dyadic
import Mathlib.Algebra.Order.Ring.Int

/-!
# The nearest number of 53 binary digits

A double has room for 53 binary digits. `Real.nearest` cuts an integer down to so many: it divides
the size by the power of two that is too much, to the nearest whole with a half to the even one
(`Dyadic.shiftRight`), and multiplies again.

**The laws.** Rounding keeps the order (`Real.nearest_mono`), leaves what has room as it is
(`Real.nearest_of_room`), and does not see a power of two that scales everything
(`Real.nearest_scale`). A sum that reaches a power of two still reaches it when its parts are rounded
and then the sum of these (`Real.le_nearest_add`).
-/

namespace Abacus

namespace Dyadic

variable {m n k : Nat}

/-! ## Binary digits -/

/-- A number has at most `k` bits if it is less than `2 ^ k`. -/
theorem bitLength_le : bitLength n ≤ k ↔ n < 2 ^ k := by
  rw [bitLength]
  split
  · next h =>
    rw [h]
    exact iff_of_true (Nat.zero_le k) (Nat.two_pow_pos k)
  · next h => exact Nat.succ_le_iff.trans (Nat.log2_lt h)

/-- A number is less than the power of two of its length. -/
theorem lt_two_pow_bitLength (n : Nat) : n < 2 ^ bitLength n := bitLength_le.mp (Nat.le_refl _)

/-- And not less than the power before. -/
theorem lt_bitLength : k < bitLength n ↔ 2 ^ k ≤ n := by
  rw [← Nat.not_le, bitLength_le, Nat.not_lt]

/-- A greater number is not shorter. -/
theorem bitLength_mono (h : m ≤ n) : bitLength m ≤ bitLength n :=
  bitLength_le.mpr (Nat.lt_of_le_of_lt h (lt_two_pow_bitLength n))

/-- Each doubling adds a bit. -/
theorem bitLength_scale (hn : 0 < n) (k : Nat) : bitLength (n * 2 ^ k) = bitLength n + k := by
  have hpos : 0 < bitLength n := Nat.pos_of_ne_zero fun h => by
    have := lt_two_pow_bitLength n
    rw [h] at this
    omega
  have hlow : 2 ^ (bitLength n - 1) ≤ n := lt_bitLength.mp (by omega)
  refine Nat.le_antisymm (bitLength_le.mpr ?_) (Nat.not_lt.mp fun hlt => ?_)
  · rw [Nat.pow_add]
    exact Nat.mul_lt_mul_of_pos_right (lt_two_pow_bitLength n) (Nat.two_pow_pos k)
  · have hshort : n * 2 ^ k < 2 ^ (bitLength n - 1 + k) := bitLength_le.mp (by omega)
    rw [Nat.pow_add] at hshort
    exact absurd (Nat.lt_of_mul_lt_mul_right hshort) (Nat.not_lt.mpr hlow)

/-! ## Division to the nearest whole -/

/-- Whether the rest of a division by a power of two makes the quotient go up. -/
def RoundsUp (n k : Nat) : Prop :=
  2 ^ k < 2 * (n % 2 ^ k) ∨ 2 * (n % 2 ^ k) = 2 ^ k ∧ n / 2 ^ k % 2 = 1

/-- What is shifted out makes the quotient one greater, or leaves it. -/
theorem shiftRight_cases (n k : Nat) : RoundsUp n k ∧ shiftRight n k = n / 2 ^ k + 1 ∨
    ¬ RoundsUp n k ∧ shiftRight n k = n / 2 ^ k := by
  by_cases h : RoundsUp n k
  · exact .inl ⟨h, if_pos h⟩
  · exact .inr ⟨h, if_neg h⟩

/-- So the result is the quotient or the next number. -/
theorem shiftRight_bounds (n k : Nat) :
    n / 2 ^ k ≤ shiftRight n k ∧ shiftRight n k ≤ n / 2 ^ k + 1 := by
  rcases shiftRight_cases n k with ⟨-, h⟩ | ⟨-, h⟩ <;> omega

/-- The result is at most half a unit away. -/
theorem shiftRight_near (n k : Nat) :
    2 * (shiftRight n k * 2 ^ k) ≤ 2 * n + 2 ^ k ∧ 2 * n ≤ 2 * (shiftRight n k * 2 ^ k) + 2 ^ k := by
  have hsplit := Nat.div_add_mod' n (2 ^ k)
  have hrest := Nat.mod_lt n (Nat.two_pow_pos k)
  rcases shiftRight_cases n k with ⟨hup, h⟩ | ⟨hdown, h⟩
  · have hhalf : 2 ^ k ≤ 2 * (n % 2 ^ k) := hup.elim Nat.le_of_lt fun h => Nat.le_of_eq h.1.symm
    rw [h, Nat.add_mul, Nat.one_mul]
    omega
  · have hhalf : 2 * (n % 2 ^ k) ≤ 2 ^ k := Nat.not_lt.mp fun hlt => hdown (.inl hlt)
    rw [h]
    omega

/-- A greater number does not become less. -/
theorem shiftRight_mono (h : m ≤ n) : shiftRight m k ≤ shiftRight n k := by
  have hquotient : m / 2 ^ k ≤ n / 2 ^ k := Nat.div_le_div_right h
  obtain hlt | heq := Nat.lt_or_eq_of_le hquotient
  · exact Nat.le_trans (shiftRight_bounds m k).2 (Nat.le_trans hlt (shiftRight_bounds n k).1)
  · -- the quotients are the same, so the rests are in order
    have hm := Nat.div_add_mod' m (2 ^ k)
    have hn := Nat.div_add_mod' n (2 ^ k)
    have hup : RoundsUp m k → RoundsUp n k := by
      rw [RoundsUp, RoundsUp, ← heq]
      rw [← heq] at hn
      omega
    rcases shiftRight_cases m k with ⟨hm', h'⟩ | ⟨-, h'⟩ <;>
      rcases shiftRight_cases n k with ⟨-, h⟩ | ⟨hn', h⟩
    · omega
    · exact absurd (hup hm') hn'
    · omega
    · omega

/-- A multiple of the unit is divided exactly. -/
theorem shiftRight_mul (m k : Nat) : shiftRight (m * 2 ^ k) k = m := by
  have hpos := Nat.two_pow_pos k
  have hrest : m * 2 ^ k % 2 ^ k = 0 := Nat.mul_mod_left m _
  have hquotient : m * 2 ^ k / 2 ^ k = m := Nat.mul_div_cancel m hpos
  rcases shiftRight_cases (m * 2 ^ k) k with ⟨hup, -⟩ | ⟨-, h⟩
  · rw [RoundsUp, hrest] at hup
    omega
  · rw [h, hquotient]

/-- Only the proportion to the unit counts. -/
theorem shiftRight_scale (n k j : Nat) : shiftRight (n * 2 ^ j) (k + j) = shiftRight n k := by
  have hpos := Nat.two_pow_pos j
  have hquotient : n * 2 ^ j / 2 ^ (k + j) = n / 2 ^ k := by
    rw [Nat.pow_add, Nat.mul_div_mul_right _ _ hpos]
  have hrest : 2 * (n * 2 ^ j % 2 ^ (k + j)) = 2 * (n % 2 ^ k) * 2 ^ j := by
    rw [Nat.pow_add, Nat.mul_mod_mul_right, Nat.mul_assoc]
  have hiff : RoundsUp (n * 2 ^ j) (k + j) ↔ RoundsUp n k := by
    rw [RoundsUp, RoundsUp, hquotient, hrest, Nat.pow_add, Nat.mul_lt_mul_right hpos,
      Nat.mul_left_inj hpos.ne']
  rcases shiftRight_cases (n * 2 ^ j) (k + j) with ⟨hup, h⟩ | ⟨hdown, h⟩
  · rw [h, hquotient]
    exact (if_pos (hiff.mp hup)).symm
  · rw [h, hquotient]
    exact (if_neg (mt hiff.mpr hdown)).symm

end Dyadic

namespace Real

open Abacus.Dyadic

variable {m n k : Nat}

/-! ## Natural numbers -/

/-- How many binary digits of a natural number a double has no room for. -/
def excess (n : Nat) : Nat := bitLength n - 53

/-- The multiple of a power of two nearest to a natural number, with at most 53 binary digits before
the zeros. -/
def nearestNat (n : Nat) : Nat := shiftRight n (excess n) * 2 ^ excess n

/-- Without its excess bits a number has at most 53. -/
theorem lt_two_pow_excess (n : Nat) : n < 2 ^ 53 * 2 ^ excess n := by
  rw [← Nat.pow_add]
  exact bitLength_le.mp (by rw [excess]; omega)

/-- And has 53 of them if there is an excess. -/
theorem two_pow_excess_le (h : 0 < excess n) : 2 ^ 52 * 2 ^ excess n ≤ n := by
  rw [← Nat.pow_add]
  exact lt_bitLength.mp (by rw [excess] at *; omega)

/-- A greater number has no less excess. -/
theorem excess_mono (h : m ≤ n) : excess m ≤ excess n := Nat.sub_le_sub_right (bitLength_mono h) 53

/-- What is left of the digits is a whole number of 53 of them, or the power of two after those. -/
theorem shiftRight_excess_le (n : Nat) : shiftRight n (excess n) ≤ 2 ^ 53 :=
  Nat.le_trans (shiftRight_bounds n _).2
    (Nat.div_lt_of_lt_mul (by rw [Nat.mul_comm]; exact lt_two_pow_excess n))

/-- What is left when the excess is shifted out has 53 bits. -/
theorem le_shiftRight_excess (h : 0 < excess n) : 2 ^ 52 ≤ shiftRight n (excess n) :=
  Nat.le_trans ((Nat.le_div_iff_mul_le (Nat.two_pow_pos _)).mpr (two_pow_excess_le h))
    (shiftRight_bounds n _).1

/-- A greater number is not rounded to less. -/
theorem nearestNat_mono (h : m ≤ n) : nearestNat m ≤ nearestNat n := by
  obtain heq | hlt := Nat.eq_or_lt_of_le (excess_mono h)
  · rw [nearestNat, nearestNat, heq]
    exact Nat.mul_le_mul_right _ (shiftRight_mono h)
  · -- the power of two from which on the greater one loses more digits lies between the two
    calc nearestNat m ≤ 2 ^ 53 * 2 ^ excess m := Nat.mul_le_mul_right _ (shiftRight_excess_le m)
      _ = 2 ^ 52 * 2 ^ (excess m + 1) := by rw [Nat.pow_succ 2 52, Nat.pow_succ 2 (excess m)]; omega
      _ ≤ 2 ^ 52 * 2 ^ excess n := Nat.mul_le_mul_left _ (Nat.pow_le_pow_right Nat.two_pos hlt)
      _ ≤ nearestNat n := Nat.mul_le_mul_right _ (le_shiftRight_excess (Nat.zero_lt_of_lt hlt))

/-- A natural number of 53 binary digits has room. -/
theorem nearestNat_of_lt (h : n < 2 ^ 53) : nearestNat n = n := by
  have hroom : excess n = 0 := Nat.sub_eq_zero_of_le (bitLength_le.mpr h)
  have hself := shiftRight_mul n 0
  rw [Nat.pow_zero, Nat.mul_one] at hself
  rw [nearestNat, hroom, hself, Nat.pow_zero, Nat.mul_one]

/-- Rounding looks at the bits only, not at where they stand. -/
theorem nearestNat_scale (n k : Nat) : nearestNat (n * 2 ^ k) = nearestNat n * 2 ^ k := by
  obtain rfl | hn := Nat.eq_zero_or_pos n
  · rw [nearestNat_of_lt (Nat.two_pow_pos 53), Nat.zero_mul, nearestNat_of_lt (Nat.two_pow_pos 53)]
  have hexcess : excess (n * 2 ^ k) = bitLength n + k - 53 := by rw [excess, bitLength_scale hn]
  obtain hroom | hlong := Nat.lt_or_ge (bitLength n) 53
  · -- all the digits have room, and some of the zeros are not divided off
    have hunit : 2 ^ k = 2 ^ (k - excess (n * 2 ^ k)) * 2 ^ excess (n * 2 ^ k) := by
      rw [← Nat.pow_add]
      exact congrArg _ (by omega)
    rw [nearestNat_of_lt (bitLength_le.mp (Nat.le_of_lt hroom)), nearestNat]
    generalize excess (n * 2 ^ k) = j at hunit
    rw [hunit, ← Nat.mul_assoc, shiftRight_mul]
  · have hsum : excess (n * 2 ^ k) = excess n + k := by rw [hexcess, excess]; omega
    rw [nearestNat, nearestNat, hsum, shiftRight_scale, Nat.pow_add, Nat.mul_assoc]

/-- What has room stays as it is, with any number of zeros. -/
theorem nearestNat_of_room (hm : m ≤ 2 ^ 53) (k : Nat) : nearestNat (m * 2 ^ k) = m * 2 ^ k := by
  rw [nearestNat_scale]
  obtain hlt | rfl := Nat.lt_or_eq_of_le hm
  · rw [nearestNat_of_lt hlt]
  · have htop : nearestNat (1 * 2 ^ 53) = 1 * 2 ^ 53 := by
      rw [nearestNat_scale, nearestNat_of_lt (by decide)]
    rw [Nat.one_mul] at htop
    rw [htop]

/-- A power of two is a float. -/
theorem nearestNat_two_pow (k : Nat) : nearestNat (2 ^ k) = 2 ^ k := by
  have hone := nearestNat_of_room (m := 1) (by decide) k
  rwa [Nat.one_mul] at hone

/-- So no number is rounded beyond one. -/
theorem nearestNat_le_two_pow (h : n ≤ 2 ^ k) : nearestNat n ≤ 2 ^ k :=
  Nat.le_trans (nearestNat_mono h) (Nat.le_of_eq (nearestNat_two_pow k))

/-- Rounding is off by at most half of the unit that is left. -/
theorem nearestNat_near (n : Nat) : 2 * nearestNat n ≤ 2 * n + 2 ^ excess n ∧
    2 * n ≤ 2 * nearestNat n + 2 ^ excess n :=
  shiftRight_near n (excess n)

/-! ## Integers -/

/-- The nearest integer with at most 53 binary digits before the zeros; a half goes to the even one. -/
def nearest (x : Int) : Int := x.sign * nearestNat x.natAbs

variable {x y : Int}

@[simp] theorem nearest_zero : nearest 0 = 0 := Int.zero_mul _

@[simp] theorem nearest_neg (x : Int) : nearest (-x) = -nearest x := by
  rw [nearest, nearest, Int.sign_neg, Int.natAbs_neg, Int.neg_mul]

@[simp] theorem nearest_natCast (n : Nat) : nearest (n : Int) = nearestNat n := by
  obtain rfl | hn := Nat.eq_zero_or_pos n
  · rw [nearestNat_of_lt (Nat.two_pow_pos 53)]
    rfl
  · rw [nearest, Int.natAbs_natCast, Int.sign_eq_one_of_pos (by omega), Int.one_mul]

/-- The sign takes no part in rounding. -/
theorem natAbs_nearest (x : Int) : (nearest x).natAbs = nearestNat x.natAbs := by
  obtain ⟨n, rfl | rfl⟩ := x.eq_nat_or_neg <;> simp

/-- No number is rounded beyond a power of two. -/
theorem natAbs_nearest_le {k : Nat} (h : x.natAbs ≤ 2 ^ k) : (nearest x).natAbs ≤ 2 ^ k := by
  rw [natAbs_nearest]
  exact nearestNat_le_two_pow h

/-- A greater number is not rounded to less. -/
theorem nearest_mono (h : x ≤ y) : nearest x ≤ nearest y := by
  have hmono : ∀ {m n : Nat}, m ≤ n → (nearestNat m : Int) ≤ nearestNat n :=
    fun h => Int.ofNat_le.mpr (nearestNat_mono h)
  obtain ⟨m, rfl | rfl⟩ := x.eq_nat_or_neg <;> obtain ⟨n, rfl | rfl⟩ := y.eq_nat_or_neg <;>
    simp only [nearest_neg, nearest_natCast]
  · exact hmono (by omega)
  · obtain ⟨rfl, rfl⟩ : m = 0 ∧ n = 0 := by omega
    rw [nearestNat_of_lt (Nat.two_pow_pos 53)]
    rfl
  · omega
  · have := hmono (m := n) (n := m) (by omega)
    omega

/-- A scaled number as an integer. -/
theorem natCast_mul_two_pow (m k : Nat) : ((m * 2 ^ k : Nat) : Int) = m * 2 ^ k := by
  push_cast
  rfl

/-- What has room stays as it is, with any number of zeros. -/
theorem nearest_of_room (hx : x.natAbs ≤ 2 ^ 53) (k : Nat) : nearest (x * 2 ^ k) = x * 2 ^ k := by
  obtain ⟨m, rfl | rfl⟩ := x.eq_nat_or_neg
  · rw [← natCast_mul_two_pow, nearest_natCast, nearestNat_of_room (by omega)]
  · rw [Int.neg_mul, nearest_neg, ← natCast_mul_two_pow, nearest_natCast,
      nearestNat_of_room (by omega)]

/-- Rounding does not look at where the bits stand. -/
theorem nearest_scale (x : Int) (k : Nat) : nearest (x * 2 ^ k) = nearest x * 2 ^ k := by
  obtain ⟨m, rfl | rfl⟩ := x.eq_nat_or_neg
  · rw [← natCast_mul_two_pow, nearest_natCast, nearestNat_scale, nearest_natCast,
      natCast_mul_two_pow]
  · rw [Int.neg_mul, nearest_neg, nearest_neg, ← natCast_mul_two_pow, nearest_natCast,
      nearestNat_scale, nearest_natCast, Int.neg_mul, natCast_mul_two_pow]

/-! ## Sums that reach a power of two -/

/-- Between two powers of two, rounding gives a multiple of a fixed unit and is off by half of it. -/
theorem exists_nearestNat {j n : Nat} (hlow : 2 ^ 53 * 2 ^ j ≤ n) (hhigh : n ≤ 2 ^ 54 * 2 ^ j) :
    ∃ q, nearestNat n = 2 * q * 2 ^ j ∧ 2 ^ 52 ≤ q ∧ q ≤ 2 ^ 53 ∧ n ≤ nearestNat n + 2 ^ j := by
  obtain hlt | rfl := Nat.lt_or_eq_of_le hhigh
  · have hexcess : excess n = j + 1 := by
      rw [← Nat.pow_add] at hlow hlt
      have hlong := lt_bitLength.mpr hlow
      have hshort := bitLength_le.mpr hlt
      rw [excess]
      omega
    have hunit : 2 ^ excess n = 2 * 2 ^ j := by rw [hexcess, Nat.pow_succ, Nat.mul_comm]
    have hnear := (nearestNat_near n).2
    refine ⟨shiftRight n (excess n), ?_, le_shiftRight_excess (by omega), shiftRight_excess_le n,
      by omega⟩
    rw [nearestNat, hunit, Nat.mul_left_comm, Nat.mul_assoc]
  · have hself : nearestNat (2 ^ 54 * 2 ^ j) = 2 ^ 54 * 2 ^ j := by
      rw [nearestNat_scale, nearestNat_two_pow]
    exact ⟨2 ^ 53, by rw [hself, ← Nat.pow_succ'], by decide, by decide, by rw [hself]; omega⟩

/-- **A sum that reaches a power of two reaches it when it is rounded**, and its parts before. -/
theorem le_nearest_add {j : Nat} (hx : x ≤ 2 ^ 54 * 2 ^ j) (hy : y ≤ 2 ^ 54 * 2 ^ j)
    (hsum : 2 ^ 54 * 2 ^ j ≤ x + y) : 2 ^ 54 * 2 ^ j ≤ nearest (nearest x + nearest y) := by
  wlog hle : y ≤ x generalizing x y
  · rw [Int.add_comm]
    exact this hy hx (by rwa [Int.add_comm]) (by omega)
  have hcast : ((2 ^ j : Nat) : Int) = 2 ^ j := by push_cast; rfl
  obtain ⟨n, rfl⟩ := Int.eq_ofNat_of_zero_le (a := x) (by omega)
  obtain ⟨q, hq, hlow, hhigh, hoff⟩ := exists_nearestNat (j := j) (n := n) (by omega) (by omega)
  have hnearest : nearest n = 2 * q * 2 ^ j := by
    rw [nearest_natCast, hq]
    push_cast
    rfl
  have hoff' : (n : Int) ≤ nearest n + 2 ^ j := by
    rw [nearest_natCast, ← hcast]
    omega
  -- the lower part has at least what the rounded greater one leaves, less half a unit
  have hrest : (2 ^ 54 - 2 * q - 1) * 2 ^ j ≤ y := by
    rw [Int.sub_mul, Int.sub_mul, Int.one_mul]
    omega
  have hpart : (2 ^ 54 - 2 * q - 1) * 2 ^ j ≤ nearest y := by
    rw [← nearest_of_room (x := 2 ^ 54 - 2 * q - 1) (by omega) j]
    exact nearest_mono hrest
  have htie : nearest ((2 ^ 54 - 1) * 2 ^ j) = 2 ^ 54 * 2 ^ j := by
    rw [nearest_scale]
    exact congrArg (· * 2 ^ j) (by decide +kernel)
  rw [← htie]
  refine nearest_mono ?_
  rw [Int.sub_mul, Int.sub_mul, Int.one_mul] at hpart
  rw [Int.sub_mul, Int.one_mul]
  omega

end Real

end Abacus
