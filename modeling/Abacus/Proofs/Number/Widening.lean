import Abacus.Number.Functions
import Mathlib.Algebra.Ring.Int.Parity

/-!
# Arithmetic on integers is exact

Sums, differences, products, powers, opposites and sizes of integers are computed without a bound
and only then looked at: what 64 bits hold is the result, as an integer, and only what they do not
hold becomes a real (`Number.Keeps`).

**The law.** All of these operations keep the exact result (`Number.arithmetic_keeps`); a power does
so as long as its exponent has at most 32 bits, or its base grows.
-/

namespace Abacus.Number

/-- The answer is the exact result if 64 bits hold that, and a real if they do not. -/
structure Keeps (exact : Int) (answer : Number) : Prop where
  integer : ∀ n : Int64, n.toInt = exact → answer = .integer n
  real : (∀ n : Int64, n.toInt ≠ exact) → ∃ x, answer = .real x

variable {exact : Int} {n : Int64}

/-- A number fits if some integer of 64 bits has its value. -/
theorem fit?_eq_some_iff : fit? exact = some n ↔ n.toInt = exact := by
  rw [fit?]
  split
  · next hfits =>
    have hexact := Int64.toInt_ofInt_of_le hfits.1 (Int.lt_add_one_of_le hfits.2)
    rw [Option.some_inj, ← Int64.toInt_inj, hexact, eq_comm]
  · next hfits =>
    refine ⟨nofun, fun h => absurd ?_ hfits⟩
    exact h ▸ ⟨n.minValue_le_toInt, n.toInt_le⟩

/-- It does not fit if none has. -/
theorem fit?_eq_none_iff : fit? exact = none ↔ ∀ n : Int64, n.toInt ≠ exact := by
  rw [Option.eq_none_iff_forall_ne_some]
  exact forall_congr' fun n => not_congr fit?_eq_some_iff

/-- A result that is looked at through the check keeps what is exact. -/
theorem Keeps.of_fit? {answer : Number} (hsome : ∀ n, fit? exact = some n → answer = .integer n)
    (hnone : fit? exact = none → ∃ x, answer = .real x) : Keeps exact answer where
  integer n h := hsome n (fit?_eq_some_iff.mpr h)
  real h := hnone (fit?_eq_none_iff.mpr h)

/-- What does not fit becomes a real. -/
theorem widen_of_ne (h : ∀ n : Int64, n.toInt ≠ exact) (instead : Float) :
    widen exact instead = .real instead := by
  rw [widen, fit?_eq_none_iff.mpr h]

/-- What fits stays an integer. -/
theorem widen_keeps (exact : Int) (instead : Float) : Keeps exact (widen exact instead) :=
  .of_fit? (fun n h => by rw [widen, h]) fun h => ⟨instead, widen_of_ne (fit?_eq_none_iff.mp h) _⟩

/-! ## Powers -/

variable {base : Int} {exponent : Nat}

/-- A base that is at least two in size leaves 64 bits at the exponent 64. -/
theorem fit?_pow_eq_none (hbase : 1 < base.natAbs) (hexponent : 64 ≤ exponent) :
    fit? (base ^ exponent) = none := by
  refine fit?_eq_none_iff.mpr fun n hn => ?_
  have hgrows : 2 ^ 64 ≤ n.toInt.natAbs :=
    calc 2 ^ 64 ≤ 2 ^ exponent := Nat.pow_le_pow_right Nat.two_pos hexponent
      _ ≤ base.natAbs ^ exponent := Nat.pow_le_pow_left hbase exponent
      _ = n.toInt.natAbs := by rw [hn, Int.natAbs_pow]
  have hlow := n.le_toInt
  have hhigh := n.toInt_lt
  omega

/-- The power that is tried is the exact one. -/
theorem intPow?_eq (h : exponent < 2 ^ 32) : intPow? base exponent = fit? (base ^ exponent) := by
  have hshort : ¬ Nat.pow 2 32 ≤ exponent := Nat.not_le.mpr h
  rw [intPow?, if_neg hshort]
  split
  · next hsmall =>
    obtain rfl | rfl := hsmall
    · obtain rfl | hpos := Nat.eq_zero_or_pos exponent
      · rfl
      · rw [if_neg (Nat.ne_of_gt hpos), Int.zero_pow (Nat.ne_of_gt hpos)]
    · rw [Int.one_pow, ite_self]
  · next hsmall =>
    split
    · next hbase =>
      subst hbase
      obtain heven | hodd := Nat.mod_two_eq_zero_or_one exponent
      · rw [if_pos heven, (Nat.even_iff.mpr heven).neg_one_pow]
      · rw [if_neg (by omega), (Nat.odd_iff.mpr hodd).neg_one_pow]
    · next hbase =>
      split
      · next hlong => exact (fit?_pow_eq_none (by omega) hlong).symm
      · rfl

/-- No power is computed whose exponent has more than 32 bits. -/
theorem intPow?_eq_none (h : 2 ^ 32 ≤ exponent) : intPow? base exponent = none :=
  if_pos h

variable (a b : Int64)

/-- A power of an integer is kept unless its exponent is beyond 32 bits while the base does not
grow. -/
theorem pow_keeps (hb : 0 ≤ b.toInt) (hgrows : b.toInt < 2 ^ 32 ∨ 1 < a.toInt.natAbs) :
    Keeps (a.toInt ^ b.toInt.toNat) (pow (.integer a) (.integer b)) := by
  have hnonnegative : ¬ b < 0 := by
    rw [Int64.lt_iff_toInt_lt]
    exact Int.not_lt.mpr hb
  have htried : intPow? a.toInt b.toInt.toNat = fit? (a.toInt ^ b.toInt.toNat) := by
    obtain hshort | hlong := Nat.lt_or_ge b.toInt.toNat (2 ^ 32)
    · exact intPow?_eq hshort
    · have hbase : 1 < a.toInt.natAbs := hgrows.resolve_left (by omega)
      rw [intPow?_eq_none hlong, fit?_pow_eq_none hbase (by omega)]
  exact .of_fit? (fun n hn => by simp only [pow, meet, if_neg hnonnegative, htried, hn])
    fun hn => ⟨(ofInt64 a).pow (ofInt64 b), by simp only [pow, meet, if_neg hnonnegative, htried, hn]⟩

/-- A negative exponent always gives a real. -/
theorem pow_negative (hb : b.toInt < 0) : ∃ x, pow (.integer a) (.integer b) = .real x := by
  have hnegative : b < 0 := Int64.lt_iff_toInt_lt.mpr hb
  exact ⟨_, by simp only [pow, meet, if_pos hnegative]; rfl⟩

/-! ## The law -/

/-- Only a result that 64 bits do not hold is widened to a real; of powers, those with an exponent of
more than 32 bits and a base that does not grow are left out. -/
theorem arithmetic_keeps :
    Keeps (a.toInt + b.toInt) (add (.integer a) (.integer b)) ∧
    Keeps (a.toInt - b.toInt) (sub (.integer a) (.integer b)) ∧
    Keeps (a.toInt * b.toInt) (mul (.integer a) (.integer b)) ∧
    Keeps (-a.toInt) (neg (.integer a)) ∧
    Keeps a.toInt.natAbs (abs (.integer a)) ∧
    (0 ≤ b.toInt → b.toInt < 2 ^ 32 ∨ 1 < a.toInt.natAbs →
      Keeps (a.toInt ^ b.toInt.toNat) (pow (.integer a) (.integer b))) ∧
    (b.toInt < 0 → ∃ x, pow (.integer a) (.integer b) = .real x) :=
  ⟨widen_keeps _ _, widen_keeps _ _, widen_keeps _ _, widen_keeps _ _, widen_keeps _ _,
    pow_keeps a b, pow_negative a b⟩

/-- A power that fits is an integer, and one with a negative exponent is a real. -/
theorem arithmetic_keeps_two_ten :
    pow (.integer 2) (.integer 10) = .integer 1024 ∧
      ∃ x, pow (.integer 2) (.integer (-1)) = .real x :=
  ⟨((arithmetic_keeps 2 10).2.2.2.2.2.1 (by decide) (.inl (by decide))).integer 1024 (by decide),
    (arithmetic_keeps 2 (-1)).2.2.2.2.2.2 (by decide)⟩

/-- One to an exponent of 33 bits is one, and is widened all the same. -/
theorem one_pow_widened :
    ¬ Keeps ((1 : Int64).toInt ^ (4294967296 : Int64).toInt.toNat)
      (pow (.integer 1) (.integer 4294967296)) := fun h =>
  nomatch h.integer 1 (Int.one_pow).symm

end Abacus.Number
