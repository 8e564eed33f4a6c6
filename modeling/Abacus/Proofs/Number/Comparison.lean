import Abacus.Proofs.Real.Rounding

/-!
# Integers and reals in one order

Two integers compare as they are, and an integer and a real as two reals, the integer rounded to the
nearest one (`Number.order`). Rounding keeps the order and may lose a difference: integers from
`2 ^ 53` on can be the same as reals although they are different.

**The law.** Comparison of integers and reals is total, and is the other way round when its sides
change places; what it calls equal is what equality calls equal. It is transitive but for one
configuration, a real between two different integers that are both equal to it (`Number.Bridges`,
`Number.comparison_coherent`).
-/

namespace Abacus.Number

open Abacus.Real

/-! ## The order -/

/-- The numbers that have an order: integers, and reals that are numbers. -/
def Ordered : Number → Prop
  | .integer _ => True
  | .real x => x.isNaN = false
  | .complex _ => False

/-- Two integers in order, or the units of two reals. -/
def order : Number → Number → Ordering
  | .integer m, .integer n => Ord.compare m.toInt n.toInt
  | a, b => Ord.compare (units a.realPart) (units b.realPart)

variable {a b c : Number} {m n : Int64}

/-- What an integer becomes is a number. -/
theorem isNaN_ofInt64 (n : Int64) : (ofInt64 n).isNaN = false := (represents_ofInt64 n).isNaN

/-- Reals that are numbers are in the order of their units. -/
theorem reals_compare {x y : Float} (hx : x.isNaN = false) (hy : y.isNaN = false) :
    (if x < y then some Ordering.lt else if y < x then some .gt
      else if x == y then some .eq else none) = some (Ord.compare (units x) (units y)) := by
  have hlt := lt_iff_units hx hy
  have hgt := lt_iff_units hy hx
  obtain h | h | h := Int.lt_trichotomy (units x) (units y)
  · rw [if_pos (hlt.mpr h), Int.compare_eq_lt.mpr h]
  · rw [if_neg (mt hlt.mp (by omega)), if_neg (mt hgt.mp (by omega)),
      if_pos ((beq_iff_units hx hy).mpr h), Int.compare_eq_eq.mpr h]
  · rw [if_neg (mt hlt.mp (by omega)), if_pos (hgt.mpr h), Int.compare_eq_gt.mpr h]

/-- Integers are in the order that they have exactly. -/
theorem integers_compare (m n : Int64) :
    (if m < n then Ordering.lt else if m = n then .eq else .gt) = Ord.compare m.toInt n.toInt := by
  obtain h | h | h := Int.lt_trichotomy m.toInt n.toInt
  · rw [if_pos (Int64.lt_iff_toInt_lt.mpr h), Int.compare_eq_lt.mpr h]
  · rw [if_neg (mt Int64.lt_iff_toInt_lt.mp (by omega)), if_pos (Int64.toInt_inj.mp h),
      Int.compare_eq_eq.mpr h]
  · rw [if_neg (mt Int64.lt_iff_toInt_lt.mp (by omega)),
      if_neg (mt Int64.toInt_inj.mpr (by omega)), Int.compare_eq_gt.mpr h]

/-- Two ordered numbers always compare. -/
theorem compare_eq_order (ha : Ordered a) (hb : Ordered b) :
    compare a b = .ok (some (order a b)) := by
  match a, b, ha, hb with
  | .integer m, .integer n, _, _ =>
    exact congrArg (fun o => Except.ok (some o)) (integers_compare m n)
  | .integer m, .real y, ha, hb => exact congrArg Except.ok (reals_compare (isNaN_ofInt64 m) hb)
  | .real x, .integer n, ha, hb => exact congrArg Except.ok (reals_compare ha (isNaN_ofInt64 n))
  | .real x, .real y, ha, hb => exact congrArg Except.ok (reals_compare ha hb)

/-- What compares as equal is equal. -/
theorem equals_iff_order (ha : Ordered a) (hb : Ordered b) :
    equals a b = true ↔ order a b = .eq := by
  match a, b, ha, hb with
  | .integer m, .integer n, _, _ =>
    change (m == n) = true ↔ Ord.compare m.toInt n.toInt = .eq
    rw [beq_iff_eq, Int.compare_eq_eq, Int64.toInt_inj]
  | .integer m, .real y, _, hb =>
    exact (beq_iff_units (isNaN_ofInt64 m) hb).trans Int.compare_eq_eq.symm
  | .real x, .integer n, ha, _ =>
    exact (beq_iff_units ha (isNaN_ofInt64 n)).trans Int.compare_eq_eq.symm
  | .real x, .real y, ha, hb => exact (beq_iff_units ha hb).trans Int.compare_eq_eq.symm

/-- A number is level with itself. -/
theorem order_self (a : Number) : order a a = .eq := by
  cases a <;> exact Int.compare_eq_eq.mpr rfl

/-- From the other side the order is the other way round. -/
theorem order_swap (a b : Number) : order b a = (order a b).swap := by
  cases a <;> cases b <;> exact (Int.compare_swap _ _).symm

/-! ## Transitivity -/

/-- A real between two different integers that are both equal to it. -/
def Bridges : Number → Number → Number → Prop
  | .integer m, .real x, .integer n =>
    m ≠ n ∧ equals (.integer m) (.real x) = true ∧ equals (.real x) (.integer n) = true
  | _, _, _ => False

/-- A real bridges two different integers if the three are the same as reals. -/
theorem bridges_iff_units {x : Float} (hx : Ordered (.real x)) :
    Bridges (.integer m) (.real x) (.integer n) ↔
      m ≠ n ∧ units (ofInt64 m) = units x ∧ units x = units (ofInt64 n) := by
  have hm : Ordered (.integer m) := trivial
  have hn : Ordered (.integer n) := trivial
  rw [Bridges, equals_iff_order hm hx, equals_iff_order hx hn]
  exact and_congr_right fun _ => and_congr Int.compare_eq_eq Int.compare_eq_eq

/-- A bridge may be crossed from either side. -/
theorem Bridges.symm (hb : Ordered b) (h : Bridges c b a) : Bridges a b c := by
  match a, b, c, h with
  | .integer m, .real x, .integer n, h =>
    obtain ⟨hne, hfirst, hsecond⟩ := (bridges_iff_units hb).mp h
    exact (bridges_iff_units hb).mpr ⟨hne.symm, hsecond.symm, hfirst.symm⟩

/-- One has units. -/
theorem one_pos : 0 < one := size_pos Nat.one_pos 0

/-- Two integers become the same real if they are rounded to the same. -/
theorem units_ofInt64_inj : units (ofInt64 m) = units (ofInt64 n) ↔ nearest m.toInt = nearest n.toInt := by
  have hone : (one : Int) ≠ 0 := by
    have := one_pos
    omega
  rw [units_ofInt64, units_ofInt64]
  exact Int.mul_eq_mul_right_iff hone

/-- Integers that a double has room for are equal to one real only if they are the same. -/
theorem not_bridges_of_room (hm : m.toInt.natAbs ≤ 2 ^ 53) (hn : n.toInt.natAbs ≤ 2 ^ 53)
    (hb : Ordered b) : ¬ Bridges (.integer m) b (.integer n) := by
  have hself : ∀ {x : Int}, x.natAbs ≤ 2 ^ 53 → nearest x = x := fun {x} h => by
    have := nearest_of_room h 0
    rwa [Int.pow_zero, Int.mul_one] at this
  intro h
  match b, h with
  | .real x, h =>
    obtain ⟨hne, hfirst, hsecond⟩ := (bridges_iff_units hb).mp h
    have hsame := units_ofInt64_inj.mp (hfirst.trans hsecond)
    rw [hself hm, hself hn, Int64.toInt_inj] at hsame
    exact hne hsame

/-- Conversion to reals keeps the order. -/
theorem units_le_of_order (h : (order a b).isLE) : units a.realPart ≤ units b.realPart := by
  match a, b with
  | .integer m, .integer n =>
    have hle : m.toInt ≤ n.toInt := Int.isLE_compare.mp h
    change units (ofInt64 m) ≤ units (ofInt64 n)
    rw [units_ofInt64, units_ofInt64]
    exact Int.mul_le_mul_of_nonneg_right (nearest_mono hle) (Int.natCast_nonneg one)
  | .real _, _ | .complex _, _ | .integer _, .real _ | .integer _, .complex _ =>
    exact Int.isLE_compare.mp h

/-- The order is transitive where no real bridges two integers. -/
theorem order_trans (hb : Ordered b) (hbridge : ¬ Bridges a b c) (hab : (order a b).isLE)
    (hbc : (order b c).isLE) : (order a c).isLE := by
  have hunits := Int.le_trans (units_le_of_order hab) (units_le_of_order hbc)
  match a, b, c with
  | .integer m, .integer k, .integer n =>
    exact Int.isLE_compare.mpr (Int.le_trans (Int.isLE_compare.mp hab) (Int.isLE_compare.mp hbc))
  | .integer m, .real x, .integer n =>
    -- as reals they are in order, so two integers in the other order are the same as the real
    refine Int.isLE_compare.mpr (Int.not_lt.mp fun hlt => hbridge ((bridges_iff_units hb).mpr ?_))
    have hback : units (ofInt64 n) ≤ units (ofInt64 m) :=
      units_le_of_order (a := .integer n) (b := .integer m) (Int.isLE_compare.mpr (Int.le_of_lt hlt))
    have hfirst : units (ofInt64 m) ≤ units x :=
      units_le_of_order (a := .integer m) (b := .real x) hab
    have hsecond : units x ≤ units (ofInt64 n) :=
      units_le_of_order (a := .real x) (b := .integer n) hbc
    exact ⟨fun h => Int.lt_irrefl _ (h ▸ hlt), Int.le_antisymm hfirst (Int.le_trans hsecond hback),
      Int.le_antisymm hsecond (Int.le_trans hback hfirst)⟩
  | .real _, _, _ | .complex _, _, _ | .integer _, _, .real _ | .integer _, _, .complex _ =>
    exact Int.isLE_compare.mpr hunits

/-- A number that is below one of another kind is below it as a real. -/
theorem units_lt_of_order (h : order a b = .lt) (hkinds : ∀ m n, a = .integer m → b ≠ .integer n) :
    units a.realPart < units b.realPart := by
  match a, b with
  | .integer m, .integer n => exact absurd rfl (hkinds m n rfl)
  | .real _, _ | .complex _, _ | .integer _, .real _ | .integer _, .complex _ =>
    exact Int.compare_eq_lt.mp h

/-- Being below is transitive, with no condition on what stands between. -/
theorem order_lt_trans (hab : order a b = .lt) (hbc : order b c = .lt) : order a c = .lt := by
  have hle : units a.realPart ≤ units b.realPart := units_le_of_order (hab ▸ rfl)
  have hle' : units b.realPart ≤ units c.realPart := units_le_of_order (hbc ▸ rfl)
  match a, b, c with
  | .integer m, .integer k, .integer n =>
    exact Int.compare_eq_lt.mpr (Int.lt_trans (Int.compare_eq_lt.mp hab) (Int.compare_eq_lt.mp hbc))
  | .integer m, .real _, .integer n | .integer m, .complex _, .integer n =>
    refine Int.compare_eq_lt.mpr (Int.not_le.mp fun hback => ?_)
    have hback : units (ofInt64 n) ≤ units (ofInt64 m) :=
      units_le_of_order (a := .integer n) (b := .integer m) (Int.isLE_compare.mpr hback)
    have hlt := units_lt_of_order hab nofun
    exact Int.lt_irrefl _ (Int.lt_of_lt_of_le hlt (Int.le_trans hle' hback))
  | .real _, _, _ | .complex _, _, _ =>
    exact Int.compare_eq_lt.mpr (Int.lt_of_lt_of_le (units_lt_of_order hab nofun) hle')
  | .integer _, _, .real _ | .integer _, _, .complex _ =>
    exact Int.compare_eq_lt.mpr (Int.lt_of_le_of_lt hle (units_lt_of_order hbc nofun))

/-! ## The law -/

/-- The comparison succeeds and does not put the first number above the second. -/
def AtMost (a b : Number) : Prop := ∃ o, compare a b = .ok (some o) ∧ o.isLE

/-- To be at most another number is to be less or level. -/
theorem atMost_iff_order (ha : Ordered a) (hb : Ordered b) : AtMost a b ↔ (order a b).isLE := by
  rw [AtMost, compare_eq_order ha hb]
  constructor
  · rintro ⟨o, ho, hle⟩
    cases ho
    exact hle
  · exact fun h => ⟨_, rfl, h⟩

/-- To be level is transitive where no real bridges two integers. -/
theorem order_eq_trans (hb : Ordered b) (hbridge : ¬ Bridges a b c) (hab : order a b = .eq)
    (hbc : order b c = .eq) : order a c = .eq := by
  have hforth : (order a c).isLE := order_trans hb hbridge (hab ▸ rfl) (hbc ▸ rfl)
  have hback : (order c a).isLE := order_trans hb (mt (Bridges.symm hb) hbridge)
    (by rw [order_swap b c, hbc]; rfl) (by rw [order_swap a b, hab]; rfl)
  rw [order_swap a c] at hback
  cases horder : order a c with
  | eq => rfl
  | lt => rw [horder] at hback; contradiction
  | gt => rw [horder] at hforth; contradiction

/-- Integers and reals compare in their order, which is total, and those that are equal in it are
the equal ones. Equality is an equivalence and the order a preorder, except that both are transitive
only where no real stands between two different integers that are both equal to it. -/
theorem comparison_coherent (ha : Ordered a) (hb : Ordered b) :
    equals a a = true ∧
    equals a b = equals b a ∧
    compare a b = .ok (some (order a b)) ∧
    compare b a = .ok (some (order a b).swap) ∧
    (order a b = .eq ↔ equals a b = true) ∧
    ∀ c, Ordered c → ¬ Bridges a b c →
      (equals a b = true → equals b c = true → equals a c = true) ∧
      (AtMost a b → AtMost b c → AtMost a c) := by
  refine ⟨(equals_iff_order ha ha).mpr (order_self a), ?_, compare_eq_order ha hb, ?_,
    (equals_iff_order ha hb).symm, fun c hc hbridge => ⟨?_, ?_⟩⟩
  · rw [Bool.eq_iff_iff, equals_iff_order ha hb, equals_iff_order hb ha, order_swap a b,
      Ordering.swap_eq_eq]
  · rw [compare_eq_order hb ha, order_swap a b]
  · rw [equals_iff_order ha hb, equals_iff_order hb hc, equals_iff_order ha hc]
    exact order_eq_trans hb hbridge
  · rw [atMost_iff_order ha hb, atMost_iff_order hb hc, atMost_iff_order ha hc]
    exact order_trans hb hbridge

/-- Around the greatest integers that a double has room for, the order is transitive. -/
theorem comparison_coherent_at_room :
    Ordered (.real 9007199254740992.0) ∧
      AtMost (.integer 9007199254740991) (.real 9007199254740992.0) ∧
      AtMost (.real 9007199254740992.0) (.integer 9007199254740992) ∧
      AtMost (.integer 9007199254740991) (.integer 9007199254740992) := by
  have hreal : Ordered (.real 9007199254740992.0) := rfl
  have hlow : AtMost (.integer 9007199254740991) (.real 9007199254740992.0) := ⟨.lt, rfl, rfl⟩
  have hhigh : AtMost (.real 9007199254740992.0) (.integer 9007199254740992) := ⟨.eq, rfl, rfl⟩
  have hbridge := not_bridges_of_room (m := 9007199254740991) (n := 9007199254740992) (by decide)
    (by decide) hreal
  have hlaw := comparison_coherent (a := .integer 9007199254740991) trivial hreal
  obtain ⟨-, -, -, -, -, htransitive⟩ := hlaw
  exact ⟨hreal, hlow, hhigh,
    (htransitive (.integer 9007199254740992) trivial hbridge).2 hlow hhigh⟩

/-- `2 ^ 53` and the integer after it are the same as reals, and are different. -/
theorem bridged_integers_differ :
    Ordered (.real 9007199254740992.0) ∧
      equals (.integer 9007199254740992) (.real 9007199254740992.0) = true ∧
      equals (.real 9007199254740992.0) (.integer 9007199254740993) = true ∧
      equals (.integer 9007199254740992) (.integer 9007199254740993) = false :=
  ⟨rfl, rfl, rfl, rfl⟩

end Abacus.Number
