import Abacus.Proofs.Real.Nearest

/-!
# Doubles in order

Apart from the one that is no number, every double is a whole number of units of `2 ^ -1074`, with
the infinite ones beyond all the others (`Real.units`). What comes out of the bits is in a canonical
form (`Real.Canonical`): only so can the comparison of two doubles look at the exponents first.

**The law.** Two doubles compare as their units do (`Real.lt_iff_units`, `Real.beq_iff_units`).
-/

namespace Abacus.Real

open Float.Model (UnpackedFloat Format)
open Float.Model.UnpackedFloat (Sign)

/-! ## Canonical form -/

/-- A significand and an exponent as a double has them: 53 binary digits, fewer only at the least
exponent. -/
structure Fits (m : Nat) (e : Int) : Prop where
  short : m < 2 ^ 53
  least : -1074 ≤ e
  greatest : e ≤ 971
  full : 2 ^ 52 ≤ m ∨ e = -1074

/-- A finite float has the mantissa that its exponent asks for. -/
def Canonical : UnpackedFloat → Prop
  | .finite _ m e _ => Fits m e
  | _ => True

/-- The significand of a number that has its leading digit. -/
theorem toNat_leading_append (fraction : BitVec 52) :
    (1#1 ++ fraction).toNat = 2 ^ 52 + fraction.toNat :=
  calc (1#1 ++ fraction).toNat = 1 <<< 52 ||| fraction.toNat := BitVec.toNat_append _ _
    _ = 1 <<< 52 + fraction.toNat := (Nat.shiftLeft_add_eq_or_of_lt fraction.isLt 1).symm
    _ = 2 ^ 52 + fraction.toNat := by rw [Nat.one_shiftLeft]

/-- The bit in front of an exponent and a fraction. -/
theorem signBit_append (sign : BitVec 1) (b : BitVec 11) (m : BitVec 52) :
    (sign ++ b ++ m).extractLsb 63 63 = sign := by
  ext i hi
  obtain rfl : i = 0 := by omega
  rw [BitVec.extractLsb, BitVec.getElem_extractLsb', BitVec.getLsbD_append, if_neg (by decide),
    BitVec.getLsbD_append, if_neg (by decide)]
  exact BitVec.getLsbD_eq_getElem hi

/-- A sign comes out again as it was put in front of an exponent and a fraction. -/
theorem sign_packComponents (s : Sign) (b : BitVec 11) (m : BitVec 52) :
    Sign.ofBitVec (UnpackedFloat.unpackSign (UnpackedFloat.packComponents .binary64 s b m)) = s := by
  have hbit : UnpackedFloat.unpackSign (UnpackedFloat.packComponents .binary64 s b m) = s.toBitVec :=
    signBit_append s.toBitVec b m
  rw [hbit]
  cases s <;> rfl

/-- Finite numbers are the same that have the same parts. -/
theorem finite_congr {s s' : Sign} {m m' : Nat} {e e' : Int} {hm : 0 < m} {hm' : 0 < m'}
    (hs : s = s') (hmantissa : m = m') (he : e = e') :
    UnpackedFloat.finite s m e hm = .finite s' m' e' hm' := by
  subst hs hmantissa he
  rfl

/-- What comes out of the bits is canonical. -/
theorem canonical_unpack (bits : BitVec Format.binary64.numBits) :
    Canonical (.unpack .binary64 bits) := by
  have hfraction := (UnpackedFloat.unpackMantissa bits).isLt
  have hexponent := (UnpackedFloat.unpackExponent bits).isLt
  have hbias : (Format.binary64.exponentBias : Int) = 1023 := rfl
  have hwidth : (Format.binary64.mantissaBitsWithoutImplicit : Int) = 52 := rfl
  have hleading := toNat_leading_append (UnpackedFloat.unpackMantissa bits)
  simp only [Format.binary64] at hfraction hexponent
  unfold UnpackedFloat.unpack
  dsimp only
  by_cases hfinite :
      UnpackedFloat.unpackExponent bits = -BitVec.ofNat Format.binary64.exponentBits 1
  · rw [if_pos hfinite]
    split <;> exact trivial
  · rw [if_neg hfinite]
    by_cases hleast :
        UnpackedFloat.unpackExponent bits = BitVec.ofNat Format.binary64.exponentBits 0
    · rw [if_pos hleast]
      by_cases hzero : UnpackedFloat.unpackMantissa bits =
          BitVec.ofNat Format.binary64.mantissaBitsWithoutImplicit 0
      · rw [dif_pos hzero]
        exact trivial
      · rw [dif_neg hzero]
        simp [BitVec.toNat_eq] at hleast
        exact ⟨by omega, by omega, by omega, .inr (by omega)⟩
    · rw [if_neg hleast]
      simp [BitVec.toNat_eq] at hfinite hleast
      exact ⟨hleading ▸ by omega, by omega, by omega, .inl (hleading ▸ by omega)⟩

/-- A number that has its leading digit, put together and taken apart. -/
theorem unpack_leading (s : Sign) {b m : Nat} (hb : 0 < b) (hb' : b < 2047) (hm : 2 ^ 52 ≤ m)
    (hm' : m < 2 ^ 53) :
    UnpackedFloat.unpack .binary64
        (UnpackedFloat.packComponents .binary64 s (BitVec.ofNat 11 b) (BitVec.ofNat 52 m)) =
      .finite s m (b - 1075) (Nat.zero_lt_of_lt hm) := by
  have hexponent : (BitVec.ofNat 11 b).toNat = b := Nat.mod_eq_of_lt (by omega)
  have hfraction : (BitVec.ofNat 52 m).toNat = m % 2 ^ 52 := rfl
  have hfinite : BitVec.ofNat 11 b ≠ -1#11 := fun h => by
    have : b = 2047 := hexponent ▸ congrArg BitVec.toNat h
    omega
  have hnormal : BitVec.ofNat 11 b ≠ 0#11 := fun h => by
    have : b = 0 := hexponent ▸ congrArg BitVec.toNat h
    omega
  have hleading : (1#1 ++ BitVec.ofNat 52 m).toNat = m := by
    rw [toNat_leading_append, hfraction]
    omega
  unfold UnpackedFloat.unpack
  dsimp only
  rw [if_neg (UnpackedFloat.unpackExponent_packComponents.trans_ne hfinite),
    if_neg (UnpackedFloat.unpackExponent_packComponents.trans_ne hnormal)]
  refine finite_congr (sign_packComponents s _ _) ?_ ?_
  · rw [UnpackedFloat.unpackMantissa_packComponents]
    exact hleading
  · rw [UnpackedFloat.unpackExponent_packComponents, hexponent]
    rfl

/-- A number without its leading digit, put together and taken apart. -/
theorem unpack_short (s : Sign) {m : Nat} (hm : 0 < m) (hm' : m < 2 ^ 52) :
    UnpackedFloat.unpack .binary64
        (UnpackedFloat.packComponents .binary64 s 0#11 (BitVec.ofNat 52 m)) =
      .finite s m (-1074) hm := by
  have hfraction : (BitVec.ofNat 52 m).toNat = m := Nat.mod_eq_of_lt hm'
  have hnonzero : BitVec.ofNat 52 m ≠ 0#52 := fun h => by
    have : m = 0 := hfraction ▸ congrArg BitVec.toNat h
    omega
  have hfinite : 0#11 ≠ -1#11 := by decide
  unfold UnpackedFloat.unpack
  dsimp only
  rw [if_neg (UnpackedFloat.unpackExponent_packComponents.trans_ne hfinite),
    if_pos UnpackedFloat.unpackExponent_packComponents,
    dif_neg (UnpackedFloat.unpackMantissa_packComponents.trans_ne hnonzero)]
  refine finite_congr (sign_packComponents s _ _) ?_ ?_
  · rw [UnpackedFloat.unpackMantissa_packComponents]
    exact hfraction
  · rw [UnpackedFloat.unpackExponent_packComponents]
    rfl

/-- A canonical number goes into the bits and comes out again. -/
theorem unpack_pack {u : UnpackedFloat} (h : Canonical u) :
    UnpackedFloat.unpack .binary64 (u.pack .binary64) = u := by
  match u, h with
  | .notANumber, _ => rfl
  | .infinity .positive, _ | .infinity .negative, _ => rfl
  | .zero .positive, _ | .zero .negative, _ => rfl
  | .finite s m e hm, h =>
    obtain ⟨hshort, hleast, hgreatest, hfull⟩ := h
    have hlog : m.log2 + 1 = 53 ↔ 2 ^ 52 ≤ m := by
      have := Nat.le_log2 (k := 52) hm.ne'
      have := Nat.log2_lt (k := 53) hm.ne'
      omega
    obtain ⟨b, hb⟩ := Int.eq_ofNat_of_zero_le (a := e + 1075) (by omega)
    have hbiased : (e + Format.binary64.exponentBias +
        Format.binary64.mantissaBitsWithoutImplicit).toNat = b := by
      change (e + 1023 + 52).toNat = b
      omega
    have hwidth : Format.binary64.mantissaBits = 53 := rfl
    have hroom : ¬ 2 ^ 11 ≤ b + 1 := by omega
    have hpack : (UnpackedFloat.finite s m e hm).pack .binary64 = if 2 ^ 52 ≤ m then
        UnpackedFloat.packComponents .binary64 s (BitVec.ofNat 11 b) (BitVec.ofNat 52 m)
        else UnpackedFloat.packComponents .binary64 s 0#11 (BitVec.ofNat 52 m) := by
      unfold UnpackedFloat.pack
      dsimp only
      rw [hbiased, hwidth, if_neg hroom]
      exact if_congr hlog rfl rfl
    by_cases hnormal : 2 ^ 52 ≤ m
    · rw [hpack, if_pos hnormal, unpack_leading s (by omega) (by omega) hnormal hshort]
      exact finite_congr rfl rfl (by omega)
    · obtain rfl : e = -1074 := hfull.resolve_left hnormal
      rw [hpack, if_neg hnormal]
      exact unpack_short s hm (Nat.not_le.mp hnormal)

/-! ## Units -/

/-- The size of a finite number, in units of `2 ^ -1074`. -/
@[irreducible] def size (m : Nat) (e : Int) : Nat := m * 2 ^ (e + 1074).toNat

/-- The size that no finite double reaches. -/
def limit : Nat := size (2 ^ 53) 971

/-- The number one, in units. -/
def one : Nat := size 1 0

/-- A number in units of `2 ^ -1074`, the infinite ones at the limit of the finite ones. Nothing
is said about the one that is no number. -/
def unitsOf : UnpackedFloat → Int
  | .finite s m e _ => s.apply (size m e)
  | .infinity s => s.apply limit
  | _ => 0

variable {m m' : Nat} {e e' : Int}

/-- Only zero has size zero. -/
theorem size_pos (hm : 0 < m) (e : Int) : 0 < size m e := by
  rw [size]
  exact Nat.mul_pos hm (Nat.two_pow_pos _)

/-- A size grows with the mantissa and the exponent. -/
theorem size_le_size (hm : m ≤ m') (he : e ≤ e') : size m e ≤ size m' e' := by
  rw [size, size]
  exact Nat.mul_le_mul hm
    (Nat.pow_le_pow_right Nat.two_pos (Int.toNat_le_toNat (Int.add_le_add_right he 1074)))

/-- Strictly with the mantissa. -/
theorem size_lt_size (hm : m < m') (he : e ≤ e') : size m e < size m' e' := by
  refine Nat.lt_of_lt_of_le ?_ (size_le_size (Nat.le_refl m') he)
  rw [size, size]
  exact Nat.mul_lt_mul_of_pos_right hm (Nat.two_pow_pos _)

/-- With one exponent the mantissas decide. -/
theorem compare_size_left (m m' : Nat) (e : Int) :
    compare (size m e) (size m' e) = compare m m' := by
  have hpos := Nat.two_pow_pos (e + 1074).toNat
  simp only [Nat.compare_eq_ite_lt, size, Nat.mul_lt_mul_right hpos]

/-- To double the mantissa is to raise the exponent. -/
theorem size_succ (m : Nat) (he : -1074 ≤ e) : size (2 * m) e = size m (e + 1) := by
  have hnext : (e + 1 + 1074).toNat = (e + 1074).toNat + 1 := by omega
  rw [size, size, hnext, Nat.pow_succ, Nat.mul_comm 2, Nat.mul_assoc, Nat.mul_comm 2]

/-- So a mantissa that has become too long may be halved. -/
theorem size_two_pow (he : -1074 ≤ e) : size (2 ^ 53) e = size (2 ^ 52) (e + 1) := by
  rw [← size_succ _ he, ← Nat.pow_succ']

/-- The limit is the size of the first float that there is no more. -/
theorem limit_eq : limit = size (2 ^ 52) (971 + 1) := size_two_pow (by decide)

/-- A mantissa and exponent that fit stay below the limit. -/
theorem Fits.size_lt_limit (h : Fits m e) : size m e < limit := size_lt_size h.short h.greatest

/-- A greater exponent is a greater number: its significand has all its digits. -/
theorem Fits.size_lt (h : Fits m e) (h' : Fits m' e') (hlt : e < e') : size m e < size m' e' := by
  have hleast := h.least
  calc size m e < size (2 ^ 53) e := size_lt_size h.short (Int.le_refl e)
    _ = size (2 ^ 52) (e + 1) := size_two_pow hleast
    _ ≤ size m' e' := size_le_size (h'.full.resolve_right (by omega)) hlt

/-- Of sizes that fit the exponents decide first, then the mantissas. -/
theorem Fits.compare_size (h : Fits m e) (h' : Fits m' e') :
    compare (size m e) (size m' e') = (compare e e').then (compare m m') := by
  obtain hlt | rfl | hgt := Int.lt_trichotomy e e'
  · rw [Int.compare_eq_lt.mpr hlt, Nat.compare_eq_lt.mpr (h.size_lt h' hlt)]
    rfl
  · rw [Int.compare_eq_eq.mpr rfl, compare_size_left]
    rfl
  · rw [Int.compare_eq_gt.mpr hgt, Nat.compare_eq_gt.mpr (h'.size_lt h hgt)]
    rfl

/-- The limit is not zero. -/
theorem limit_pos : 0 < limit := size_pos (Nat.two_pow_pos 53) 971

/-- Naturals compare alike as integers. -/
theorem compare_natCast (m n : Nat) : compare (m : Int) (n : Int) = compare m n := by
  simp only [Int.compare_eq_ite_lt, Nat.compare_eq_ite_lt, Int.ofNat_lt]

/-- And the other way round as their negatives. -/
theorem compare_neg_natCast (m n : Nat) : compare (-m : Int) (-n : Int) = (compare m n).swap := by
  simp only [Int.compare_eq_ite_lt, Int.neg_lt_neg_iff, ← Nat.compare_swap n m, Ordering.swap_swap,
    Nat.compare_eq_ite_lt, Int.ofNat_lt]

/-- Canonical numbers compare as their units do. -/
theorem compare_unitsOf {u v : UnpackedFloat} (hu : Canonical u) (hv : Canonical v)
    (hu' : u ≠ .notANumber) (hv' : v ≠ .notANumber) :
    u.compare v = some (compare (unitsOf u) (unitsOf v)) := by
  have hlimit := limit_pos
  have hlt : ∀ {x y : Int}, x < y → some Ordering.lt = some (compare x y) :=
    fun h => congrArg some (Int.compare_eq_lt.mpr h).symm
  have hgt : ∀ {x y : Int}, y < x → some Ordering.gt = some (compare x y) :=
    fun h => congrArg some (Int.compare_eq_gt.mpr h).symm
  have heq : ∀ {x : Int}, some Ordering.eq = some (compare x x) :=
    congrArg some (Int.compare_eq_eq.mpr rfl).symm
  match u, v with
  | .notANumber, _ => exact absurd rfl hu'
  | _, .notANumber => exact absurd rfl hv'
  | .infinity .positive, .infinity .positive | .infinity .negative, .infinity .negative
  | .zero _, .zero _ => exact heq
  | .infinity .negative, .infinity .positive | .infinity .negative, .zero _
  | .zero _, .infinity .positive => exact hlt (by dsimp only [unitsOf, Sign.apply]; omega)
  | .infinity .positive, .infinity .negative | .infinity .positive, .zero _
  | .zero _, .infinity .negative => exact hgt (by dsimp only [unitsOf, Sign.apply]; omega)
  | .infinity s, .finite t n f hn =>
    have hbound := Fits.size_lt_limit hv
    cases s with
    | positive => exact hgt (by cases t <;> dsimp only [unitsOf, Sign.apply] <;> omega)
    | negative => exact hlt (by cases t <;> dsimp only [unitsOf, Sign.apply] <;> omega)
  | .finite s m e hm, .infinity t =>
    have hbound := Fits.size_lt_limit hu
    cases t with
    | positive => exact hlt (by cases s <;> dsimp only [unitsOf, Sign.apply] <;> omega)
    | negative => exact hgt (by cases s <;> dsimp only [unitsOf, Sign.apply] <;> omega)
  | .zero _, .finite t n f hn =>
    have hpos := size_pos hn f
    cases t with
    | positive => exact hlt (by dsimp only [unitsOf, Sign.apply]; omega)
    | negative => exact hgt (by dsimp only [unitsOf, Sign.apply]; omega)
  | .finite s m e hm, .zero _ =>
    have hpos := size_pos hm e
    cases s with
    | positive => exact hgt (by dsimp only [unitsOf, Sign.apply]; omega)
    | negative => exact hlt (by dsimp only [unitsOf, Sign.apply]; omega)
  | .finite .negative m e hm, .finite .positive n f hn =>
    have hpos := size_pos hm e
    exact hlt (by dsimp only [unitsOf, Sign.apply]; omega)
  | .finite .positive m e hm, .finite .negative n f hn =>
    have hpos := size_pos hm e
    exact hgt (by dsimp only [unitsOf, Sign.apply]; omega)
  | .finite .positive m e hm, .finite .positive n f hn =>
    exact congrArg some ((Fits.compare_size hu hv).symm.trans (compare_natCast _ _).symm)
  | .finite .negative m e hm, .finite .negative n f hn =>
    exact congrArg some ((congrArg Ordering.swap (Fits.compare_size hu hv)).symm.trans
      (compare_neg_natCast _ _).symm)

/-! ## Doubles -/

/-- A double in units of `2 ^ -1074`. -/
def units (x : Float) : Int := unitsOf x.toModel.unpack

variable {x y : Float}

/-- What a float is unpacked to is canonical. -/
theorem canonical (x : Float) : Canonical x.toModel.unpack := canonical_unpack _

/-- A float is a number unless it is unpacked to none. -/
theorem isNaN_eq_false_iff : x.isNaN = false ↔ x.toModel.unpack ≠ .notANumber := by
  change x.toModel.unpack.isNaN = false ↔ _
  cases x.toModel.unpack with
  | notANumber => exact iff_of_false nofun fun h => h rfl
  | _ => exact iff_of_true rfl nofun

/-- Floats that are numbers compare as their units do. -/
theorem compare_units (hx : x.isNaN = false) (hy : y.isNaN = false) :
    x.toModel.unpack.compare y.toModel.unpack = some (compare (units x) (units y)) :=
  compare_unitsOf (canonical x) (canonical y) (isNaN_eq_false_iff.mp hx) (isNaN_eq_false_iff.mp hy)

/-- They are equal if their units are. -/
theorem beq_iff_units (hx : x.isNaN = false) (hy : y.isNaN = false) :
    (x == y) = true ↔ units x = units y := by
  change (x.toModel.unpack.compare y.toModel.unpack == some .eq) = true ↔ _
  rw [compare_units hx hy, beq_iff_eq, Option.some_inj, Int.compare_eq_eq]

/-- What is no number is equal to nothing. -/
theorem beq_of_isNaN (hx : x.isNaN = true) (y : Float) : (x == y) = false ∧ (y == x) = false := by
  have hnone : x.toModel.unpack = .notANumber := by
    by_contra hsome
    rw [isNaN_eq_false_iff.mpr hsome] at hx
    cases hx
  constructor
  · change (x.toModel.unpack.compare y.toModel.unpack == some .eq) = false
    rw [hnone]
    rfl
  · change (y.toModel.unpack.compare x.toModel.unpack == some .eq) = false
    rw [hnone]
    cases y.toModel.unpack <;> rfl

/-- The only real that does not equal itself is none. -/
theorem beq_self_iff_isNaN : (x == x) = true ↔ x.isNaN = false := by
  cases hx : x.isNaN with
  | true => simp [(beq_of_isNaN hx x).1]
  | false => simp [beq_iff_units hx hx]

/-- Equality of reals does not depend on which stands first. -/
protected theorem beq_comm (x y : Float) : (x == y) = (y == x) := by
  cases hx : x.isNaN with
  | true =>
    have hnever := beq_of_isNaN hx y
    rw [hnever.1, hnever.2]
  | false =>
    cases hy : y.isNaN with
    | true =>
      have hnever := beq_of_isNaN hy x
      rw [hnever.1, hnever.2]
    | false => rw [Bool.eq_iff_iff, beq_iff_units hx hy, beq_iff_units hy hx, eq_comm]

/-- Floats that are numbers are less if their units are. -/
theorem lt_iff_units (hx : x.isNaN = false) (hy : y.isNaN = false) :
    x < y ↔ units x < units y := by
  change (decide ((x.toModel.unpack.compare y.toModel.unpack == some .lt) = true)) = true ↔ _
  rw [compare_units hx hy, decide_eq_true_iff, beq_iff_eq, Option.some_inj, Int.compare_eq_lt]

end Abacus.Real
