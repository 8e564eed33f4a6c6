import Abacus.Proofs.Number.Comparison
import Abacus.Proofs.Number.Widening
import Abacus.Proofs.Sequence.Collecting
import Mathlib.Data.Nat.Find

/-!
# Ranges of integers

A range adds its step until it has come to its end. As long as the sum is an integer of 64 bits this is
exact; the first sum that is none is a real, rounded twice, and that real is compared with the rounded
end.

**The law** (`Sequence.integerRange_collects`): a range of integers gives the integers from its start
on in equal steps up to its end, and then ends, wherever its end lies: a sum that leaves 64 bits is
not before the end, however it is rounded (`Generator.rangeAtEnd_widened`).
-/

namespace Abacus

namespace Generator

open Abacus.Real

/-- Before the excluded number, in the direction of the step. -/
def Within (stop step x : Int) : Prop := 0 < step ∧ x < stop ∨ step < 0 ∧ stop < x

instance (stop step x : Int) : Decidable (Within stop step x) :=
  inferInstanceAs (Decidable (_ ∨ _))

/-! ## The end of a range -/

variable {start stop step c : Int64} {x : Number}

/-- A range with an integer step is at its end unless its number is before the end in the order. -/
theorem rangeAtEnd_eq_order (hx : x.Ordered) :
    rangeAtEnd x (.integer stop) (.integer step) = .ok (if 0 < step.toInt
      then Number.order x (.integer stop) != .lt else Number.order x (.integer stop) != .gt) := by
  have hdirection : (some (Number.order (.integer step) (.integer 0)) == some .gt) =
      decide (0 < step.toInt) := by
    rw [Bool.eq_iff_iff, beq_iff_eq, Option.some_inj, decide_eq_true_iff]
    exact Int.compare_eq_gt
  rw [rangeAtEnd, Number.compare_eq_order hx (b := .integer stop) trivial,
    Number.compare_eq_order (a := .integer step) (b := .integer 0) trivial trivial]
  simp only [bind, Except.bind, pure, Except.pure, hdirection]
  by_cases hup : 0 < step.toInt <;> cases Number.order x (.integer stop) <;> simp [hup]

/-- At an integer, a range is at its end exactly if the integer is not before it. -/
theorem rangeAtEnd_integer (hstep : step.toInt ≠ 0) :
    rangeAtEnd (.integer c) (.integer stop) (.integer step) =
      .ok (decide ¬ Within stop.toInt step.toInt c.toInt) := by
  rw [rangeAtEnd_eq_order (x := .integer c) trivial, Number.order]
  refine congrArg Except.ok (Bool.eq_iff_iff.mpr ?_)
  rw [decide_eq_true_iff, Within]
  split
  · rw [bne_iff_ne, ne_eq, Int.compare_eq_lt]
    omega
  · rw [bne_iff_ne, ne_eq, Int.compare_eq_gt]
    omega

/-- **A sum that leaves 64 bits is not before the end**, rounded though it is, and the end with it. -/
theorem rangeAtEnd_widened (hleaves : ∀ n : Int64, n.toInt ≠ c.toInt + step.toInt) :
    rangeAtEnd (.real (Number.ofInt64 c + Number.ofInt64 step)) (.integer stop) (.integer step) =
      .ok true := by
  have hsum := Number.represents_add_ofInt64 c step
  have hbounds : ∀ n : Int64, -(2 ^ 63) ≤ n.toInt ∧ n.toInt < 2 ^ 63 := fun n =>
    ⟨n.le_toInt, n.toInt_lt⟩
  have hfar : ¬ (-(2 ^ 63) ≤ c.toInt + step.toInt ∧ c.toInt + step.toInt < 2 ^ 63) := fun h =>
    hleaves _ (Int64.toInt_ofInt_of_le h.1 h.2)
  have hend : (nearest stop.toInt).natAbs ≤ 2 ^ 63 :=
    natAbs_nearest_le (by have := hbounds stop; omega)
  have hscaled : ∀ {x y : Int}, x ≤ y → x * one ≤ y * one := fun h =>
    Int.mul_le_mul_of_nonneg_right h (Int.natCast_nonneg one)
  have hc := hbounds c
  have hs := hbounds step
  have horder : Number.order (.real (Number.ofInt64 c + Number.ofInt64 step)) (.integer stop) =
      Ord.compare (nearest (nearest c.toInt + nearest step.toInt) * one) (nearest stop.toInt * one) :=
    congrArg₂ Ord.compare hsum.units (Number.units_ofInt64 stop)
  rw [rangeAtEnd_eq_order (x := .real _) hsum.isNaN, horder]
  refine congrArg Except.ok ?_
  split
  · have hreached := le_nearest_add (x := c.toInt) (y := step.toInt) (j := 9) (by omega) (by omega)
      (by omega)
    rw [bne_iff_ne, ne_eq, Int.compare_eq_lt]
    exact Int.not_lt.mpr (hscaled (by omega))
  · have hreached := le_nearest_add (x := -c.toInt) (y := -step.toInt) (j := 9) (by omega)
      (by omega) (by omega)
    rw [nearest_neg, nearest_neg, ← Int.neg_add, nearest_neg] at hreached
    rw [bne_iff_ne, ne_eq, Int.compare_eq_gt]
    exact Int.not_lt.mpr (hscaled (by omega))

/-! ## The numbers of a range -/

/-- Integers are added exactly where the sum fits. -/
theorem add_integers {n m : Int64} (h : m.toInt = n.toInt + step.toInt) :
    (Number.integer n).add (.integer step) = .integer m :=
  (Number.widen_keeps _ _).integer m h

/-- The elements of a range up to a place, as long as they are before its end. -/
theorem afterSteps_integer {k : Nat}
    (hbefore : ∀ i : Nat, i ≤ k → Within stop.toInt step.toInt (start.toInt + i * step.toInt)) :
    ∃ n : Int64, (Number.integer start).afterSteps (.integer step) k = .integer n ∧
      n.toInt = start.toInt + k * step.toInt := by
  induction k with
  | zero => exact ⟨start, rfl, by rw [Int.natCast_zero, Int.zero_mul, Int.add_zero]⟩
  | succ k ih =>
    obtain ⟨n, hn, hvalue⟩ := ih fun i hi => hbefore i (Nat.le_succ_of_le hi)
    have hnext : start.toInt + (k + 1 : Nat) * step.toInt = n.toInt + step.toInt := by
      rw [hvalue, Int.natCast_succ, Int.add_mul, Int.one_mul, Int.add_assoc]
    have hlast := hbefore (k + 1) (Nat.le_refl _)
    rw [hnext, Within] at hlast
    -- the next element lies between the one before and the end
    have hn₁ := n.le_toInt
    have hn₂ := n.toInt_lt
    have hstop₁ := stop.le_toInt
    have hstop₂ := stop.toInt_lt
    have hexact : (Int64.ofInt (n.toInt + step.toInt)).toInt = n.toInt + step.toInt :=
      Int64.toInt_ofInt_of_le (by omega) (by omega)
    refine ⟨_, ?_, hexact.trans hnext.symm⟩
    rw [Number.afterSteps, hn, add_integers hexact]

/-- A range is at its end at the first number that is not before the end. -/
theorem rangeAtEnd_of_first {k : Nat} (hstep : step.toInt ≠ 0)
    (hbefore : ∀ i : Nat, i < k → Within stop.toInt step.toInt (start.toInt + i * step.toInt))
    (hend : ¬ Within stop.toInt step.toInt (start.toInt + k * step.toInt)) :
    rangeAtEnd ((Number.integer start).afterSteps (.integer step) k) (.integer stop)
      (.integer step) = .ok true := by
  cases k with
  | zero =>
    rw [Int.natCast_zero, Int.zero_mul, Int.add_zero] at hend
    exact (rangeAtEnd_integer hstep).trans (congrArg Except.ok (decide_eq_true hend))
  | succ k =>
    obtain ⟨n, hn, hvalue⟩ := afterSteps_integer fun i hi => hbefore i (Nat.lt_succ_of_le hi)
    have hnext : start.toInt + (k + 1 : Nat) * step.toInt = n.toInt + step.toInt := by
      rw [hvalue, Int.natCast_succ, Int.add_mul, Int.one_mul, Int.add_assoc]
    rw [hnext] at hend
    rw [Number.afterSteps, hn]
    by_cases hfits : ∃ m : Int64, m.toInt = n.toInt + step.toInt
    · obtain ⟨m, hm⟩ := hfits
      rw [add_integers hm, rangeAtEnd_integer hstep, hm]
      exact congrArg Except.ok (decide_eq_true hend)
    · have hleaves : ∀ m : Int64, m.toInt ≠ n.toInt + step.toInt := not_exists.mp hfits
      have hwidened : (Number.integer n).add (.integer step) =
          .real (Number.ofInt64 n + Number.ofInt64 step) := Number.widen_of_ne hleaves _
      rw [hwidened]
      exact rangeAtEnd_widened hleaves

/-- The numbers before one that is before the end are so, too. -/
theorem Within.of_le {start stop step : Int} {i k : Nat} (hle : i ≤ k)
    (h : Within stop step (start + k * step)) : Within stop step (start + i * step) := by
  have hcast : (i : Int) ≤ k := Int.ofNat_le.mpr hle
  obtain ⟨hpos, h⟩ | ⟨hneg, h⟩ := h
  · have hmul := Int.mul_le_mul_of_nonneg_right hcast (Int.le_of_lt hpos)
    exact .inl ⟨hpos, by omega⟩
  · have hmul := Int.mul_le_mul_of_nonpos_right hcast (Int.le_of_lt hneg)
    exact .inr ⟨hneg, by omega⟩

/-- A range comes to its end. -/
theorem exists_count (start stop step : Int) :
    ∃ count : Nat, ∀ k : Nat, Within stop step (start + k * step) ↔ k < count := by
  have hends : ∃ n : Nat, ¬ Within stop step (start + n * step) := by
    refine ⟨(stop - start).natAbs, ?_⟩
    have hnonneg := Int.natCast_nonneg (stop - start).natAbs
    rintro (⟨hpos, h⟩ | ⟨hneg, h⟩)
    · have hmul := Int.mul_le_mul_of_nonneg_left (show 1 ≤ step from hpos) hnonneg
      omega
    · have hmul := Int.mul_le_mul_of_nonneg_left (show step ≤ -1 by omega) hnonneg
      omega
  refine ⟨Nat.find hends, fun k => ⟨fun h => Nat.not_le.mp fun hle => ?_, fun hlt => ?_⟩⟩
  · exact Nat.find_spec hends (h.of_le hle)
  · exact Decidable.not_not.mp (Nat.find_min hends hlt)

end Generator

namespace Sequence

open Generator

variable {start stop step : Int64}

/-- The stream of a range of integers. -/
def integerRange (start stop step : Int64) (p : Position) (j : Nat) :
    Except Interruption (Option Datum) :=
  (Datum.reading fun _ => True).rangeElement ((Number.integer start).afterSteps (.integer step) j)
    (.integer stop) (.integer step) p

/-- So many integers in equal steps. -/
def equalSteps (start step : Int64) (count : Nat) : List Int64 :=
  (List.range count).map fun k : Nat => Int64.ofInt (start.toInt + k * step.toInt)

/-- There are as many steps as are counted. -/
theorem length_equalSteps (start step : Int64) (count : Nat) :
    (equalSteps start step count).length = count := by
  rw [equalSteps, List.length_map, List.length_range]

/-- Each step is one step from the one before. -/
theorem getElem?_equalSteps (start step : Int64) (count k : Nat) :
    (equalSteps start step count)[k]? =
      if k < count then some (Int64.ofInt (start.toInt + k * step.toInt)) else none := by
  rw [equalSteps, List.getElem?_map]
  split
  · next hk =>
    rw [List.getElem?_range hk]
    rfl
  · next hk =>
    rw [List.getElem?_eq_none (by rw [List.length_range]; omega)]
    rfl

/-- A range of integers lists those before its end. -/
theorem exists_elements (start stop : Int64) (hstep : step.toInt ≠ 0) (p : Position) :
    ∃ items : List Int64,
      (∀ k : Nat, items[k]?.map Int64.toInt =
        if Within stop.toInt step.toInt (start.toInt + k * step.toInt)
        then some (start.toInt + k * step.toInt) else none) ∧
      Cursor.Lists (integerRange start stop step p) (items.map fun n => .number (.integer n)) := by
  obtain ⟨count, hcount⟩ := exists_count start.toInt stop.toInt step.toInt
  have hexact : ∀ {k}, k < count →
      (Number.integer start).afterSteps (.integer step) k =
        .integer (Int64.ofInt (start.toInt + k * step.toInt)) ∧
      (Int64.ofInt (start.toInt + k * step.toInt)).toInt = start.toInt + k * step.toInt := by
    intro k hk
    have hbefore : ∀ i : Nat, i ≤ k →
        Within stop.toInt step.toInt (start.toInt + i * step.toInt) :=
      fun i hi => (hcount i).mpr (Nat.lt_of_le_of_lt hi hk)
    obtain ⟨n, hn, hvalue⟩ := afterSteps_integer hbefore
    rw [← hvalue, Int64.ofInt_toInt]
    exact ⟨hn, rfl⟩
  refine ⟨equalSteps start step count, fun k => ?_, fun k hk => ?_⟩
  · rw [getElem?_equalSteps]
    by_cases hk : k < count
    · rw [if_pos hk, if_pos ((hcount k).mpr hk), Option.map_some, (hexact hk).2]
    · rw [if_neg hk, if_neg (mt (hcount k).mp hk), Option.map_none]
  · rw [List.length_map, length_equalSteps] at hk
    rw [integerRange, Reading.rangeElement, Cursor.ofList, List.getElem?_map, getElem?_equalSteps]
    obtain hlt | rfl := Nat.lt_or_eq_of_le hk
    · rw [(hexact hlt).1, rangeAtEnd_integer hstep, (hexact hlt).2, if_pos hlt,
        decide_eq_false (Decidable.not_not.mpr ((hcount k).mpr hlt))]
      rfl
    · rw [rangeAtEnd_of_first hstep (fun i hi => (hcount i).mpr hi)
        (mt (hcount k).mp (Nat.lt_irrefl k)), if_neg (Nat.lt_irrefl k)]
      rfl

end Sequence

/-- One sequence without transformers, of a range of integers. -/
def Setting.ofIntegerRange (call : Call) (start stop step : Int64) (p : Position) (s : Store)
    (q : SequenceId) (exists_sequence : q.index < s.sequences.size)
    (plain : (s.sequence q).transformers = []) : Setting Datum where
  own _ := True
  reading := Datum.reading fun _ => True
  stream _ := Sequence.integerRange start stop step p
  limit _ := 0
  call := call
  start := s
  watched := (· = q)
  exists_of_watched := by
    rintro _ rfl
    exact exists_sequence
  free_of_watched := by
    rintro _ rfl t ht
    rw [plain] at ht
    contradiction

namespace Sequence

open Generator

/-- Values that show integers are these integers. -/
theorem eq_integers_of_shows {s : Store} {items : List Int64} {vs : List Value}
    (h : List.Forall₂ (Datum.Shows s) vs (items.map fun n => .number (.integer n))) :
    vs = items.map Value.integer := by
  rw [List.forall₂_map_right_iff] at h
  induction h with
  | nil => rfl
  | cons hv _ ih => rw [List.map_cons, ← ih, hv, Value.integer]

/-- A sequence of a range that lists its elements collects them. -/
theorem collect_of_lists {call : Call} {s s₁ : Store} {q : SequenceId} {p p' : Position}
    {items : List Int64} {fuel : Nat}
    (created : create (.range (.integer start) (.integer stop) (.integer step) p) p' s =
      .ok (.sequence q) s₁)
    (hlists : Cursor.Lists (integerRange start stop step p)
      (items.map fun n => .number (.integer n))) (hfuel : items.length < fuel) :
    ∃ s₂, collect call (.ofDepth call fuel) fuel q s₁ = .ok (items.map Value.integer) s₂ := by
  have fresh := Store.fresh_of_create created
  have hpipe : (s₁.sequence q).pipe = ⟨[], p'⟩ := by
    cases created
    exact congrArg Sequence.pipe (Store.sequence_addSequence_new _)
  let E := Setting.ofIntegerRange call start stop step p s₁ q (fresh.exists_of_family rfl)
    (congrArg Pipe.transformers hpipe)
  have placed : E.Placed ⟨s.sources.size⟩ (integerRange start stop step p) 0 s₁ :=
    Setting.Placed.of_fresh (E := E) fresh trivial (.range fun _ => rfl)
  have hrounds : (items.map fun n => Datum.number (.integer n)).length < fuel := by
    rwa [List.length_map]
  have told := placed.collect_told hlists rfl (fresh.source_of_family rfl) (Nat.zero_le _) hrounds
  rw [show E.pipe q = ⟨[], p'⟩ from hpipe, List.drop_zero, Reading.survivors_nil] at told
  generalize hcollect : collect E.call _ fuel q s₁ = res at told
  cases told with
  | @value vs _ s₂ hshows => exact ⟨s₂, eq_integers_of_shows hshows ▸ hcollect⟩

/-- **A range of integers collects exactly**: its start, and from there on in equal steps every integer
that is before the end, in the direction of the step. There are finitely many, and as many rounds and
one more are enough. -/
theorem integerRange_collects (call : Call) (s : Store) (start stop step : Int64) (hstep : step ≠ 0)
    (p p' : Position) :
    ∃ (g : Generator) (q : SequenceId) (s₁ : Store) (items : List Int64),
      Generator.ofRange (.integer start) (.integer stop) (.integer step) p = .ok g ∧
      create g p' s = .ok (.sequence q) s₁ ∧
      (∀ k : Nat, items[k]?.map Int64.toInt =
        if Within stop.toInt step.toInt (start.toInt + k * step.toInt)
        then some (start.toInt + k * step.toInt) else none) ∧
      ∀ fuel, items.length < fuel →
        ∃ s₂, collect call (.ofDepth call fuel) fuel q s₁ = .ok (items.map Value.integer) s₂ := by
  have hstep' : step.toInt ≠ 0 := fun h => hstep (Int64.toInt_inj.mp h)
  obtain ⟨items, hitems, hlists⟩ := exists_elements start stop hstep' p
  have hrange : Generator.ofRange (.integer start) (.integer stop) (.integer step) p =
      .ok (.range (.integer start) (.integer stop) (.integer step) p) :=
    if_neg (by simpa [Number.isZero] using hstep)
  exact ⟨_, _, _, items, hrange, rfl, hitems, fun fuel hfuel => collect_of_lists rfl hlists hfuel⟩

/-- A range of which the second number leaves 64 bits has one element. -/
theorem integerRange_collects_at_limit :
    (2 : Int64) ≠ 0 ∧ ∃ (g : Generator) (q : SequenceId) (s₁ s₂ : Store),
      Generator.ofRange (.integer 9223372036854775806) (.integer 9223372036854775807) (.integer 2)
        .start = .ok g ∧
      create g .start Store.empty = .ok (.sequence q) s₁ ∧
      collect (Action.apply 0) (.ofDepth (Action.apply 0) 2) 2 q s₁ =
        .ok [.integer 9223372036854775806] s₂ := by
  have hstep : (2 : Int64) ≠ 0 := by decide
  obtain ⟨g, q, s₁, items, hrange, hcreate, hitems, hcollect⟩ := integerRange_collects
    (Action.apply 0) Store.empty 9223372036854775806 9223372036854775807 2 hstep .start .start
  obtain rfl : items = [9223372036854775806] := by
    match items, hitems 0, hitems 1 with
    | [], hfirst, _ => exact absurd hfirst (by decide)
    | [n], hfirst, _ =>
      have hvalue : n.toInt = 9223372036854775806 := Option.some_inj.mp hfirst
      exact congrArg (· :: []) (Int64.toInt_inj.mp hvalue)
    | _ :: _ :: _, _, hsecond => exact absurd hsecond (by simp [Within])
  obtain ⟨s₂, hcollect⟩ := hcollect 2 (by decide)
  exact ⟨hstep, g, q, s₁, s₂, hrange, hcreate, hcollect⟩

end Sequence

end Abacus
