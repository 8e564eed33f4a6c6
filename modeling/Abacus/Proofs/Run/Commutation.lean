import Abacus.Proofs.Number.Commutation
import Abacus.Proofs.Run.Operands
import Mathlib.Data.List.Zip

/-!
# Sums and products of values either way round

With its operands exchanged an operation takes other branches: a number scales a vector from the
other side, and the vectors that are made on the way down are other ones. So the two results are
looked at in two stores, and they are one but for which vectors they are made of (`Store.Alike`).
What cannot be added or multiplied is met at the same place, since both ways go through the elements
in the same order.

**The law** (`Action.sums_and_products_commute`): sums and products either way round both end in a
value, and the two are alike, or both in a fault of the same kind at the same position.
-/

namespace Abacus

namespace Store

/-- Values that are one but for their vectors, which hold as many elements, alike each with each. The
first value is looked at in the first store, and the second one in the second. -/
inductive Alike (s s' : Store) : Value → Value → Prop
  | atom {v : Value} (h : ∀ id, v ≠ .vector id) : Alike s s' v v
  | vector {a b : VectorId} (ha : a.index < s.vectors.size) (hb : b.index < s'.vectors.size)
      (hlength : (s.items a).length = (s'.items b).length)
      (hitems : ∀ pair ∈ (s.items a).zip (s'.items b), Alike s s' pair.1 pair.2) :
      Alike s s' (.vector a) (.vector b)

variable {s s' t t' : Store} {v w : Value}

theorem Alike.number (n : Number) : Alike s s' (.number n) (.number n) := .atom nofun

/-- Values that are alike stay so while their stores grow. -/
theorem Alike.grows (h : Alike s s' v w) (grown : s.Grows t) (grown' : s'.Grows t') :
    Alike t t' v w := by
  induction h with
  | atom h => exact .atom h
  | vector ha hb hlength _ ih =>
    have hxs := items_grows grown ha
    have hys := items_grows grown' hb
    exact .vector (ha.trans_le grown.size_vectors) (hb.trans_le grown'.size_vectors)
      (by rw [hxs, hys, hlength]) (by rwa [hxs, hys])

/-- New vectors of elements that are alike are alike. -/
theorem Alike.new {xs ys : List Value} (h : List.Forall₂ (Alike s s') xs ys) :
    Alike (s.addVector xs.toArray).2 (s'.addVector ys.toArray).2
      (.vector (s.addVector xs.toArray).1) (.vector (s'.addVector ys.toArray).1) := by
  have hxs := s.items_addVector_new xs
  have hys := s'.items_addVector_new ys
  obtain ⟨hlength, hpairs⟩ := List.forall₂_iff_zip.mp h
  refine .vector (index_addVector_lt _) (index_addVector_lt _) (by rw [hxs, hys, hlength]) ?_
  rw [hxs, hys]
  exact fun pair hpair => (hpairs hpair).grows (s.grows_addVector _) (s'.grows_addVector _)

end Store

namespace Action

open Store (Alike)

/-! ## Two actions side by side -/

/-- Two actions end alike, each begun in its own store: in values that are related in the stores that
are left, or in faults of one kind at one position. Neither changes what was there. -/
inductive Mirrored {α β : Type} (s s' : Store) (related : Store → Store → α → β → Prop)
    (x : Action α) (y : Action β) : Prop
  | values {t t' : Store} {a : α} {b : β} (grown : s.Grows t) (grown' : s'.Grows t')
      (hx : x s = .ok a t) (hy : y s' = .ok b t') (h : related t t' a b)
  | faults {t t' : Store} {fault fault' : Fault} {position : Position} (grown : s.Grows t)
      (grown' : s'.Grows t') (hx : x s = .error (.fault ⟨fault, position⟩) t)
      (hy : y s' = .error (.fault ⟨fault', position⟩) t') (hkind : fault.kind = fault'.kind)

namespace Mirrored

variable {α β γ δ : Type} {s s' : Store} {P : Store → Store → α → β → Prop}
  {Q : Store → Store → γ → δ → Prop}

/-- Two values of which `P` is true. -/
theorem pure {a : α} {b : β} (h : P s s' a b) : Mirrored s s' P (Pure.pure a) (Pure.pure b) :=
  .values (.refl _ s) (.refl _ s') rfl rfl h

/-- Two faults of one kind. -/
theorem fail {fault fault' : Fault} {p : Position} (h : fault.kind = fault'.kind) :
    Mirrored s s' P (Action.fail fault p) (Action.fail fault' p) :=
  .faults (.refl _ s) (.refl _ s') rfl rfl h

/-- Only what the actions do in their stores matters. -/
theorem congr {x x' : Action α} {y y' : Action β} (hx : x s = x' s) (hy : y s' = y' s')
    (h : Mirrored s s' P x' y') : Mirrored s s' P x y := by
  cases h with
  | values grown grown' hx' hy' h => exact .values grown grown' (hx.trans hx') (hy.trans hy') h
  | faults grown grown' hx' hy' hkind =>
    exact .faults grown grown' (hx.trans hx') (hy.trans hy') hkind

/-- Actions that mirror each other do so one after the other. -/
theorem bind {x : Action α} {y : Action β} {f : α → Action γ} {g : β → Action δ}
    (h : Mirrored s s' P x y) (hrest : ∀ {t t' a b}, s.Grows t → s'.Grows t' → P t t' a b →
      Mirrored t t' Q (f a) (g b)) : Mirrored s s' Q (x >>= f) (y >>= g) := by
  cases h with
  | faults grown grown' hx hy hkind =>
    exact .faults grown grown' (bind_error hx f) (bind_error hy g) hkind
  | values grown grown' hx hy h =>
    have hx := bind_ok hx f
    have hy := bind_ok hy g
    cases hrest grown grown' h with
    | values later later' hf hg h =>
      exact .values (grown.trans later) (grown'.trans later') (hx.trans hf) (hy.trans hg) h
    | faults later later' hf hg hkind =>
      exact .faults (grown.trans later) (grown'.trans later') (hx.trans hf) (hy.trans hg) hkind

/-- Vectors of elements that are alike are alike. -/
theorem newVector {xs ys : List Value} (h : List.Forall₂ (Alike s s') xs ys) :
    Mirrored s s' Alike (Action.newVector xs) (Action.newVector ys) :=
  .values (s.grows_addVector _) (s'.grows_addVector _) rfl rfl (.new h)

/-- Elements are worked on in the same order on both sides. -/
theorem mapM {f g : γ → Action Value} {xs : List γ} (h : ∀ x ∈ xs, ∀ {t t'}, s.Grows t →
      s'.Grows t' → Mirrored t t' Alike (f x) (g x)) :
    Mirrored s s' (fun t t' => List.Forall₂ (Alike t t')) (xs.mapM f) (xs.mapM g) := by
  induction xs generalizing s s' with
  | nil => exact pure .nil
  | cons x rest ih =>
    rw [List.mapM_cons, List.mapM_cons]
    refine (h x List.mem_cons_self (.refl _ s) (.refl _ s')).bind fun grown grown' hfirst => ?_
    refine (ih fun y hy _ _ later later' => h y (List.mem_cons_of_mem x hy) (grown.trans later)
      (grown'.trans later')).bind fun later later' hrest => ?_
    exact pure (.cons (hfirst.grows later later') hrest)

/-- So are they folded. -/
theorem foldlM {R : α → β → Prop} {f : α → γ → Action α} {g : β → γ → Action β} {xs : List γ}
    {a : α} {b : β} (init : R a b) (h : ∀ x ∈ xs, ∀ {t t' a b}, s.Grows t → s'.Grows t' → R a b →
      Mirrored t t' (fun _ _ => R) (f a x) (g b x)) :
    Mirrored s s' (fun _ _ => R) (xs.foldlM f a) (xs.foldlM g b) := by
  induction xs generalizing s s' a b with
  | nil => exact pure init
  | cons x rest ih =>
    rw [List.foldlM_cons, List.foldlM_cons]
    refine (h x List.mem_cons_self (.refl _ s) (.refl _ s') init).bind fun grown grown' hnext => ?_
    exact ih hnext fun y hy _ _ _ _ later later' =>
      h y (List.mem_cons_of_mem x hy) (grown.trans later) (grown'.trans later')

/-- What is said of the two values may be said more weakly. -/
theorem imp {P' : Store → Store → α → β → Prop} {x : Action α} {y : Action β}
    (h : Mirrored s s' P x y) (himp : ∀ {t t' a b}, P t t' a b → P' t t' a b) :
    Mirrored s s' P' x y := by
  cases h with
  | values grown grown' hx hy h => exact .values grown grown' hx hy (himp h)
  | faults grown grown' hx hy hkind => exact .faults grown grown' hx hy hkind

end Mirrored

/-! ## Operands exchanged -/

variable {op : BinaryOp} {f : Number → Number → Number} {p : Position} {depth depth' : Nat}
  {base s s' : Store} {v w : Value} {a b : VectorId}

/-- Down to this depth, the operation ends alike either way round. The other way may look down
further, as it does after vectors have been made. -/
def Exchanges (base : Store) (p : Position) (op : BinaryOp) (depth : Nat) : Prop :=
  ∀ ⦃depth' : Nat⦄ ⦃s s' : Store⦄ ⦃v w : Value⦄, depth ≤ depth' → base.Grows s → base.Grows s' →
    Within base depth v → Within base depth w →
    Mirrored s s' Alike (binaryTo p depth op v w) (binaryTo p depth' op w v)

/-- Where there is a vector there is depth left. -/
theorem Within.succ (h : Within base depth (.vector a)) (hle : depth ≤ depth') :
    ∃ rest rest', depth = rest + 1 ∧ depth' = rest' + 1 ∧ rest ≤ rest' := by
  match depth, depth', hle with
  | 0, _, _ => exact h.2.elim
  | rest + 1, rest' + 1, hle => exact ⟨rest, rest', rfl, rfl, Nat.le_of_succ_le_succ hle⟩

/-- What is added to a number is a number, or it is refused whatever it is. -/
theorem add_mirrored (n : Number) (h : Alike s s' v w) :
    Mirrored s s' (fun _ _ sum sum' => ∃ m, sum = .number m ∧ sum' = .number m)
      (binaryTo p depth .add (.number n) v) (binaryTo p depth' .add (.number n) w) := by
  by_cases hv : Operands .add (.number n) v
  · obtain ⟨m, rfl⟩ := hv.number_of_sum
    cases h
    rw [binaryTo_numbers .sum, binaryTo_numbers .sum]
    exact .pure ⟨_, rfl, rfl⟩
  · have hw : ¬ Operands .add (.number n) w := by
      cases h with
      | atom => exact hv
      | vector =>
        intro h
        obtain ⟨m, hm⟩ := h.number_of_sum
        cases hm
    rw [binaryTo_refused .sum hv, binaryTo_refused .sum hw]
    exact .fail rfl

namespace Exchanges

variable (ih : Exchanges base p op depth) (hle : depth ≤ depth') (grown : base.Grows s)
  (grown' : base.Grows s')

include ih hle grown grown'

/-- Elements that mirror each other one by one make vectors that do. -/
theorem elementwise {γ : Type} {xs : List γ} {left right : γ → Value}
    (h : ∀ x ∈ xs, Within base depth (left x) ∧ Within base depth (right x)) :
    Mirrored s s' Alike
      (xs.mapM (fun x => binaryTo p depth op (left x) (right x)) >>= newVector)
      (xs.mapM (fun x => binaryTo p depth' op (right x) (left x)) >>= newVector) := by
  refine .bind (.mapM fun x hx _ _ later later' => ?_) fun _ _ h => .newVector h
  exact ih hle (grown.trans later) (grown'.trans later') (h x hx).1 (h x hx).2

/-- The sum of products goes on with one number on both ways. -/
theorem summed {pairs : List (Value × Value)}
    (h : ∀ pair ∈ pairs, Within base depth pair.1 ∧ Within base depth pair.2) :
    Mirrored s s' Alike
      (pairs.foldlM (fun sum pair => do
        binaryTo p depth .add sum (← binaryTo p depth op pair.1 pair.2)) (.integer 0))
      (pairs.foldlM (fun sum pair => do
        binaryTo p depth' .add sum (← binaryTo p depth' op pair.2 pair.1)) (.integer 0)) := by
  refine .imp (P := fun _ _ sum sum' => ∃ n, sum = .number n ∧ sum' = .number n)
    (.foldlM ⟨_, rfl, rfl⟩ fun pair hpair t t' sum sum' later later' hsum => ?_) ?_
  · obtain ⟨n, rfl, rfl⟩ := hsum
    obtain ⟨hx, hy⟩ := h pair hpair
    exact (ih hle (grown.trans later) (grown'.trans later') hx hy).bind fun _ _ => add_mirrored n
  · rintro t t' _ _ ⟨n, rfl, rfl⟩
    exact .number n

/-- Vectors of any nesting mirror each other: their elements do, or both lengths are refused. -/
theorem vectors (sound : base.Sound) (hop : op.Arithmetic f)
    (ha : Within base (depth + 1) (.vector a)) (hb : Within base (depth + 1) (.vector b)) :
    Mirrored s s' Alike (binaryTo p (depth + 1) op (.vector a) (.vector b))
      (binaryTo p (depth' + 1) op (.vector b) (.vector a)) := by
  by_cases hlength : (base.items a).length = (base.items b).length
  case neg =>
    exact .faults (.refl _ s) (.refl _ s') (binaryTo_lengths grown ha.1 hb.1 hop hlength)
      (binaryTo_lengths grown' hb.1 ha.1 hop (Ne.symm hlength)) rfl
  have hpairs : ∀ pair ∈ (base.items a).zip (base.items b),
      Within base depth pair.1 ∧ Within base depth pair.2 := fun pair hpair =>
    ⟨ha.of_mem sound (List.of_mem_zip hpair).1, hb.of_mem sound (List.of_mem_zip hpair).2⟩
  by_cases hmul : op = .mul
  · subst hmul
    refine .congr (binaryTo_product grown ha.1 hb.1 hlength)
      (binaryTo_product grown' hb.1 ha.1 hlength.symm) ?_
    rw [← List.zip_swap (base.items a), List.foldlM_map]
    exact ih.summed hle grown grown' hpairs
  · refine .congr (binaryTo_elementwise grown ha.1 hb.1 hop hmul hlength)
      (binaryTo_elementwise grown' hb.1 ha.1 hop hmul hlength.symm) ?_
    rw [← List.zip_swap (base.items a), List.mapM_map]
    exact ih.elementwise hle grown grown' hpairs

end Exchanges

/-- Both ways go down through the same elements in the same order. -/
theorem exchanges (sound : base.Sound) (hop : op.Arithmetic f) (hcomm : ∀ m n, f m n = f n m)
    (p : Position) (depth : Nat) : Exchanges base p op depth := by
  -- On the depth that is left to the one way; the other one has as much left or more at each step.
  induction depth using Nat.strongRecOn with
  | ind depth ih =>
    intro depth' s s' v w hle grown grown' hv hw
    by_cases h : Operands op v w
    case neg =>
      rw [binaryTo_refused hop h, binaryTo_refused hop (mt Operands.swap h)]
      exact .fail rfl
    cases h with
    | numbers =>
      rw [binaryTo_numbers hop, binaryTo_numbers hop, hcomm]
      exact .pure (.number _)
    | scaling hmul =>
      subst hmul
      obtain ⟨depth, depth', rfl, rfl, hle'⟩ := hw.succ hle
      refine .congr (binaryTo_scaling grown hw.1) (binaryTo_scaled grown' hw.1) ?_
      exact (ih depth depth.lt_succ_self).elementwise hle' grown grown'
        fun item hitem => ⟨.number _, hw.of_mem sound hitem⟩
    | scaled hmul =>
      subst hmul
      obtain ⟨depth, depth', rfl, rfl, hle'⟩ := hv.succ hle
      refine .congr (binaryTo_scaled grown hv.1) (binaryTo_scaling grown' hv.1) ?_
      exact (ih depth depth.lt_succ_self).elementwise hle' grown grown'
        fun item hitem => ⟨hv.of_mem sound hitem, .number _⟩
    | vectors =>
      obtain ⟨depth, depth', rfl, rfl, hle'⟩ := hv.succ hle
      exact (ih depth depth.lt_succ_self).vectors hle' grown grown' sound hop hv hw

/-- **Sums and products commute.** In every store that is sound and without a vector that holds
itself, and in whatever it has grown to meanwhile, a sum or a product of two values and the one with
its operands exchanged either both end in a value, and the two are alike, or both in a fault, of one
kind and at one position. -/
theorem sums_and_products_commute {s s' : Store} (sound : s.Sound) (hs : s.Acyclic)
    (grown : s.Grows s') {op : BinaryOp} (hop : op = .add ∨ op = .mul) {v w : Value}
    (hv : v.Fits s) (hw : w.Fits s) (p : Position) :
    Mirrored s s' Alike (binary op v w p) (binary op w v p) := by
  have hle : s.depth ≤ s'.depth := Nat.succ_le_succ grown.size_vectors
  have hv : Within s s.depth v := ⟨hv, hs.nestedTo sound v⟩
  have hw : Within s s.depth w := ⟨hw, hs.nestedTo sound w⟩
  obtain rfl | rfl := hop
  · have hsum := exchanges sound .sum Number.add_comm p s.depth
    exact .congr binary_apply binary_apply (hsum hle (.refl _ s) grown hv hw)
  · have hproduct := exchanges sound .product Number.mul_comm p s.depth
    exact .congr binary_apply binary_apply (hproduct hle (.refl _ s) grown hv hw)

/-- A vector is scaled from either side, down to the vector in it. -/
theorem sums_and_products_commute_scaled :
    let s := Store.initial.2.afterSources Store.outermost ["a = [1, [2, 3]]"]
    let v : Value := .vector ⟨1⟩
    let n : Value := .number (.integer 2)
    s.Sound ∧ s.Acyclic ∧ v.Fits s ∧ n.Fits s ∧
      Mirrored s s Alike (binary .mul v n .start) (binary .mul n v .start) ∧
      (match binary .mul n v .start s with
        | .ok scaled t => t.text scaled
        | .error _ _ => "") = "[2, [4, 6]]" := by
  intro s v n
  have hreached : s.Reached := Store.reached_afterSources _
  obtain ⟨hv, htext⟩ : (⟨1⟩ : VectorId).index < s.vectors.size ∧
      (match binary .mul n v .start s with
        | .ok scaled t => t.text scaled
        | .error _ _ => "") = "[2, [4, 6]]" := by
    decide +kernel
  have hfits : v.Fits s := hv
  have hnumber : n.Fits s := trivial
  exact ⟨hreached.sound, hreached.acyclic, hfits, hnumber, sums_and_products_commute hreached.sound
    hreached.acyclic (.refl _ s) (.inr rfl) hfits hnumber .start, htext⟩

end Action

end Abacus
