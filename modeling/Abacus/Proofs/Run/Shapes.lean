import Abacus.Proofs.Run.Operands

/-!
# Sums and differences follow the shape

Two values have one shape if they are two numbers or two vectors of as many elements, and the
elements that stand in one place have one shape again (`Store.SameShape`). A place in the two values
is the way to it: which element of the two vectors, then which element of those, and so on. The order
of the ways as lists is the order in which the places are come to, the vectors before what is in them.

**The law** (`Action.sums_and_differences_follow_shapes`): a sum or a difference of two values has a
result if the values have one shape, and then it is a new value of that shape with the sums or
differences of the numbers; and otherwise the first place at which the shapes differ decides the
fault. What the operands hold stays as it was.
-/

namespace Abacus

namespace Store

/-! ## Shapes and places -/

/-- Two numbers, or two vectors of one length. -/
def Meets (s : Store) : Value → Value → Prop
  | .number _, .number _ => True
  | .vector a, .vector b => (s.items a).length = (s.items b).length
  | _, _ => False

/-- Two numbers, or two vectors of one length whose elements have one shape each with each. -/
inductive SameShape (s : Store) : Value → Value → Prop
  | numbers {m n : Number} : SameShape s (.number m) (.number n)
  | vectors {a b : VectorId} (hlength : (s.items a).length = (s.items b).length)
      (hitems : ∀ pair ∈ (s.items a).zip (s.items b), SameShape s pair.1 pair.2) :
      SameShape s (.vector a) (.vector b)

/-- What stands at a place in each of two values. -/
def opposite? (s : Store) : List Nat → Value → Value → Option (Value × Value)
  | [], v, w => some (v, w)
  | i :: rest, .vector a, .vector b =>
    ((s.items a).zip (s.items b))[i]?.bind fun pair => s.opposite? rest pair.1 pair.2
  | _ :: _, _, _ => none

/-- The first place at which two values differ in shape, with what stands there. -/
structure FirstMismatch (s : Store) (v w : Value) (place : List Nat) (x y : Value) : Prop where
  here : s.opposite? place v w = some (x, y)
  differ : ¬ s.Meets x y
  before : ∀ earlier < place, ∀ {x y}, s.opposite? earlier v w = some (x, y) → s.Meets x y

/-- The fault of operands that do not meet. -/
def mismatch (s : Store) (op : BinaryOp) : Value → Value → Fault
  | .vector a, .vector b => .lengths op (s.items a).length (s.items b).length
  | x, y => .operands op x.typeTag y.typeTag

/-- What is tagged as a vector is one. -/
theorem typeTag_eq_vector {v : Value} (h : v.typeTag = .vector) : ∃ id, v = .vector id := by
  cases v with
  | vector id => exact ⟨id, rfl⟩
  | number n => cases n <;> cases h
  | _ => cases h

/-- Vectors of different lengths make an invalid argument; anything else is a mismatch of types. -/
theorem kind_mismatch (s : Store) (op : BinaryOp) (x y : Value) : (s.mismatch op x y).kind =
    if x.typeTag = .vector ∧ y.typeTag = .vector then .invalidArgument else .typeMismatch := by
  unfold mismatch
  split
  · rfl
  · next hother =>
    have hvectors : ¬ (x.typeTag = .vector ∧ y.typeTag = .vector) := by
      rintro ⟨hx, hy⟩
      obtain ⟨a, rfl⟩ := typeTag_eq_vector hx
      obtain ⟨b, rfl⟩ := typeTag_eq_vector hy
      exact hother a b rfl rfl
    rw [if_neg hvectors]
    rfl

variable {s : Store} {v w x y : Value} {a b : VectorId} {i : Nat} {place : List Nat}
  {pair : Value × Value}

/-- Values that meet are two numbers or two vectors of one length. -/
theorem Meets.cases (h : s.Meets v w) : (∃ m n, v = .number m ∧ w = .number n) ∨
    ∃ a b, v = .vector a ∧ w = .vector b ∧ (s.items a).length = (s.items b).length := by
  cases v with
  | number m =>
    cases w with
    | number n => exact .inl ⟨m, n, rfl, rfl⟩
    | _ => exact h.elim
  | vector a =>
    cases w with
    | vector b => exact .inr ⟨a, b, rfl, rfl, h⟩
    | _ => exact h.elim
  | _ => cases w <;> exact h.elim

/-- What stands opposite within two elements stands opposite within their vectors. -/
theorem opposite?_cons (hpair : ((s.items a).zip (s.items b))[i]? = some pair) :
    s.opposite? (i :: place) (.vector a) (.vector b) = s.opposite? place pair.1 pair.2 := by
  rw [opposite?, hpair, Option.bind_some]

/-- A way that goes on goes through two vectors. -/
theorem of_opposite?_cons (h : s.opposite? (i :: place) v w = some (x, y)) :
    ∃ a b pair, v = .vector a ∧ w = .vector b ∧ ((s.items a).zip (s.items b))[i]? = some pair ∧
      s.opposite? place pair.1 pair.2 = some (x, y) := by
  cases v with
  | vector a =>
    cases w with
    | vector b =>
      obtain ⟨pair, hpair, h⟩ := Option.bind_eq_some_iff.mp h
      exact ⟨a, b, pair, rfl, rfl, hpair, h⟩
    | _ => cases h
  | _ => cases h

/-- In values of one shape everything that stands opposite meets. -/
theorem SameShape.meets (h : s.SameShape v w) (hplace : s.opposite? place v w = some (x, y)) :
    s.Meets x y := by
  induction place generalizing v w with
  | nil =>
    cases hplace
    cases h with
    | numbers => trivial
    | vectors hlength _ => exact hlength
  | cons i place ih =>
    obtain ⟨a, b, pair, rfl, rfl, hpair, hrest⟩ := of_opposite?_cons hplace
    cases h with
    | vectors _ hitems => exact ih (hitems pair (List.mem_of_getElem? hpair)) hrest

/-- Values that do not meet are a mismatch themselves. -/
theorem FirstMismatch.root (h : ¬ s.Meets v w) : s.FirstMismatch v w [] v w where
  here := rfl
  differ := h
  before _ hlt := absurd hlt (List.not_lt_nil _)

/-- The first mismatch of two vectors of one length is that of the first elements that have one. -/
theorem FirstMismatch.element (hlength : (s.items a).length = (s.items b).length)
    (hpair : ((s.items a).zip (s.items b))[i]? = some pair)
    (hbefore : ∀ j < i, ∀ {pair}, ((s.items a).zip (s.items b))[j]? = some pair →
      s.SameShape pair.1 pair.2) (h : s.FirstMismatch pair.1 pair.2 place x y) :
    s.FirstMismatch (.vector a) (.vector b) (i :: place) x y where
  here := (opposite?_cons hpair).trans h.here
  differ := h.differ
  before earlier hlt x y hplace := by
    cases earlier with
    | nil =>
      cases hplace
      exact hlength
    | cons j rest =>
      obtain ⟨_, _, other, ha, hb, hother, hrest⟩ := of_opposite?_cons hplace
      cases ha
      cases hb
      obtain hless | ⟨rfl, hless⟩ := List.cons_lt_cons_iff.mp hlt
      · exact (hbefore j hless hother).meets hrest
      · cases hpair.symm.trans hother
        exact h.before rest hless hrest

/-- Where something fails among elements, it does so first at some index. -/
theorem exists_first {α : Type} {P : α → Prop} {xs : List α} (h : ¬ ∀ x ∈ xs, P x) :
    ∃ (i : Nat) (x : α), xs[i]? = some x ∧ ¬ P x ∧ ∀ j < i, ∀ {y}, xs[j]? = some y → P y := by
  classical
  push Not at h
  obtain ⟨x, hx, hfails⟩ := h
  obtain ⟨i, hi⟩ := List.mem_iff_getElem?.mp hx
  have hsome : ∃ (i : Nat) (x : α), xs[i]? = some x ∧ ¬ P x := ⟨i, x, hi, hfails⟩
  obtain ⟨x, hx, hfails⟩ := Nat.find_spec hsome
  refine ⟨_, x, hx, hfails, fun j hj y hy => ?_⟩
  by_contra hy'
  exact Nat.find_min hsome hj ⟨y, hy, hy'⟩

/-- Two values have one shape, or there is a first place at which they differ. -/
theorem Acyclic.sameShape_or_mismatch (hs : s.Acyclic) (sound : s.Sound) (v w : Value) :
    s.SameShape v w ∨ ∃ place x y, s.FirstMismatch v w place x y := by
  induction v using (hs.wellFounded_element sound).induction generalizing w with
  | h v ih =>
    by_cases hmeets : s.Meets v w
    case neg => exact .inr ⟨[], v, w, .root hmeets⟩
    obtain ⟨m, n, rfl, rfl⟩ | ⟨a, b, rfl, rfl, hlength⟩ := hmeets.cases
    · exact .inl .numbers
    by_cases hall : ∀ pair ∈ (s.items a).zip (s.items b), s.SameShape pair.1 pair.2
    · exact .inl (.vectors hlength hall)
    obtain ⟨i, ⟨x, y⟩, hpair, hdiffers, hbefore⟩ := exists_first hall
    have helement : x ∈ s.items a := (List.of_mem_zip (List.mem_of_getElem? hpair)).1
    obtain hsame | ⟨place, x', y', hmismatch⟩ := ih x ⟨a, rfl, helement⟩ y
    · exact absurd hsame hdiffers
    · exact .inr ⟨i :: place, x', y', hmismatch.element hlength hpair hbefore⟩

/-- Inside of two vectors, a first mismatch is one of two elements, and the elements before them have
one shape each. -/
theorem FirstMismatch.inside (hs : s.Acyclic) (sound : s.Sound)
    (h : s.FirstMismatch v w (i :: place) x y) :
    ∃ a b pair, v = .vector a ∧ w = .vector b ∧ (s.items a).length = (s.items b).length ∧
      ((s.items a).zip (s.items b))[i]? = some pair ∧ s.FirstMismatch pair.1 pair.2 place x y ∧
      ∀ j < i, ∀ {pair}, ((s.items a).zip (s.items b))[j]? = some pair →
        s.SameShape pair.1 pair.2 := by
  obtain ⟨a, b, pair, rfl, rfl, hpair, hrest⟩ := of_opposite?_cons h.here
  refine ⟨a, b, pair, rfl, rfl, h.before [] (List.nil_lt_cons i place) rfl, hpair,
    ⟨hrest, h.differ, fun earlier hlt _ _ hearlier => ?_⟩, fun j hj other hother => ?_⟩
  · exact h.before (i :: earlier) (List.cons_lt_cons_iff.mpr (.inr ⟨rfl, hlt⟩))
      ((opposite?_cons hpair).trans hearlier)
  · obtain hsame | ⟨place', x', y', hmismatch⟩ := hs.sameShape_or_mismatch sound other.1 other.2
    · exact hsame
    · have hlt : j :: place' < i :: place := List.cons_lt_cons_iff.mpr (.inl hj)
      exact absurd (h.before _ hlt ((opposite?_cons hother).trans hmismatch.here)) hmismatch.differ

/-! ## The result -/

/-- The result of an operation on two values of one shape, with what it makes of two numbers in the
places of the numbers and with new vectors in those of the vectors. -/
inductive Combined (s t : Store) (f : Number → Number → Number) : Value → Value → Value → Prop
  | numbers {m n : Number} : Combined s t f (.number m) (.number n) (.number (f m n))
  | vectors {a b c : VectorId} (hnew : s.vectors.size ≤ c.index) (hc : c.index < t.vectors.size)
      (hlength : (t.items c).length = (s.items a).length)
      (hlength' : (t.items c).length = (s.items b).length)
      (hitems : ∀ triple ∈ ((s.items a).zip (s.items b)).zip (t.items c),
        Combined s t f triple.1.1 triple.1.2 triple.2) :
      Combined s t f (.vector a) (.vector b) (.vector c)

variable {t t' : Store} {f : Number → Number → Number} {u : Value}

/-- A vector that has been made stays as it is when the store grows. -/
theorem Combined.grows (h : Combined s t f v w u) (grown : t.Grows t') : Combined s t' f v w u := by
  induction h with
  | numbers => exact .numbers
  | vectors hnew hc hlength hlength' _ ih =>
    have hitems := items_grows grown hc
    exact .vectors hnew (hc.trans_le grown.size_vectors) (by rw [hitems, hlength])
      (by rw [hitems, hlength']) (by rwa [hitems])

/-- A new vector of what the elements combine to. -/
theorem Combined.new {us : List Value} (hsize : s.vectors.size ≤ t.vectors.size)
    (hlength : (s.items a).length = (s.items b).length)
    (h : List.Forall₂ (fun pair u => Combined s t f pair.1 pair.2 u) ((s.items a).zip (s.items b)) us) :
    Combined s (t.addVector us.toArray).2 f (.vector a) (.vector b)
      (.vector (t.addVector us.toArray).1) := by
  have hitems := t.items_addVector_new us
  obtain ⟨hcount, htriples⟩ := List.forall₂_iff_zip.mp h
  rw [List.length_zip, ← hlength, Nat.min_self] at hcount
  refine .vectors hsize (index_addVector_lt _) (by rw [hitems, hcount])
    (by rw [hitems, ← hcount, hlength]) ?_
  rw [hitems]
  exact fun triple htriple => (htriples htriple).grows (t.grows_addVector _)

end Store

namespace Action

/-! ## Certain ends -/

/-- The action ends in a value of this kind, and has changed nothing that was there. -/
def Yields {α : Type} (x : Action α) (good : Store → α → Prop) (s : Store) : Prop :=
  ∃ a t, s.Grows t ∧ x s = .ok a t ∧ good t a

/-- The action ends in this error, and has changed nothing that was there. -/
def Errs {α : Type} (x : Action α) (e : RuntimeError) (s : Store) : Prop :=
  ∃ t, s.Grows t ∧ x s = .error (.fault e) t

section Ends

variable {α β : Type} {s : Store} {P : Store → α → Prop} {Q : Store → β → Prop} {e : RuntimeError}
  {x x' : Action α} {f : α → Action β}

/-- An action yields what another yields that does the same in this store. -/
theorem Yields.congr (hx : x s = x' s) (h : Yields x' P s) : Yields x P s := by
  obtain ⟨a, t, grown, hx', ha⟩ := h
  exact ⟨a, t, grown, hx.trans hx', ha⟩

/-- And fails as the other does. -/
theorem Errs.congr (hx : x s = x' s) (h : Errs x' e s) : Errs x e s := by
  obtain ⟨t, grown, hx'⟩ := h
  exact ⟨t, grown, hx.trans hx'⟩

/-- Actions that yield something do so one after the other. -/
theorem Yields.bind (h : Yields x P s) (hf : ∀ {a t}, s.Grows t → P t a → Yields (f a) Q t) :
    Yields (x >>= f) Q s := by
  obtain ⟨a, t, grown, hx, ha⟩ := h
  obtain ⟨b, t', later, hb, hgood⟩ := hf grown ha
  exact ⟨b, t', grown.trans later, (bind_ok hx f).trans hb, hgood⟩

/-- An error ends what was to come after it. -/
theorem Errs.bind (h : Errs x e s) : Errs (x >>= f) e s := by
  obtain ⟨t, grown, hx⟩ := h
  exact ⟨t, grown, bind_error hx f⟩

/-- An error may come later. -/
theorem Yields.errs (h : Yields x P s) (hf : ∀ {a t}, s.Grows t → Errs (f a) e t) :
    Errs (x >>= f) e s := by
  obtain ⟨a, t, grown, hx, -⟩ := h
  obtain ⟨t', later, hb⟩ := hf grown
  exact ⟨t', grown.trans later, (bind_ok hx f).trans hb⟩

/-- Elements are worked on from left to right, and what has been made of one stays true while the
next is worked on. -/
theorem Yields.mapM {R : Store → α → β → Prop} {xs : List α}
    (later : ∀ {t t' x u}, t.Grows t' → R t x u → R t' x u)
    (h : ∀ x ∈ xs, ∀ {t}, s.Grows t → Yields (f x) (fun t' => R t' x) t) :
    Yields (xs.mapM f) (fun t => List.Forall₂ (R t) xs) s := by
  induction xs generalizing s with
  | nil => exact ⟨[], s, .refl _ s, rfl, .nil⟩
  | cons x rest ih =>
    rw [List.mapM_cons]
    refine (h x List.mem_cons_self (.refl _ s)).bind fun {u t} grown hu => ?_
    refine (ih fun y hy _ grown' => h y (List.mem_cons_of_mem x hy) (grown.trans grown')).bind
      fun {us t'} grown' hus => ?_
    exact ⟨u :: us, t', .refl _ t', rfl, .cons (later grown' hu) hus⟩

/-- The first element that ends in an error ends the whole in it. -/
theorem Errs.mapM {xs : List α} {i : Nat} {x : α} (hx : xs[i]? = some x)
    (hbefore : ∀ j < i, ∀ {y}, xs[j]? = some y → ∀ {t}, s.Grows t →
      Yields (f y) (fun _ _ => True) t)
    (h : ∀ {t}, s.Grows t → Errs (f x) e t) : Errs (xs.mapM f) e s := by
  induction xs generalizing i s with
  | nil => cases hx
  | cons y rest ih =>
    rw [List.mapM_cons]
    cases i with
    | zero =>
      cases hx
      exact (h (.refl _ s)).bind
    | succ i =>
      refine (hbefore 0 i.succ_pos rfl (.refl _ s)).errs fun grown => ?_
      refine (ih hx (fun j hj z hz _ grown' => ?_) fun grown' => h (grown.trans grown')).bind
      exact hbefore (j + 1) (Nat.succ_lt_succ hj) hz (grown.trans grown')

end Ends

/-! ## Sums and differences -/

variable {op : BinaryOp} {f : Number → Number → Number} {p : Position} {depth : Nat}
  {base s : Store} {v w x y : Value} {place : List Nat}

/-- Operands that do not meet are refused at once. -/
theorem errs_of_not_meets (hop : op.Arithmetic f) (hmul : op ≠ .mul) (grown : base.Grows s)
    (h : ¬ base.Meets v w) (hv : Within base depth v) (hw : Within base depth w) :
    Errs (binaryTo p depth op v w) ⟨base.mismatch op v w, p⟩ s := by
  by_cases hoperands : Operands op v w
  case neg =>
    have hmismatch : base.mismatch op v w = .operands op v.typeTag w.typeTag := by
      unfold Store.mismatch
      split
      · exact absurd .vectors hoperands
      · rfl
    rw [binaryTo_refused hop hoperands, hmismatch]
    exact ⟨s, .refl _ s, rfl⟩
  cases hoperands with
  | numbers => exact absurd trivial h
  | scaling hscaling | scaled hscaling => exact absurd hscaling hmul
  | @vectors a b =>
    cases depth with
    | zero => exact hv.2.elim
    | succ depth =>
      exact ⟨s, .refl _ s, binaryTo_lengths grown hv.1 hw.1 hop h⟩

section Elementwise

variable (sound : base.Sound) (hop : op.Arithmetic f) (hmul : op ≠ .mul)

include sound hop hmul

/-- An operator on values of one shape makes what the shape says: by induction on the depth. -/
theorem yields_combined (grown : base.Grows s) (h : base.SameShape v w) (hv : Within base depth v)
    (hw : Within base depth w) :
    Yields (binaryTo p depth op v w) (fun t => base.Combined t f v w) s := by
  -- On the shape. Each element is come to in a store that has grown by the results before it.
  induction h generalizing depth s with
  | numbers =>
    rw [binaryTo_numbers hop]
    exact ⟨_, s, .refl _ s, rfl, .numbers⟩
  | @vectors a b hlength _ ih =>
    cases depth with
    | zero => exact hv.2.elim
    | succ depth =>
      refine .congr (binaryTo_elementwise grown hv.1 hw.1 hop hmul hlength) ?_
      refine (Yields.mapM (R := fun t pair u => base.Combined t f pair.1 pair.2 u)
        (fun grown h => by exact h.grows grown) fun pair hpair t grown' => ?_).bind
          fun {us t} grown' hus => ?_
      · exact ih pair hpair (grown.trans grown') (hv.of_mem sound (List.of_mem_zip hpair).1)
          (hw.of_mem sound (List.of_mem_zip hpair).2)
      · exact ⟨_, _, t.grows_addVector _, rfl,
          .new (grown.trans grown').size_vectors hlength hus⟩

/-- On values of different shapes it fails at their first mismatch: by induction on the depth. -/
theorem errs_mismatch (hs : base.Acyclic) (grown : base.Grows s)
    (h : base.FirstMismatch v w place x y) (hv : Within base depth v) (hw : Within base depth w) :
    Errs (binaryTo p depth op v w) ⟨base.mismatch op x y, p⟩ s := by
  -- On the way to the place. The elements before the one that it leads into have one shape each, so
  -- that they yield something, and the error is that of this element.
  induction place generalizing v w depth s with
  | nil =>
    cases h.here
    exact errs_of_not_meets hop hmul grown h.differ hv hw
  | cons i place ih =>
    obtain ⟨a, b, pair, rfl, rfl, hlength, hpair, hinner, hbefore⟩ := h.inside hs sound
    cases depth with
    | zero => exact hv.2.elim
    | succ depth =>
      have hwithin {j : Nat} {pair : Value × Value}
          (h : ((base.items a).zip (base.items b))[j]? = some pair) :
          Within base depth pair.1 ∧ Within base depth pair.2 :=
        have hmem := List.of_mem_zip (List.mem_of_getElem? h)
        ⟨hv.of_mem sound hmem.1, hw.of_mem sound hmem.2⟩
      refine .congr (binaryTo_elementwise grown hv.1 hw.1 hop hmul hlength) ?_
      refine (Errs.mapM hpair (fun j hj other hother t grown' => ?_) fun grown' => ?_).bind
      · obtain ⟨u, t', later, hu, -⟩ := yields_combined (p := p) sound hop hmul
          (grown.trans grown') (hbefore j hj hother) (hwithin hother).1 (hwithin hother).2
        exact ⟨u, t', later, hu, trivial⟩
      · exact ih (grown.trans grown') hinner (hwithin hpair).1 (hwithin hpair).2

end Elementwise

/-- **Sums and differences follow the shape.** In every store that is sound and without a vector that
holds itself, a sum or a difference has a result if and only if its operands have one shape; the
result has that shape, of new vectors, with what the operation makes of the numbers in each place.
Otherwise there is a first place at which the shapes differ. Two vectors of different length there
are an invalid argument, whatever they hold, and all else is a type mismatch. Both ways, nothing that
was there changes. -/
theorem sums_and_differences_follow_shapes {s : Store} (sound : s.Sound) (hs : s.Acyclic)
    {op : BinaryOp} {f : Number → Number → Number} (hop : op.Arithmetic f) (hmul : op ≠ .mul)
    {v w : Value} (hv : v.Fits s) (hw : w.Fits s) (p : Position) :
    ((∃ u t, binary op v w p s = .ok u t) ↔ s.SameShape v w) ∧
    (∀ {u t}, binary op v w p s = .ok u t → s.Grows t ∧ s.Combined t f v w u) ∧
    (¬ s.SameShape v w → ∃ place x y, s.FirstMismatch v w place x y) ∧
    ∀ {place x y}, s.FirstMismatch v w place x y → ∃ t,
      binary op v w p s = .error (.fault ⟨s.mismatch op x y, p⟩) t ∧ s.Grows t ∧
      (s.mismatch op x y).kind =
        if x.typeTag = .vector ∧ y.typeTag = .vector then .invalidArgument else .typeMismatch := by
  have hv : Within s s.depth v := ⟨hv, hs.nestedTo sound v⟩
  have hw : Within s s.depth w := ⟨hw, hs.nestedTo sound w⟩
  have hyields (h : s.SameShape v w) : Yields (binary op v w p) (fun t => s.Combined t f v w) s :=
    .congr binary_apply (yields_combined sound hop hmul (.refl _ s) h hv hw)
  have herrs {place x y} (h : s.FirstMismatch v w place x y) :
      Errs (binary op v w p) ⟨s.mismatch op x y, p⟩ s :=
    .congr binary_apply (errs_mismatch sound hop hmul hs (.refl _ s) h hv hw)
  have hshape {u t} (hrun : binary op v w p s = .ok u t) : s.SameShape v w := by
    obtain hsame | ⟨place, x, y, hmismatch⟩ := hs.sameShape_or_mismatch sound v w
    · exact hsame
    · obtain ⟨t', -, herror⟩ := herrs hmismatch
      cases hrun.symm.trans herror
  refine ⟨⟨fun ⟨u, t, hrun⟩ => hshape hrun, fun h => ?_⟩, fun {u t} hrun => ?_, fun h => ?_,
    fun {place x y} h => ?_⟩
  · obtain ⟨u, t, -, hrun, -⟩ := hyields h
    exact ⟨u, t, hrun⟩
  · obtain ⟨u', t', grown, hrun', hcombined⟩ := hyields (hshape hrun)
    cases hrun.symm.trans hrun'
    exact ⟨grown, hcombined⟩
  · exact (hs.sameShape_or_mismatch sound v w).resolve_left h
  · obtain ⟨t, grown, herror⟩ := herrs h
    exact ⟨t, herror, grown, s.kind_mismatch op x y⟩

/-- The first elements differ in length, which is an invalid argument; that the second ones differ in
type comes too late. -/
theorem sums_and_differences_follow_shapes_nested :
    let s := Store.initial.2.afterSources Store.outermost ["a = [[2, 3], 1]", "b = [[4], true]"]
    let v : Value := .vector ⟨1⟩
    let w : Value := .vector ⟨3⟩
    s.Sound ∧ s.Acyclic ∧ BinaryOp.sub.Arithmetic Number.sub ∧ v.Fits s ∧ w.Fits s ∧
      s.FirstMismatch v w [0] (.vector ⟨0⟩) (.vector ⟨2⟩) ∧
      ∃ t, binary .sub v w .start s = .error (.fault ⟨.lengths .sub 2 1, .start⟩) t ∧ s.Grows t := by
  intro s v w
  have hreached : s.Reached := Store.reached_afterSources _
  obtain ⟨hv, hw, hleft, hright, hsame, hfirst⟩ : (⟨1⟩ : VectorId).index < s.vectors.size ∧
      (⟨3⟩ : VectorId).index < s.vectors.size ∧
      (s.items ⟨0⟩).length = 2 ∧ (s.items ⟨2⟩).length = 1 ∧
      (s.items ⟨1⟩).length = (s.items ⟨3⟩).length ∧
      ((s.items ⟨1⟩).zip (s.items ⟨3⟩))[0]?.any (fun pair =>
        s.equalTo Number.same 0 pair.1 (.vector ⟨0⟩) &&
          s.equalTo Number.same 0 pair.2 (.vector ⟨2⟩)) = true := by
    decide +kernel
  have hfits : v.Fits s := hv
  have hfits' : w.Fits s := hw
  have hdiffer : ¬ s.Meets (.vector ⟨0⟩) (.vector ⟨2⟩) := by
    rw [Store.Meets, hleft, hright]
    decide
  -- Without a look at their elements, vectors are equal only if they are one vector.
  have hvector {x : Value} {a : VectorId} (h : s.equalTo Number.same 0 x (.vector a) = true) :
      x = .vector a := by
    cases x with
    | vector b => exact congrArg Value.vector (eq_of_beq h)
    | _ => cases h
  have hmismatch : s.FirstMismatch v w [0] (.vector ⟨0⟩) (.vector ⟨2⟩) := by
    obtain ⟨⟨x, y⟩, hpair, hequal⟩ := (Option.any_eq_true _ _).mp hfirst
    obtain ⟨hx, hy⟩ := Bool.and_eq_true_iff.mp hequal
    obtain rfl := hvector hx
    obtain rfl := hvector hy
    exact .element hsame hpair (fun j hj => absurd hj (Nat.not_lt_zero j)) (.root hdiffer)
  obtain ⟨-, -, -, herrs⟩ := sums_and_differences_follow_shapes hreached.sound hreached.acyclic
    .difference nofun hfits hfits' .start
  obtain ⟨t, hrun, grown, -⟩ := herrs hmismatch
  rw [Store.mismatch, hleft, hright] at hrun
  exact ⟨hreached.sound, hreached.acyclic, .difference, hfits, hfits', hmismatch, t, hrun, grown⟩

end Action

end Abacus
