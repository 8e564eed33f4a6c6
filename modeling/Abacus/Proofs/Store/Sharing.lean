import Abacus.Proofs.Real.Order
import Abacus.Proofs.Store.Depth

/-!
# Equality and shared vectors

Two values may share vectors, at any depth. Equality does not look into a vector that stands at one
place in both: it takes the vector to be equal to itself. Equality element by element
(`Store.elementwise`) looks, and comes to a number that stands opposite itself. All values but
vectors are equal to themselves, except numbers of which a part is no number.

**The law** (`Store.equal_elementwise`): what is equal element by element is equal. The two
equalities give one answer on values that share no vector with such a number at one place; values
that do share one are never equal element by element.
-/

namespace Abacus

/-- No part of the number is the real that is no number. -/
def Number.Defined : Number → Prop
  | .integer _ => True
  | .real x => x.isNaN = false
  | .complex z => z.re.isNaN = false ∧ z.im.isNaN = false

/-- A number is equal to itself unless a part of it is no number. -/
theorem Number.equals_self_iff {n : Number} : n.equals n = true ↔ n.Defined := by
  cases n with
  | integer n => exact ⟨fun _ => trivial, fun _ => beq_self_eq_true n⟩
  | real x => exact Real.beq_self_iff_isNaN
  | complex z =>
    exact (Bool.and_eq_true_iff ..).trans
      (and_congr Real.beq_self_iff_isNaN Real.beq_self_iff_isNaN)

instance : DecidablePred Number.Defined
  | .integer _ => inferInstanceAs (Decidable True)
  | .real _ => inferInstanceAs (Decidable (_ = _))
  | .complex _ => inferInstanceAs (Decidable (_ ∧ _))

/-- The value is equal to itself; a vector is in any case. -/
def Value.Regular : Value → Prop
  | .number n => n.Defined
  | _ => True

instance : DecidablePred Value.Regular
  | .number n => inferInstanceAs (Decidable n.Defined)
  | .boolean _ | .vector _ | .sequence _ | .function _ | .native _ | .type _ | .error _ =>
    inferInstanceAs (Decidable True)

namespace Store

/-! ## Equality element by element -/

/-- Equality that looks into every vector, down to a depth. -/
def elementwiseTo (s : Store) : Nat → Value → Value → Bool
  | _, .number a, .number b => a.equals b
  | 0, .vector _, .vector _ => false
  | depth + 1, .vector a, .vector b =>
    (s.items a).length == (s.items b).length &&
      ((s.items a).zip (s.items b)).all fun pair => s.elementwiseTo depth pair.1 pair.2
  | _, a, b => sameAtom a b

/-- Equality that looks into every vector. -/
def elementwise (s : Store) (v w : Value) : Bool := s.elementwiseTo s.depth v w

variable {s : Store} {v w : Value}

/-- Equality element by element is the same at every depth that is deep enough. -/
theorem elementwiseTo_eq {depth depth' : Nat} (h : s.NestedTo depth v) (hle : depth ≤ depth') :
    s.elementwiseTo depth v = s.elementwiseTo depth' v := by
  refine h.settled (fun {v} hv depth depth' => ?_) (fun {id depth depth'} hitems => ?_) hle
  · funext w
    cases v with
    | vector id => exact absurd rfl (hv id)
    | _ => cases depth <;> cases depth' <;> cases w <;> rfl
  · funext w
    cases w with
    | vector other => rw [elementwiseTo, elementwiseTo, all_zip_congr hitems]
    | _ => rfl

/-- Values that are not both vectors are compared without a look at the store. -/
theorem vectors_or_equal_eq (s : Store) (v w : Value) :
    (∃ a b : VectorId, v = .vector a ∧ w = .vector b) ∨ s.equal v w = s.elementwise v w := by
  cases v with
  | vector a =>
    cases w with
    | vector b => exact .inl ⟨a, b, rfl, rfl⟩
    | _ => exact .inr rfl
  | _ => cases w <;> exact .inr rfl

/-- A regular value is equal to itself. -/
theorem equal_self (h : v.Regular) : s.equal v v = true := by
  cases v with
  | number n => exact Number.equals_self_iff.mpr h
  | vector id => simp [equal, depth, equalTo]
  | _ => exact beq_self_eq_true _

/-- What is equal to itself element by element is regular. -/
theorem regular_of_elementwise (h : s.elementwise v v = true) : v.Regular := by
  cases v with
  | number n => exact Number.equals_self_iff.mp h
  | _ => trivial

/-! ## Places -/

/-- The second pair of values stands at one place in the first one, a pair of vectors. -/
def Opposite (s : Store) (p q : Value × Value) : Prop :=
  ∃ a b : VectorId, p = (.vector a, .vector b) ∧ q ∈ (s.items a).zip (s.items b)

/-- The vector stands in both values, at one place. -/
def Shares (s : Store) (v w : Value) (id : VectorId) : Prop :=
  Relation.ReflTransGen s.Opposite (v, w) (.vector id, .vector id)

/-- The elements of the vector equal themselves. -/
def Regular (s : Store) (id : VectorId) : Prop := ∀ v ∈ s.items id, v.Regular

/-- What elements share at one place, their vectors share. -/
theorem Shares.of_opposite {p : Value × Value} {a b id : VectorId}
    (hp : p ∈ (s.items a).zip (s.items b)) (h : s.Shares p.1 p.2 id) :
    s.Shares (.vector a) (.vector b) id :=
  .head ⟨a, b, rfl, hp⟩ h

/-- Where all elements of all vectors are regular, all vectors are. -/
theorem regular_of_vectors (h : ∀ items ∈ s.vectors, ∀ v ∈ items, v.Regular) (id : VectorId) :
    s.Regular id := by
  intro v hv
  obtain ⟨items, hitems, hmem⟩ := exists_of_mem_items hv
  exact h items hitems v hmem

/-- An element stands opposite itself in a vector that stands opposite itself. -/
theorem mem_zip_self {xs : List Value} (h : v ∈ xs) : (v, v) ∈ xs.zip xs := by
  rw [List.zip, List.zipWith_self]
  exact List.mem_map_of_mem h

section Acyclic

variable (hs : s.Acyclic) (sound : s.Sound)

include hs sound

/-- Vectors are equal element by element if they have one length and their elements are. -/
theorem Acyclic.elementwise_vector (a b : VectorId) :
    s.elementwise (.vector a) (.vector b) = ((s.items a).length == (s.items b).length &&
      ((s.items a).zip (s.items b)).all fun pair => s.elementwise pair.1 pair.2) := by
  have hitems : ∀ v ∈ s.items a, s.elementwiseTo s.vectors.size v = s.elementwise v :=
    fun v hv => elementwiseTo_eq (hs.nestedTo_size sound hv) (Nat.le_succ _)
  rw [elementwise, depth, elementwiseTo, all_zip_congr hitems]

/-- The same as an equivalence. -/
theorem Acyclic.elementwise_vector_iff {a b : VectorId} :
    s.elementwise (.vector a) (.vector b) = true ↔ (s.items a).length = (s.items b).length ∧
      ∀ pair ∈ (s.items a).zip (s.items b), s.elementwise pair.1 pair.2 = true := by
  rw [hs.elementwise_vector sound, Bool.and_eq_true_iff, beq_iff_eq, List.all_eq_true]

/-- Vectors are equal if they are one vector, or have one length and equal elements. -/
theorem Acyclic.equal_vector_iff {a b : VectorId} :
    s.equal (.vector a) (.vector b) = true ↔ a = b ∨ (s.items a).length = (s.items b).length ∧
      ∀ pair ∈ (s.items a).zip (s.items b), s.equal pair.1 pair.2 = true := by
  rw [hs.equal_vector sound, Bool.or_eq_true_iff, Bool.and_eq_true_iff, beq_iff_eq, beq_iff_eq,
    List.all_eq_true]

/-- The elements of equal vectors are equal, also if the vectors are one and nobody has looked. -/
theorem Acyclic.items_equal {a b : VectorId} (hregular : a = b → s.Regular a)
    (h : s.equal (.vector a) (.vector b) = true) :
    (s.items a).length = (s.items b).length ∧
      ∀ pair ∈ (s.items a).zip (s.items b), s.equal pair.1 pair.2 = true := by
  rcases (hs.equal_vector_iff sound).mp h with rfl | hitems
  · refine ⟨rfl, fun pair hpair => ?_⟩
    rw [List.zip, List.zipWith_self, List.mem_map] at hpair
    obtain ⟨v, hv, rfl⟩ := hpair
    exact equal_self (hregular rfl v hv)
  · exact hitems

/-- What is equal element by element is equal. -/
theorem Acyclic.equal_of_elementwise (h : s.elementwise v w = true) : s.equal v w = true := by
  induction v using (hs.wellFounded_element sound).induction generalizing w with
  | _ v ih =>
    rcases s.vectors_or_equal_eq v w with ⟨a, b, rfl, rfl⟩ | heq
    · obtain ⟨hlength, hpairs⟩ := (hs.elementwise_vector_iff sound).mp h
      refine (hs.equal_vector_iff sound).mpr (.inr ⟨hlength, fun pair hpair => ?_⟩)
      exact ih pair.1 ⟨a, rfl, (List.of_mem_zip hpair).1⟩ (hpairs pair hpair)
    · rw [heq, h]

/-- What is equal is equal element by element, if the numbers in the vectors that nobody looks into
equal themselves. -/
theorem Acyclic.elementwise_of_equal (hregular : ∀ id, s.Shares v w id → s.Regular id)
    (h : s.equal v w = true) : s.elementwise v w = true := by
  induction v using (hs.wellFounded_element sound).induction generalizing w with
  | _ v ih =>
    rcases s.vectors_or_equal_eq v w with ⟨a, b, rfl, rfl⟩ | heq
    · obtain ⟨hlength, hpairs⟩ := hs.items_equal sound
        (fun hab => hregular a (hab ▸ Relation.ReflTransGen.refl)) h
      refine (hs.elementwise_vector_iff sound).mpr ⟨hlength, fun pair hpair => ?_⟩
      exact ih pair.1 ⟨a, rfl, (List.of_mem_zip hpair).1⟩
        (fun id hid => hregular id (.of_opposite hpair hid)) (hpairs pair hpair)
    · rw [← heq, h]

/-- Whoever looks into every vector comes to every place. -/
theorem Acyclic.elementwise_opposite {p q : Value × Value}
    (hplace : Relation.ReflTransGen s.Opposite p q) (h : s.elementwise p.1 p.2 = true) :
    s.elementwise q.1 q.2 = true := by
  induction hplace with
  | refl => exact h
  | tail _ hstep ih =>
    obtain ⟨a, b, rfl, hq⟩ := hstep
    exact ((hs.elementwise_vector_iff sound).mp ih).2 _ hq

/-- What is equal element by element shares regular vectors only. -/
theorem Acyclic.regular_of_shares (h : s.elementwise v w = true) {id : VectorId}
    (hshares : s.Shares v w id) : s.Regular id := by
  intro v hv
  have hvector : s.elementwise (.vector id) (.vector id) = true :=
    hs.elementwise_opposite sound hshares h
  exact regular_of_elementwise (((hs.elementwise_vector_iff sound).mp hvector).2 _ (mem_zip_self hv))

end Acyclic

/-! ## The law -/

/-- **Equality is element by element, but for numbers that do not equal themselves.** In a reached
store, what is equal element by element is equal. If the numbers in the vectors that stand at one
place in both values equal themselves, equality is equality element by element; otherwise the values
are not equal element by element. -/
theorem equal_elementwise (hs : s.Reached) (v w : Value) :
    (∀ a b : VectorId, s.elementwise (.vector a) (.vector b) =
      ((s.items a).length == (s.items b).length &&
        ((s.items a).zip (s.items b)).all fun pair => s.elementwise pair.1 pair.2)) ∧
    (s.elementwise v w = true → s.equal v w = true) ∧
    ((∀ id, s.Shares v w id → s.Regular id) → s.equal v w = s.elementwise v w) ∧
    ((∃ id, s.Shares v w id ∧ ¬ s.Regular id) → s.elementwise v w = false) := by
  have hacyclic := hs.acyclic
  have hsound := hs.sound
  refine ⟨hacyclic.elementwise_vector hsound, hacyclic.equal_of_elementwise hsound,
    fun hregular => ?_, fun ⟨id, hshares, hirregular⟩ => ?_⟩
  · exact Bool.eq_iff_iff.mpr ⟨hacyclic.elementwise_of_equal hsound hregular,
      hacyclic.equal_of_elementwise hsound⟩
  · exact Bool.eq_false_iff.mpr fun h =>
      hirregular (hacyclic.regular_of_shares hsound h hshares)

/-- Two vectors hold a third one twice, at the same places. -/
theorem equal_elementwise_nested :
    let s := initial.2.afterSources outermost
      ["a = [1, 2.5]", "b = [a, [inf, a]]", "c = [a, [inf, a]]"]
    let b : Value := .vector ⟨2⟩
    let c : Value := .vector ⟨4⟩
    s.Reached ∧ (∀ id, s.Shares b c id → s.Regular id) ∧
      s.text b = "[[1, 2.5], [inf, [1, 2.5]]]" ∧ s.reaches b ⟨0⟩ ∧ s.reaches c ⟨0⟩ ∧
      s.equal b c = true ∧ s.elementwise b c = true := by
  intro s b c
  have hreached : s.Reached := reached_afterSources _
  obtain ⟨hvectors, htext, hb, hc, hequal⟩ : (∀ items ∈ s.vectors, ∀ v ∈ items, v.Regular) ∧
      s.text b = "[[1, 2.5], [inf, [1, 2.5]]]" ∧ s.reaches b ⟨0⟩ ∧ s.reaches c ⟨0⟩ ∧
      s.equal b c = true := by decide +kernel
  have hregular : ∀ id, s.Shares b c id → s.Regular id := fun id _ => regular_of_vectors hvectors id
  have hsame := (equal_elementwise hreached b c).2.2.1 hregular
  exact ⟨hreached, hregular, htext, hb, hc, hequal, hsame ▸ hequal⟩

/-- A vector is equal to itself, and its only element is not. -/
theorem shared_notANumber_equal :
    let s := initial.2.afterSources outermost ["n = inf - inf", "v = [n]"]
    let v : Value := .vector ⟨0⟩
    s.Reached ∧ s.equal v v = true ∧ s.elementwise v v = false := by
  intro s v
  have hequal : s.equal v v = true ∧ s.elementwise v v = false := by decide +kernel
  exact ⟨reached_afterSources _, hequal⟩

end Store

end Abacus
