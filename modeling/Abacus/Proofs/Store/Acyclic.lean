import Abacus.Proofs.Store.Reached
import Mathlib.Data.Fintype.Card

/-!
# Vectors do not hold themselves

A vector is written to in place, through any name that it has, so a program might make a vector hold
one that holds the first. Only the test before each write keeps it from that, and the test follows
vectors itself: that it comes to an end, and that what it says is right, rests on what it protects.

Where no vector holds itself, a vector holds more vectors than each of those that it holds; so a way
down from a value is never longer than there are vectors.

**The laws.** No step makes a vector hold itself (`Store.Step.acyclic`), and vectors keep the length
with which they were made (`Store.Path.size_vector`).
-/

namespace Abacus

namespace Store

/-- A slot of the first vector holds the second one. -/
def Carries (s : Store) (a b : VectorId) : Prop := Value.vector b ∈ s.items a

/-- No vector holds itself, at any depth. -/
def Acyclic (s : Store) : Prop := ∀ id : VectorId, ¬ Relation.TransGen s.Carries id id

/-- The value is an element of the other one. -/
def Element (s : Store) (v w : Value) : Prop := ∃ id, w = .vector id ∧ v ∈ s.items id

/-- Whoever follows the vectors in a value down to a depth finds none there. -/
def NestedTo (s : Store) : Nat → Value → Prop
  | 0, .vector _ => False
  | depth + 1, .vector id => ∀ v ∈ s.items id, s.NestedTo depth v
  | _, _ => True

variable {free : ScopeId → Prop} {s s' : Store}

/-- A vector that the store has keeps its elements while the store grows. -/
theorem items_grows (grows : s.Grows s') {id : VectorId} (hid : id.index < s.vectors.size) :
    s'.items id = s.items id := by
  rw [Store.items, Store.items, grows.vector hid]

/-- A new vector is one that the store has then. -/
theorem index_addVector_lt (items : Array Value) :
    (s.addVector items).1.index < (s.addVector items).2.vectors.size := by
  simp [addVector]

/-- A new vector has the elements it was made of. -/
theorem items_addVector_new (items : List Value) :
    (s.addVector items.toArray).2.items (s.addVector items.toArray).1 = items := by
  rw [Store.items, vector_addVector_new]

/-- What is an element of some name's vector is one of a vector that the store has. -/
theorem exists_of_mem_items {id : VectorId} {v : Value} (h : v ∈ s.items id) :
    ∃ items ∈ s.vectors, v ∈ items := by
  rw [items, vector, Array.getD_eq_getD_getElem?, Array.mem_toList_iff] at h
  cases hitems : s.vectors[id.index]? with
  | none => simp [hitems] at h
  | some items => exact ⟨items, Array.mem_of_getElem? hitems, by simpa [hitems] using h⟩

/-! ## Depth -/

/-- The elements of a vector are what the store has. -/
theorem Sound.fits_of_mem_items (sound : s.Sound) {id : VectorId} {v : Value} (h : v ∈ s.items id) :
    v.Fits s :=
  sound.elements (Array.mem_toList_iff.mp h)

section Weight

open Classical in
/-- How many vectors a vector holds, at any depth. -/
noncomputable def weight (s : Store) (id : VectorId) : Nat :=
  ((Finset.range s.vectors.size).filter fun i => Relation.TransGen s.Carries id ⟨i⟩).card

/-- No vector weighs more than there are vectors. -/
theorem weight_le (s : Store) (id : VectorId) : s.weight id ≤ s.vectors.size := by
  classical
  rw [weight]
  exact (Finset.card_filter_le _ _).trans (Finset.card_range _).le

/-- A vector holds more vectors than one that it holds, if that does not hold itself. -/
theorem weight_lt {a b : VectorId} (h : s.Carries a b) (hb : b.index < s.vectors.size)
    (hno : ¬ Relation.TransGen s.Carries b b) : s.weight b < s.weight a := by
  classical
  refine Finset.card_lt_card (Finset.ssubset_iff_subset_ne.mpr ⟨fun i hi => ?_, fun heq => ?_⟩)
  · obtain ⟨hlt, hreach⟩ := Finset.mem_filter.mp hi
    exact Finset.mem_filter.mpr ⟨hlt, .head h hreach⟩
  · have hmem : b.index ∈ (Finset.range s.vectors.size).filter
        fun i => Relation.TransGen s.Carries a ⟨i⟩ :=
      Finset.mem_filter.mpr ⟨Finset.mem_range.mpr hb, .single h⟩
    rw [← heq] at hmem
    exact hno (Finset.mem_filter.mp hmem).2

/-- A vector weighs more than the vectors it holds. -/
theorem Acyclic.weight_lt (hs : s.Acyclic) (sound : s.Sound) {a b : VectorId} (h : s.Carries a b) :
    s.weight b < s.weight a :=
  Store.weight_lt h (sound.fits_of_mem_items h) (hs b)

end Weight

/-- Elements are less than what they are elements of. -/
theorem Acyclic.wellFounded_element (hs : s.Acyclic) (sound : s.Sound) : WellFounded s.Element := by
  have hvector : ∀ (weight : Nat) (id : VectorId), s.weight id = weight →
      Acc s.Element (.vector id) := by
    intro weight
    induction weight using Nat.strongRecOn with
    | ind weight ih =>
      rintro id rfl
      refine .intro _ fun v hv => ?_
      obtain ⟨other, heq, hmem⟩ := hv
      cases heq
      cases v with
      | vector inner => exact ih _ (hs.weight_lt sound hmem) inner rfl
      | _ => exact .intro _ fun _ ⟨_, heq, _⟩ => nomatch heq
  refine ⟨fun v => ?_⟩
  cases v with
  | vector id => exact hvector _ id rfl
  | _ => exact .intro _ fun _ ⟨_, heq, _⟩ => nomatch heq

/-- None of the vectors in the value holds itself. -/
def AcyclicFrom (s : Store) (v : Value) : Prop :=
  ∀ a b, v = .vector a → Relation.ReflTransGen s.Carries a b → ¬ Relation.TransGen s.Carries b b

/-- Where no vector holds itself, none does that a value leads to. -/
theorem Acyclic.acyclicFrom (hs : s.Acyclic) (v : Value) : s.AcyclicFrom v := by
  intro a b _ _
  exact hs b

/-- What leads to no cycle holds nothing that leads to one. -/
theorem AcyclicFrom.of_mem {id : VectorId} {v : Value} (h : s.AcyclicFrom (.vector id))
    (hv : v ∈ s.items id) : s.AcyclicFrom v := by
  rintro a b rfl hway
  exact h id b rfl (.head hv hway)

/-- **Where no vector holds itself, no way down is longer than there are vectors.** -/
theorem AcyclicFrom.nestedTo {v : Value} (h : s.AcyclicFrom v) (sound : s.Sound) :
    s.NestedTo s.depth v := by
  have hvector : ∀ (depth : Nat) (id : VectorId), s.AcyclicFrom (.vector id) →
      s.weight id < depth → s.NestedTo depth (.vector id) := by
    intro depth
    induction depth with
    | zero => exact fun _ _ hlt => absurd hlt (Nat.not_lt_zero _)
    | succ depth ih =>
      intro id hid hlt v hv
      cases v with
      | vector inner =>
        have hinner := hid.of_mem hv
        have hless : s.weight inner < s.weight id :=
          weight_lt hv (sound.fits_of_mem_items hv) (hinner inner inner rfl .refl)
        exact ih inner hinner (Nat.lt_of_lt_of_le hless (Nat.le_of_lt_succ hlt))
      | _ => cases depth <;> trivial
  cases v with
  | vector id => exact hvector _ id h (Nat.lt_succ_of_le (s.weight_le id))
  | _ => trivial

/-- Every value ends above the depth that the store gives. -/
theorem Acyclic.nestedTo (hs : s.Acyclic) (sound : s.Sound) (v : Value) : s.NestedTo s.depth v :=
  (hs.acyclicFrom v).nestedTo sound

/-! ## Reachability -/

/-- The test looks through every vector on the way. -/
theorem reachesTo_of_carries {target : VectorId} {depth : Nat} {id : VectorId}
    (hnested : s.NestedTo depth (.vector id)) (h : Relation.ReflTransGen s.Carries id target) :
    s.reachesTo target depth (.vector id) = true := by
  induction h using Relation.ReflTransGen.head_induction_on generalizing depth with
  | refl => cases depth <;> simp [reachesTo]
  | head hfirst hrest ih =>
    cases depth with
    | zero => exact hnested.elim
    | succ depth =>
      simp only [reachesTo, Bool.or_eq_true, List.any_eq_true]
      exact .inr ⟨_, hfirst, ih (hnested _ hfirst)⟩

/-- What is found to be reached is reached along the vectors in between. -/
theorem carries_of_reachesTo {target : VectorId} {depth : Nat} {v : Value}
    (h : s.reachesTo target depth v = true) :
    ∃ id, v = .vector id ∧ Relation.ReflTransGen s.Carries id target := by
  induction depth generalizing v with
  | zero =>
    cases v with
    | vector id => exact ⟨id, rfl, by rw [beq_iff_eq.mp h]⟩
    | _ => cases h
  | succ depth ih =>
    cases v with
    | vector id =>
      refine ⟨id, rfl, ?_⟩
      simp only [reachesTo, Bool.or_eq_true, List.any_eq_true, beq_iff_eq] at h
      rcases h with rfl | ⟨v, hv, hreach⟩
      · exact .refl
      · obtain ⟨inner, rfl, hinner⟩ := ih hreach
        exact .head hv hinner
    | _ => cases h

/-- **The test finds a vector exactly where it is.** -/
theorem Acyclic.reaches_iff (hs : s.Acyclic) (sound : s.Sound) {v : Value} {target : VectorId} :
    s.reaches v target = true ↔ ∃ id, v = .vector id ∧ Relation.ReflTransGen s.Carries id target := by
  refine ⟨carries_of_reachesTo, ?_⟩
  rintro ⟨id, rfl, h⟩
  exact reachesTo_of_carries (hs.nestedTo sound _) h

/-! ## Steps -/

/-- A store that carries no more than one without cycles has none. -/
theorem Acyclic.of_carries (hs : s.Acyclic) (h : ∀ a b, s'.Carries a b → s.Carries a b) :
    s'.Acyclic :=
  fun id hcycle => hs id (Relation.TransGen.mono h _ _ hcycle)

/-- A way on which there may be one new link either has been there before, or leads to the new link
and goes on behind it. -/
theorem transGen_of_link {α : Type} {r r' : α → α → Prop} {a b : α}
    (h : ∀ x y, r' x y → r x y ∨ x = a ∧ y = b) {x y : α} (hway : Relation.TransGen r' x y) :
    Relation.TransGen r x y ∨ Relation.ReflTransGen r x a ∧ Relation.ReflTransGen r b y := by
  induction hway with
  | single hlink =>
    rcases h _ _ hlink with hold | ⟨rfl, rfl⟩
    · exact .inl (.single hold)
    · exact .inr ⟨.refl, .refl⟩
  | tail _ hlink ih =>
    rcases h _ _ hlink with hold | ⟨rfl, rfl⟩
    · rcases ih with hway | ⟨hto, hfrom⟩
      · exact .inl (hway.tail hold)
      · exact .inr ⟨hto, hfrom.tail hold⟩
    · rcases ih with hway | ⟨hto, -⟩
      · exact .inr ⟨hway.to_reflTransGen, .refl⟩
      · exact .inr ⟨hto, .refl⟩

/-- What a vector holds after a write it held before, or it is what was written. -/
theorem carries_of_setElement {id a b : VectorId} {index : Nat} {value : Value}
    (h : (s.setElement id index value).Carries a b) :
    s.Carries a b ∨ a = id ∧ value = .vector b := by
  simp only [Carries, items, vector, Store.setElement, Array.getD_eq_getD_getElem?,
    Array.getElem?_modify, Array.mem_toList_iff] at h ⊢
  by_cases hid : id.index = a.index
  · obtain rfl : a = id := by cases a; cases id; simp_all
    rw [if_pos rfl] at h
    cases hitems : s.vectors[a.index]? with
    | none => simp [hitems] at h
    | some items =>
      simp only [hitems, Option.map_some, Option.getD_some] at h ⊢
      rcases Array.mem_or_eq_of_mem_setIfInBounds h with hold | hnew
      · exact .inl hold
      · exact .inr ⟨trivial, hnew.symm⟩
  · rw [if_neg hid] at h
    exact .inl h

/-- The elements of a new vector were there before it, so nothing holds it. -/
theorem Acyclic.addVector (hs : s.Acyclic) (sound : s.Sound) {items : Array Value}
    (hitems : ∀ v ∈ items, v.Fits s) : (s.addVector items).2.Acyclic := by
  have hvector : ∀ {a b : VectorId}, (s.addVector items).2.Carries a b →
      b.index < s.vectors.size ∧ (a.index < s.vectors.size → s.Carries a b) := by
    intro a b h
    by_cases ha : a.index < s.vectors.size
    · rw [Carries, Store.items, vector_addVector_of_lt items ha] at h
      exact ⟨sound.fits_of_mem_items h, fun _ => h⟩
    · refine ⟨?_, fun hlt => absurd hlt ha⟩
      by_cases hnew : a.index = s.vectors.size
      · obtain rfl : a = (s.addVector items).1 := by cases a; simp_all [Store.addVector]
        rw [Carries, Store.items, vector_addVector_new] at h
        exact hitems _ (Array.mem_toList_iff.mp h)
      · have hnone : s.vectors.size < a.index := by omega
        simp [Carries, Store.items, vector, Store.addVector, Array.getElem?_push, hnone.ne',
          Array.getElem?_eq_none hnone.le] at h
  intro id hcycle
  -- on a way round each vector is held, and thus an old one
  have hold : ∀ {a b : VectorId}, Relation.TransGen (s.addVector items).2.Carries a b →
      b.index < s.vectors.size ∧ (a.index < s.vectors.size → Relation.TransGen s.Carries a b) := by
    intro a b hway
    induction hway with
    | single h => exact ⟨(hvector h).1, fun ha => .single ((hvector h).2 ha)⟩
    | tail _ h ih => exact ⟨(hvector h).1, fun ha => (ih.2 ha).tail ((hvector h).2 ih.1)⟩
  exact hs id ((hold hcycle).2 (hold hcycle).1)

/-- **No step makes a vector hold itself.** -/
theorem Step.acyclic (h : Step free s s') (sound : s.Sound) (hs : s.Acyclic) : s'.Acyclic := by
  cases h with
  | addVector hitems => exact hs.addVector sound hitems
  | @setElement id index value _ hreaches =>
    intro other hcycle
    by_cases hvector : ∃ w, value = .vector w
    · obtain ⟨w, rfl⟩ := hvector
      have hlink : ∀ a b, (s.setElement id index (.vector w)).Carries a b →
          s.Carries a b ∨ a = id ∧ b = w := by
        intro a b h
        rcases carries_of_setElement h with hold | ⟨rfl, hw⟩
        · exact .inl hold
        · cases hw
          exact .inr ⟨rfl, rfl⟩
      rcases transGen_of_link hlink hcycle with hold | ⟨hto, hfrom⟩
      · exact hs other hold
      · have hreach : s.reaches (.vector w) id = true :=
          (hs.reaches_iff sound).mpr ⟨w, rfl, hfrom.trans hto⟩
        rw [hreaches] at hreach
        cases hreach
    · refine hs.of_carries (fun a b h => ?_) other hcycle
      rcases carries_of_setElement h with hold | ⟨-, hw⟩
      · exact hold
      · exact absurd ⟨b, hw⟩ hvector
  | _ => exact hs

/-- No step changes the length of a vector that is there. -/
theorem Step.size_vector (h : Step free s s') {id : VectorId} (hid : id.index < s.vectors.size) :
    (s'.vector id).size = (s.vector id).size := by
  cases h with
  | addVector => rw [vector_addVector_of_lt _ hid]
  | @setElement other index value =>
    simp only [vector, Store.setElement, Array.getD_eq_getD_getElem?, Array.getElem?_modify,
      Array.getElem?_eq_getElem hid]
    split <;> simp
  | _ => rfl

/-- **Vectors keep the length with which they were made.** -/
theorem Path.size_vector (h : Path free s s') {id : VectorId} (hid : id.index < s.vectors.size) :
    (s'.vector id).size = (s.vector id).size := by
  induction h with
  | refl => rfl
  | tail hpath hstep ih =>
    rw [hstep.size_vector (Nat.lt_of_lt_of_le hid (Path.grown hpath).vectors), ih]

/-- No program makes a vector hold itself. -/
theorem Reached.acyclic (h : s.Reached) : s.Acyclic := by
  induction h with
  | refl =>
    intro id hcycle
    obtain ⟨other, hother, -⟩ := Relation.TransGen.head'_iff.mp hcycle
    simp [Carries, items, vector, initial, empty, addScope] at hother
  | tail hpath hstep ih => exact hstep.acyclic (Reached.sound hpath) ih

end Store

end Abacus
