import Abacus.Proofs.Number.Commutation
import Abacus.Proofs.Store.Sharing
import Mathlib.Data.List.Zip

/-!
# The stored and the language's equality

Values are compared in two ways. As they are stored (`Store.same`), numbers must be of one kind to be
the same; as the language compares them (`Store.equal`), two numbers meet at the higher of their
kinds first. Both ways take a vector to be equal to itself without a look at its elements, and else
go through the elements of two vectors in step.

**The law** (`Store.same_within_equal`): what is the same is equal, and what is equal is the same if
the numbers that stand at one place are of one kind; and the language's equality holds either way
round. Numbers that do not equal themselves, and vectors that several others hold, are no exception.
-/

namespace Abacus

/-- Two numbers are the same if they are of one kind and equal. -/
theorem Number.same_iff (m n : Number) :
    m.same n = true ↔ m.kind = n.kind ∧ m.equals n = true := by
  cases m <;> cases n <;>
    simp [Number.same, Number.kind, Number.equals, Number.meet, Number.toComplex, Number.realPart]

/-- The value is no number of another kind. -/
def Value.OfKind (kind : NumberKind) : Value → Prop
  | .number n => n.kind = kind
  | _ => True

instance (kind : NumberKind) : DecidablePred (Value.OfKind kind)
  | .number n => inferInstanceAs (Decidable (n.kind = kind))
  | .boolean _ | .vector _ | .sequence _ | .function _ | .native _ | .type _ | .error _ =>
    inferInstanceAs (Decidable True)

namespace Store

variable {s : Store} {v w : Value}

/-! ## Two comparisons of numbers in step -/

/-- Values that are equal by one comparison of numbers are equal by another one, if all numbers at
one place are. -/
theorem equalTo_imp {f g : Number → Number → Bool} {depth : Nat}
    (hnumbers : ∀ m n, Relation.ReflTransGen s.Opposite (v, w) (.number m, .number n) →
      f m n = true → g m n = true)
    (h : s.equalTo f depth v w = true) : s.equalTo g depth v w = true := by
  induction depth generalizing v w with
  | zero =>
    cases v with
    | number m =>
      cases w with
      | number n => exact hnumbers m n .refl h
      | _ => exact h
    | _ => cases w <;> exact h
  | succ depth ih =>
    cases v with
    | number m =>
      cases w with
      | number n => exact hnumbers m n .refl h
      | _ => exact h
    | vector a =>
      cases w with
      | vector b =>
        simp only [equalTo, Bool.or_eq_true, Bool.and_eq_true, List.all_eq_true] at h ⊢
        rcases h with hone | ⟨hlength, hpairs⟩
        · exact .inl hone
        · refine .inr ⟨hlength, ?_⟩
          intro pair hpair
          refine ih ?_ (hpairs pair hpair)
          intro m n hplace
          exact hnumbers m n (.head ⟨a, b, rfl, hpair⟩ hplace)
      | _ => exact h
    | _ => cases w <;> exact h

/-- Which of two values comes first does not matter. -/
theorem sameAtom_comm (v w : Value) : sameAtom v w = sameAtom w v := by
  cases v <;> cases w <;> simp only [sameAtom, Bool.beq_comm]

/-- Values are equal either way round if numbers are. -/
theorem equalTo_comm {f : Number → Number → Bool} (hf : ∀ m n, f m n = f n m) (depth : Nat)
    (v w : Value) : s.equalTo f depth v w = s.equalTo f depth w v := by
  induction depth generalizing v w with
  | zero =>
    cases v <;> cases w <;> simp only [equalTo, sameAtom_comm, hf, Bool.beq_comm]
  | succ depth ih =>
    cases v with
    | vector a =>
      cases w with
      | vector b =>
        have hpairs : ((s.items a).zip (s.items b)).all
              (fun pair => s.equalTo f depth pair.1 pair.2) =
            ((s.items b).zip (s.items a)).all (fun pair => s.equalTo f depth pair.1 pair.2) := by
          rw [← List.zip_swap, List.all_map]
          simp only [Function.comp_def, Prod.fst_swap, Prod.snd_swap, ih]
        rw [equalTo, equalTo, hpairs, Bool.beq_comm, Bool.beq_comm (a := (s.items a).length)]
      | _ => rfl
    | _ => cases w <;> simp only [equalTo, sameAtom_comm, hf]

/-! ## Places -/

/-- What stands at a place in a value leads to no cycle if the value does not. -/
theorem AcyclicFrom.of_place {p q : Value × Value} (h : s.AcyclicFrom p.1)
    (hplace : Relation.ReflTransGen s.Opposite p q) : s.AcyclicFrom q.1 := by
  induction hplace with
  | refl => exact h
  | tail _ hstep ih =>
    obtain ⟨a, b, rfl, hq⟩ := hstep
    exact ih.of_mem (List.of_mem_zip hq).1

/-- Where vectors hold numbers of one kind only, numbers at one place are of one kind. -/
theorem kind_of_place {kind : NumberKind} {p q : Value × Value}
    (hall : ∀ items ∈ s.vectors, ∀ x ∈ items, x.OfKind kind)
    (hp : p.1.OfKind kind ∧ p.2.OfKind kind) (hplace : Relation.ReflTransGen s.Opposite p q) :
    q.1.OfKind kind ∧ q.2.OfKind kind := by
  have hitems : ∀ {id : VectorId} {x : Value}, x ∈ s.items id → x.OfKind kind := by
    intro id x hx
    obtain ⟨items, hid, hmem⟩ := exists_of_mem_items hx
    exact hall items hid x hmem
  induction hplace with
  | refl => exact hp
  | tail _ hstep _ =>
    obtain ⟨a, b, rfl, hq⟩ := hstep
    obtain ⟨hleft, hright⟩ := List.of_mem_zip hq
    exact ⟨hitems hleft, hitems hright⟩

/-! ## The law -/

/-- **What is the same is equal, and what is equal is the same where kinds agree.** Of two values, of
which the first holds no vector that holds itself: if they are the same, they are equal; if they are
equal, and the numbers at each place in both are of one kind, they are the same; and the language's
equality does not depend on which stands first. Wherever vectors stand opposite one another in the
values, they are the same if they are one or their elements are the same one by one, and equal if
they are one or as long as one another with all pairs of elements equal. -/
theorem same_within_equal (sound : s.Sound) (hv : s.AcyclicFrom v) :
    (s.same v w = true → s.equal v w = true) ∧
    (s.equal v w = true →
      (∀ m n, Relation.ReflTransGen s.Opposite (v, w) (.number m, .number n) → m.kind = n.kind) →
      s.same v w = true) ∧
    s.equal v w = s.equal w v ∧
    ∀ a b, Relation.ReflTransGen s.Opposite (v, w) (.vector a, .vector b) →
      (s.same (.vector a) (.vector b) = true ↔
        a = b ∨ List.Forall₂ (fun x y => s.same x y = true) (s.items a) (s.items b)) ∧
      (s.equal (.vector a) (.vector b) = true ↔
        a = b ∨ (s.items a).length = (s.items b).length ∧
          ∀ pair ∈ (s.items a).zip (s.items b), s.equal pair.1 pair.2 = true) := by
  refine ⟨?_, ?_, equalTo_comm Number.equals_comm s.depth v w, ?_⟩
  · intro hsame
    refine equalTo_imp ?_ hsame
    intro m n _ hnumbers
    exact ((m.same_iff n).mp hnumbers).2
  · intro hequal hkinds
    refine equalTo_imp ?_ hequal
    intro m n hplace hnumbers
    exact (m.same_iff n).mpr ⟨hkinds m n hplace, hnumbers⟩
  · intro a b hplace
    have ha : s.AcyclicFrom (.vector a) := hv.of_place (p := (v, w)) hplace
    constructor
    · rw [same, ha.equalTo_vector sound, Bool.or_eq_true, Bool.and_eq_true, beq_iff_eq, beq_iff_eq,
        List.all_eq_true, List.forall₂_iff_zip]
      simp only [Prod.forall, same]
    · rw [equal, ha.equalTo_vector sound, Bool.or_eq_true, Bool.and_eq_true, beq_iff_eq, beq_iff_eq,
        List.all_eq_true]
      rfl

/-- Two vectors hold a third one, with a part that is no number, and a vector each of their own. -/
theorem same_within_equal_shared :
    let s := initial.2.afterSources outermost
      ["a = [inf - inf, 2.5]", "b = [a, [1.0, a]]", "c = [a, [1.0, a]]"]
    let b : Value := .vector ⟨2⟩
    let c : Value := .vector ⟨4⟩
    s.Sound ∧ s.AcyclicFrom b ∧ s.text b = "[[NaN, 2.5], [1.0, [NaN, 2.5]]]" ∧
      (∀ m n, Relation.ReflTransGen s.Opposite (b, c) (.number m, .number n) → m.kind = n.kind) ∧
      s.equal b c = true ∧ s.same b c = true ∧ s.equal c b = true := by
  intro s b c
  have hreached : s.Reached := reached_afterSources _
  obtain ⟨hvectors, htext, hequal⟩ : (∀ items ∈ s.vectors, ∀ x ∈ items, x.OfKind .real) ∧
      s.text b = "[[NaN, 2.5], [1.0, [NaN, 2.5]]]" ∧ s.equal b c = true := by decide +kernel
  have hacyclic := hreached.acyclic.acyclicFrom b
  have hkinds : ∀ m n, Relation.ReflTransGen s.Opposite (b, c) (.number m, .number n) →
      m.kind = n.kind := by
    intro m n hplace
    obtain ⟨hm, hn⟩ := kind_of_place hvectors (p := (b, c)) ⟨trivial, trivial⟩ hplace
    exact hm.trans hn.symm
  obtain ⟨-, hsame, hcomm, -⟩ := same_within_equal (w := c) hreached.sound hacyclic
  exact ⟨hreached.sound, hacyclic, htext, hkinds, hequal, hsame hequal hkinds, hcomm ▸ hequal⟩

/-- An integer and a real may be equal, and are never the same. -/
example : initial.2.equal (.integer 1) (.number (.real 1.0)) = true ∧
    initial.2.same (.integer 1) (.number (.real 1.0)) = false := by decide +kernel

end Store

end Abacus
