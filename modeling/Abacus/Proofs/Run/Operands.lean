import Abacus.Proofs.Store.Depth

/-!
# Operands

Sums, differences and products have two vectors as operands as well as two numbers, and products a
number and a vector (`Operands`). Everything else is refused at once. The elements of two vectors are
looked at only if there are as many on both sides.

**The laws** say what an operation does on operands of each kind: one equation for each, which ends
in the same operation one depth further down. By the time that an operation comes to a vector the
store may have grown, by the vectors made of elements before it; it finds the vector as it was.
-/

namespace Abacus

/-- Sums, differences and products, each with what it makes of two numbers. -/
inductive BinaryOp.Arithmetic : BinaryOp → (Number → Number → Number) → Prop
  | sum : Arithmetic .add Number.add
  | difference : Arithmetic .sub Number.sub
  | product : Arithmetic .mul Number.mul

/-- The operands on which such an operation goes to work. -/
inductive Operands (op : BinaryOp) : Value → Value → Prop
  | numbers {m n : Number} : Operands op (.number m) (.number n)
  | vectors {a b : VectorId} : Operands op (.vector a) (.vector b)
  | scaling {n : Number} {a : VectorId} : op = .mul → Operands op (.number n) (.vector a)
  | scaled {a : VectorId} {n : Number} : op = .mul → Operands op (.vector a) (.number n)

/-- Whether operands will do does not depend on their order. -/
theorem Operands.swap {op : BinaryOp} {v w : Value} (h : Operands op v w) : Operands op w v := by
  cases h with
  | numbers => exact .numbers
  | vectors => exact .vectors
  | scaling hmul => exact .scaled hmul
  | scaled hmul => exact .scaling hmul

/-- Only a number is added to a number. -/
theorem Operands.number_of_sum {n : Number} {v : Value} (h : Operands .add (.number n) v) :
    ∃ m, v = .number m := by
  cases h with
  | numbers => exact ⟨_, rfl⟩
  | scaling hmul => cases hmul

namespace Action

variable {op : BinaryOp} {f : Number → Number → Number} {p : Position} {depth : Nat}
  {v w : Value} {a b : VectorId} {n : Number} {s : Store}

/-- An operator looks down to the depth that the store gives it. -/
theorem binary_apply : binary op v w p s = binaryTo p s.depth op v w s := rfl

/-- Operands that will not do are refused at once. -/
theorem binaryTo_refused (hop : op.Arithmetic f) (h : ¬ Operands op v w) :
    binaryTo p depth op v w = fail (.operands op v.typeTag w.typeTag) p := by
  rw [binaryTo.eq_def]
  cases v with
  | number m =>
    cases w with
    | number n => exact absurd .numbers h
    | vector b =>
      cases hop with
      | product => exact absurd (.scaling rfl) h
      | _ => rfl
    | _ => cases hop <;> rfl
  | vector a =>
    cases w with
    | vector b => exact absurd .vectors h
    | number n =>
      cases hop with
      | product => exact absurd (.scaled rfl) h
      | _ => rfl
    | _ => cases hop <;> rfl
  | _ => cases hop <;> rfl

/-- Of two numbers a number is made. -/
theorem binaryTo_numbers (hop : op.Arithmetic f) (m n : Number) :
    binaryTo p depth op (.number m) (.number n) = pure (.number (f m n)) := by
  rw [binaryTo.eq_def]
  cases hop <;> rfl

/-! ### Vectors -/

variable {base : Store} (grown : base.Grows s) (ha : (Value.vector a).Fits base)
  (hb : (Value.vector b).Fits base)

include grown ha in
/-- What goes on with the elements of a vector goes on with those that it had. -/
theorem items_bind {α : Type} (f : List Value → Action α) :
    (items a >>= f) s = f (base.items a) s := by
  rw [items, view_bind, Store.items_grows grown ha]

include grown ha hb

/-- Vectors of different length are refused before an element is looked at. -/
theorem binaryTo_lengths (hop : op.Arithmetic f)
    (h : (base.items a).length ≠ (base.items b).length) :
    binaryTo p (depth + 1) op (.vector a) (.vector b) s =
      .error (.fault ⟨.lengths op (base.items a).length (base.items b).length, p⟩) s := by
  have hne : ((base.items a).length != (base.items b).length) = true := bne_iff_ne.mpr h
  rw [binaryTo.eq_def]
  cases hop <;> simp only [items_bind grown ha, items_bind grown hb, hne, if_true, fail_bind]

/-- Sums and differences of vectors go element by element. -/
theorem binaryTo_elementwise (hop : op.Arithmetic f) (hmul : op ≠ .mul)
    (h : (base.items a).length = (base.items b).length) :
    binaryTo p (depth + 1) op (.vector a) (.vector b) s =
      (((base.items a).zip (base.items b)).mapM
        (fun pair => binaryTo p depth op pair.1 pair.2) >>= newVector) s := by
  have hne : ((base.items a).length != (base.items b).length) = false := bne_eq_false_iff_eq.mpr h
  rw [binaryTo.eq_def]
  cases hop with
  | product => exact absurd rfl hmul
  | _ => simp only [items_bind grown ha, items_bind grown hb, hne, Bool.false_eq_true, if_false]

/-- The product of two vectors is the sum of the products of their elements, from zero on. -/
theorem binaryTo_product (h : (base.items a).length = (base.items b).length) :
    binaryTo p (depth + 1) .mul (.vector a) (.vector b) s =
      (((base.items a).zip (base.items b)).foldlM (fun sum pair => do
        binaryTo p depth .add sum (← binaryTo p depth .mul pair.1 pair.2)) (.integer 0) :
          Action Value) s := by
  have hne : ((base.items a).length != (base.items b).length) = false := bne_eq_false_iff_eq.mpr h
  rw [binaryTo.eq_def]
  simp only [items_bind grown ha, items_bind grown hb, hne, Bool.false_eq_true, if_false]

omit hb

/-- A number before a vector multiplies each element from the left. -/
theorem binaryTo_scaling : binaryTo p (depth + 1) .mul (.number n) (.vector a) s =
    ((base.items a).mapM (fun item => binaryTo p depth .mul (.number n) item) >>= newVector) s := by
  rw [binaryTo.eq_def]
  exact items_bind grown ha _

/-- A number behind a vector multiplies each element from the right. -/
theorem binaryTo_scaled : binaryTo p (depth + 1) .mul (.vector a) (.number n) s =
    ((base.items a).mapM (fun item => binaryTo p depth .mul item (.number n)) >>= newVector) s := by
  rw [binaryTo.eq_def]
  exact items_bind grown ha _

end Action

end Abacus
