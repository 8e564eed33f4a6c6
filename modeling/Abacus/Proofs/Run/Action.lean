import Abacus.Run.Action

/-!
# Actions step by step

How an action made of steps ends, told by how its steps end. Every proof about an action opens it
with these equations.
-/

namespace Abacus.Action

variable {α β : Type} {s s' : Store}

/-- An action that gives a value is followed by what comes next, in the store that it left. -/
theorem bind_ok {x : Action α} {a : α} (h : x s = .ok a s') (f : α → Action β) :
    (x >>= f) s = f a s' := by
  show EStateM.bind x f s = _
  simp only [EStateM.bind, h]

/-- An action that ends is followed by nothing. -/
theorem bind_error {x : Action α} {e : Interruption} (h : x s = .error e s') (f : α → Action β) :
    (x >>= f) s = .error e s' := by
  show EStateM.bind x f s = _
  simp only [EStateM.bind, h]

/-- An action that ends in a value has gone through its first step. -/
theorem of_bind_ok {x : Action α} {f : α → Action β} {b : β} {s'' : Store}
    (h : (x >>= f) s = .ok b s'') : ∃ a s', x s = .ok a s' ∧ f a s' = .ok b s'' := by
  cases hx : x s with
  | ok a s' =>
    rw [bind_ok hx] at h
    exact ⟨a, s', rfl, h⟩
  | error e s' =>
    rw [bind_error hx] at h
    cases h

/-- To give a value changes nothing, so what comes next begins at once. -/
@[simp] theorem bind_pure (a : α) (f : α → Action β) : (pure a >>= f) = f a := rfl

@[simp] theorem pure_apply (a : α) : (pure a : Action α) s = .ok a s := rfl

@[simp] theorem throw_apply (e : Interruption) : (throw e : Action α) s = .error e s := rfl

@[simp] theorem fail_apply (fault : Fault) (position : Position) :
    (fail fault position : Action α) s = .error (.fault ⟨fault, position⟩) s := rfl

@[simp] theorem view_bind (f : Store → α) (g : α → Action β) : (view f >>= g) s = g (f s) s := rfl

@[simp] theorem modify_bind (f : Store → Store) (g : PUnit → Action β) :
    (modify f >>= g) s = g ⟨⟩ (f s) := rfl

@[simp] theorem newVector_apply (items : List Value) :
    newVector items s = .ok (.vector (s.addVector items.toArray).1) (s.addVector items.toArray).2 :=
  rfl

@[simp] theorem fail_bind (fault : Fault) (position : Position) (g : α → Action β) :
    (fail fault position >>= g) s = .error (.fault ⟨fault, position⟩) s := rfl

end Abacus.Action
