import Abacus.Store.Scopes

/-!
# Bindings of a scope

What binding a name does to a scope, and to a list of bindings: it concerns that name only, and it
takes no name away.
-/

namespace Abacus.Scope

variable {name other : String} {value : Value}

/-! ## Replacing -/

/-- A binding after a replacement is one from before or the new one. -/
theorem of_mem_replace {bindings : List (String × Value)} {binding : String × Value}
    (h : binding ∈ replace name value bindings) : binding ∈ bindings ∨ binding.2 = value := by
  induction bindings with
  | nil => exact .inl h
  | cons first rest ih =>
    rw [replace] at h
    split at h
    · rcases List.mem_cons.mp h with rfl | h
      · exact .inr rfl
      · exact .inl (List.mem_cons_of_mem _ h)
    · rcases List.mem_cons.mp h with rfl | h
      · exact .inl List.mem_cons_self
      · exact (ih h).imp_left (List.mem_cons_of_mem _)

/-- To replace what is bound leaves the names and their order. -/
theorem names_replace (bindings : List (String × Value)) :
    (replace name value bindings).map Prod.fst = bindings.map Prod.fst := by
  induction bindings with
  | nil => rfl
  | cons first rest ih =>
    rw [replace]
    split
    · rfl
    · rw [List.map_cons, List.map_cons, ih]

/-- A binding in front hides no other name. -/
theorem lookup_cons_of_ne (hne : other ≠ name) (bindings : List (String × Value)) :
    ((name, value) :: bindings).lookup other = bindings.lookup other := by
  rw [List.lookup_cons, beq_false_of_ne hne]

/-- Nor does a replacement touch another name. -/
theorem lookup_replace_of_ne (hne : other ≠ name) (bindings : List (String × Value)) :
    (replace name value bindings).lookup other = bindings.lookup other := by
  induction bindings with
  | nil => rfl
  | cons first rest ih =>
    obtain ⟨found, old⟩ := first
    rw [replace]
    split
    · next heq => rw [lookup_cons_of_ne (heq ▸ hne), lookup_cons_of_ne (heq ▸ hne)]
    · rw [List.lookup_cons, List.lookup_cons, ih]

/-! ## Binding -/

variable {scope : Scope}

/-- The names that a scope binds. -/
def names (scope : Scope) : List String := scope.bindings.map Prod.fst

/-- A scope binds its names. -/
theorem binds_iff_mem_names : scope.binds name = true ↔ name ∈ scope.names := by
  simp only [binds, get?, names, List.lookup_isSome_iff, beq_iff_eq, List.mem_map, @eq_comm _ name]

/-- Binding a name puts no other value into a scope. -/
theorem of_mem_put {binding : String × Value} (h : binding ∈ (scope.put name value).bindings) :
    binding ∈ scope.bindings ∨ binding.2 = value := by
  unfold put at h
  by_cases hbinds : scope.binds name
  · rw [if_pos hbinds] at h
    exact of_mem_replace h
  · rw [if_neg hbinds] at h
    rcases List.mem_cons.mp h with rfl | h
    · exact .inr rfl
    · exact .inl h

/-- A name that is bound is replaced where it stands. -/
theorem lookup_replace_self {bindings : List (String × Value)}
    (h : (bindings.lookup name).isSome) : (replace name value bindings).lookup name = some value := by
  induction bindings with
  | nil => cases h
  | cons first rest ih =>
    obtain ⟨found, old⟩ := first
    rw [replace]
    by_cases hfound : found = name
    · rw [if_pos hfound, hfound, List.lookup_cons_self]
    · have hne : name ≠ found := fun heq => hfound heq.symm
      rw [lookup_cons_of_ne hne] at h
      rw [if_neg hfound, lookup_cons_of_ne hne]
      exact ih h

/-- A name that has been bound stands for what it was bound to. -/
theorem get?_put_self : (scope.put name value).get? name = some value := by
  unfold put get?
  by_cases hbinds : scope.binds name
  · rw [if_pos hbinds]
    exact lookup_replace_self hbinds
  · rw [if_neg hbinds]
    exact List.lookup_cons_self

/-- Binding a name changes no other name. -/
theorem get?_put_of_ne (hne : other ≠ name) : (scope.put name value).get? other = scope.get? other := by
  unfold put get?
  by_cases hbinds : scope.binds name
  · rw [if_pos hbinds]
    exact lookup_replace_of_ne hne scope.bindings
  · rw [if_neg hbinds]
    exact lookup_cons_of_ne hne scope.bindings

/-- To bind a name leaves it open whether others are bound. -/
theorem binds_put_of_ne (hne : other ≠ name) :
    (scope.put name value).binds other = scope.binds other := by
  rw [binds, binds, get?_put_of_ne hne]

/-- Binding a name that is bound already gives the scope no new name. -/
theorem names_put_of_binds (h : scope.binds name) : (scope.put name value).names = scope.names := by
  unfold put names
  rw [if_pos h]
  exact names_replace scope.bindings

/-- Binding a name takes none away. -/
theorem names_subset_put : scope.names ⊆ (scope.put name value).names := by
  intro other h
  by_cases hbinds : scope.binds name
  · rwa [names_put_of_binds hbinds]
  · unfold put names
    rw [if_neg hbinds]
    exact List.mem_cons_of_mem _ h

end Abacus.Scope
