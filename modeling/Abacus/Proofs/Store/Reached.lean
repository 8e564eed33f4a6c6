import Abacus.Proofs.Run.Evaluate

/-!
# Reached stores

A store is reached if programs can bring the initial one there: by sources that run one after the
other in the outermost scope, up to any moment of any of them. A run that ends in a fault, in an
exit or for want of budget counts like any other.

**The law** (`Store.reached_afterSources`): what a list of sources leaves behind is reached.
-/

namespace Abacus

/-- The store that a run leaves, however it ends. -/
def storeAfter {ε α : Type} : EStateM.Result ε Store α → Store
  | .ok _ s => s
  | .error _ s => s

/-- Whatever way an action ends, single steps lead to the store that it leaves. -/
theorem Stepped.path {α : Type} {free : ScopeId → Prop} {good : Store → α → Prop} {s : Store}
    {result : EStateM.Result Interruption Store α} (h : Stepped free good s result) :
    s.Path free (storeAfter result) := by
  cases h with
  | value hpath => exact hpath
  | interruption hpath => exact hpath

namespace Store

/-- The outermost scope of a program. -/
abbrev outermost : ScopeId := initial.1

/-- The initial store has no other scope. -/
theorem eq_outermost {id : ScopeId} (h : id.index < initial.2.scopes.size) : id = outermost :=
  eq_of_index_eq (Nat.lt_one_iff.mp h)

/-- The store after sources have run one after the other in a scope. -/
def afterSources (s : Store) (scope : ScopeId) (sources : List String) : Store :=
  sources.foldl (fun s source => storeAfter (runSource source scope s)) s

/-- Programs can bring the initial store there. -/
def Reached (s : Store) : Prop := initial.2.Path (fun _ => True) s

/-- Functions, numbers and types are built in. -/
theorem cases_of_mem_builtins {binding : String × Value} (h : binding ∈ Scope.builtins) :
    (∃ native, binding.2 = .native native) ∨ (∃ n, binding.2 = .number n) ∨
      ∃ tag, binding.2 = .type tag := by
  rcases List.mem_append.mp h with h | h
  · rcases List.mem_append.mp h with h | h
    · obtain ⟨native, -, rfl⟩ := List.mem_map.mp h
      exact .inl ⟨native, rfl⟩
    · simp only [Scope.constants, List.mem_cons, List.not_mem_nil, or_false] at h
      rcases h with rfl | rfl | rfl <;> exact .inr (.inl ⟨_, rfl⟩)
  · obtain ⟨tag, -, rfl⟩ := List.mem_map.mp h
    exact .inr (.inr ⟨tag, rfl⟩)

/-- Nothing built in refers to a part of a store. -/
theorem fits_of_mem_builtins {s : Store} {binding : String × Value}
    (h : binding ∈ Scope.builtins) : binding.2.Fits s := by
  obtain ⟨_, heq⟩ | ⟨_, heq⟩ | ⟨_, heq⟩ := cases_of_mem_builtins h <;> rw [heq] <;> trivial

/-- The initial store refers to nothing that is not there. -/
theorem sound_initial : initial.2.Sound where
  scopes scope h := by
    obtain rfl : scope = .global := by simpa [initial, empty, addScope] using h
    exact fun binding hbinding => fits_of_mem_builtins hbinding
  vectors _ h := by cases Array.mem_def.mp h
  sources _ h := by cases Array.mem_def.mp h
  sequences _ h := by cases Array.mem_def.mp h

/-! ## Runs -/

section Runs

variable {free : ScopeId → Prop} {s : Store} {here : ScopeId}

/-- Single steps lead to what an evaluation leaves. -/
theorem Ready.path_evaluate (ready : s.Ready free) (hhere : Action.Open free s here) (fuel : Nat)
    (e : Expr) : s.Path free (storeAfter (Action.evaluate (Action.apply fuel) e here s)) :=
  (Action.evaluate_safe (Action.apply_safe fuel) e hhere ready).path

/-- And to what a source leaves. -/
theorem Ready.path_runSource (ready : s.Ready free) (hhere : Action.Open free s here)
    (source : String) : s.Path free (storeAfter (runSource source here s)) := by
  have hsafe : Action.Safe free (Script.evaluate (Action.apply Action.plenty) here
      (Script.read source.toList .start).entries none) Action.Any s :=
    Script.evaluate_safe (Action.apply_safe _) hhere
  have hrun := (hsafe ready).path
  unfold runSource Script.run
  revert hrun
  -- a fault in reading is reported on the store as the statements have left it
  cases Script.evaluate (Action.apply Action.plenty) here
      (Script.read source.toList .start).entries none s with
  | error e s' => exact id
  | ok value s' =>
    intro hrun
    cases (Script.read source.toList .start).fault with
    | some e => exact hrun
    | none => exact hrun

/-- And to what sources leave that run one after the other. -/
theorem Ready.path_afterSources (ready : s.Ready free) (hhere : Action.Open free s here)
    (sources : List String) : s.Path free (s.afterSources here sources) := by
  induction sources generalizing s with
  | nil => exact .refl
  | cons source rest ih =>
    have hpath := ready.path_runSource hhere source
    exact hpath.trans (ih (ready.path hpath) (hhere.grown hpath.grown))

end Runs

/-! ## From the initial store -/

variable {s : Store}

/-- A reached store refers to nothing that is not there. -/
theorem Reached.sound (h : s.Reached) : s.Sound := Path.sound h sound_initial

/-- A reached store is ready for another run. -/
theorem Reached.ready (h : s.Reached) : s.Ready fun _ => True := ⟨h.sound, fun _ => trivial⟩

/-- What an evaluation leaves is reached. -/
theorem Reached.evaluate (h : s.Reached) {here : ScopeId} (hhere : here.index < s.scopes.size)
    (fuel : Nat) (e : Expr) :
    (storeAfter (Action.evaluate (Action.apply fuel) e here s)).Reached :=
  Relation.ReflTransGen.trans h (h.ready.path_evaluate ⟨trivial, hhere⟩ fuel e)

/-- **What a list of sources leaves behind is reached.** -/
theorem reached_afterSources (sources : List String) :
    (initial.2.afterSources outermost sources).Reached :=
  have hinitial : initial.2.Reached := .refl
  hinitial.ready.path_afterSources ⟨trivial, by decide⟩ sources

end Store

end Abacus
