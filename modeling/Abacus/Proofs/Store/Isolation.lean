import Abacus.Proofs.Store.Reached

/-!
# Isolation of scopes

Evaluating an expression in a scope may run functions that were written anywhere and write to names
that are bound anywhere, but a name that is new goes into that scope or into one that was opened
meanwhile.

A scope links to the one in which it was opened, and its chain is what following the links leads to.
Every link goes to a scope that was opened before, so each chain comes to an end.

**The law** (`Action.evaluate_isolates`): evaluation adds names to its own scope only, takes none
away, and leaves every link, so that each chain leads where it led before.
-/

namespace Abacus

namespace Store

/-- The scope in which a scope was opened. -/
def outer? (s : Store) (id : ScopeId) : Option ScopeId := (s.scope id).around.head?

/-- Following the links from a scope to the end leads through these scopes. -/
inductive Leads (s : Store) : ScopeId → List ScopeId → Prop
  | last {id : ScopeId} : s.outer? id = none → Leads s id [id]
  | next {id outer : ScopeId} {rest : List ScopeId} : s.outer? id = some outer →
    Leads s outer rest → Leads s id (id :: rest)

/-- Every link goes to a scope that was opened before, and what a scope keeps of the scopes around it
is the chain of that scope. -/
def Linked (s : Store) : Prop :=
  ∀ id : ScopeId, id.index < s.scopes.size → (s.scope id).around = [] ∨
    ∃ outer : ScopeId, outer.index < id.index ∧ (s.scope id).around = s.chain outer

/-- The later store has the names and the links of the earlier one, and no new name in any of the
scopes of the earlier one but `here`. -/
structure Isolates (here : ScopeId) (s s' : Store) : Prop where
  names : ∀ {id : ScopeId}, id.index < s.scopes.size → id ≠ here →
    (s'.scope id).names = (s.scope id).names
  kept : ∀ {id : ScopeId}, id.index < s.scopes.size → (s.scope id).names ⊆ (s'.scope id).names
  around : ∀ {id : ScopeId}, id.index < s.scopes.size → (s'.scope id).around = (s.scope id).around

variable {free : ScopeId → Prop} {s s' : Store} {here : ScopeId}

/-! ## Links -/

/-- The links of a scope that is there never change. -/
theorem Step.around_eq (h : Step free s s') {id : ScopeId} (hid : id.index < s.scopes.size) :
    (s'.scope id).around = (s.scope id).around := by
  rcases h.scope_cases hid with hsame | ⟨_, _, _, -, -, -, hput⟩
  · rw [hsame]
  · rw [hput]
    rfl

/-- At first the outermost scope has none outside it. -/
theorem linked_initial : initial.2.Linked := by
  intro id hid
  obtain rfl := eq_outermost hid
  exact .inl rfl

/-- Every step links a new scope to an older one, and old scopes stay linked as they are. -/
theorem Step.linked (h : Step free s s') (hs : s.Linked) : s'.Linked := by
  have hchain : ∀ {id : ScopeId}, id.index < s.scopes.size → s'.chain id = s.chain id := by
    intro id hid
    rw [chain, chain, h.around_eq hid]
  intro id hid
  by_cases hold : id.index < s.scopes.size
  · rw [h.around_eq hold]
    rcases hs id hold with hnone | ⟨outer, hlt, haround⟩
    · exact .inl hnone
    · exact .inr ⟨outer, hlt, by rw [haround, hchain (Nat.lt_trans hlt hold)]⟩
  · obtain ⟨outer, houter, hscope⟩ := h.of_new_scope (Nat.le_of_not_lt hold) hid
    refine .inr ⟨outer, Nat.lt_of_lt_of_le houter (Nat.le_of_not_lt hold), ?_⟩
    rw [hscope, hchain houter]
    rfl

/-- So in every reached store a scope is inside older ones. -/
theorem Reached.linked (h : s.Reached) : s.Linked := by
  induction h with
  | refl => exact linked_initial
  | tail _ hstep ih => exact hstep.linked ih

/-- Following the links comes to an end, and leads through the chain. -/
theorem Linked.leads_chain (hs : s.Linked) {id : ScopeId} (hid : id.index < s.scopes.size) :
    s.Leads id (s.chain id) := by
  -- the links go down, and the chain of the outer scope is the rest of the chain
  induction hindex : id.index using Nat.strongRecOn generalizing id with
  | ind index ih =>
    rcases hs id hid with hnone | ⟨outer, hlt, haround⟩
    · have hlast : s.outer? id = none := by rw [outer?, hnone, List.head?_nil]
      have hchain : s.chain id = [id] := by rw [chain, hnone]
      exact hchain ▸ .last hlast
    · have hnext : s.outer? id = some outer := by rw [outer?, haround]; rfl
      have hrest := ih outer.index (hindex ▸ hlt) (Nat.lt_trans hlt hid) rfl
      have hchain : s.chain id = id :: s.chain outer := by rw [chain, haround]
      exact hchain ▸ .next hnext hrest

/-! ## Names -/

protected theorem Isolates.refl (here : ScopeId) (s : Store) : Isolates here s s :=
  ⟨fun _ _ => rfl, fun _ => List.Subset.refl _, fun _ => rfl⟩

/-- What a step does to the names of a scope that is there: nothing, or the scope is free and has
one more name. -/
theorem Step.names_cases (h : Step free s s') {id : ScopeId} (hid : id.index < s.scopes.size) :
    (s'.scope id).names = (s.scope id).names ∨
      free id ∧ (s.scope id).names ⊆ (s'.scope id).names := by
  rcases h.scope_cases hid with hsame | ⟨here, name, value, -, -, hwhere, hput⟩
  · exact .inl (by rw [hsame])
  · rw [hput]
    rcases hwhere with ⟨rfl, hfree⟩ | ⟨-, hbinds⟩
    · exact .inr ⟨hfree, Scope.names_subset_put⟩
    · exact .inl (Scope.names_put_of_binds hbinds)

/-- Steps that bind new names only in one scope, and in scopes that were opened meanwhile, isolate
the other ones. -/
theorem Path.isolates (h : s.Path (fun id => id = here ∨ s.scopes.size ≤ id.index) s') :
    s.Isolates here s' := by
  induction h with
  | refl => exact .refl here s
  | @tail between after hpath hstep ih =>
    have hthere : ∀ {id : ScopeId}, id.index < s.scopes.size → id.index < between.scopes.size :=
      fun hid => Nat.lt_of_lt_of_le hid (Path.grown hpath).scopes
    refine ⟨fun {id} hid hne => ?_, fun {id} hid => ?_, fun {id} hid => ?_⟩
    · rcases hstep.names_cases (hthere hid) with hsame | ⟨hfree, -⟩
      · rw [hsame, ih.names hid hne]
      · rcases hfree with rfl | hlater
        · exact absurd rfl hne
        · exact absurd hid (Nat.not_lt.mpr hlater)
    · rcases hstep.names_cases (hthere hid) with hsame | ⟨-, hsub⟩
      · rw [hsame]
        exact ih.kept hid
      · exact List.Subset.trans (ih.kept hid) hsub
    · rw [hstep.around_eq (hthere hid), ih.around hid]

end Store

namespace Action

open Store

/-- **Evaluation in a scope isolates all other ones.** -/
theorem evaluate_isolates (fuel : Nat) (e : Expr) {s : Store} (hs : s.Reached) (here : ScopeId)
    (hhere : here.index < s.scopes.size) :
    let s' := storeAfter (evaluate (apply fuel) e here s)
    (∀ id : ScopeId, id.index < s.scopes.size → id ≠ here →
      (s'.scope id).names = (s.scope id).names) ∧
    (∀ id : ScopeId, id.index < s.scopes.size → (s.scope id).names ⊆ (s'.scope id).names) ∧
    (∀ id : ScopeId, id.index < s.scopes.size → s'.outer? id = s.outer? id) ∧
    (∀ id : ScopeId, id.index < s.scopes.size →
      s.Leads id (s.chain id) ∧ s'.Leads id (s.chain id)) ∧
    ∀ id : ScopeId, id.index < s'.scopes.size → s'.Leads id (s'.chain id) := by
  intro s'
  have hpath : s.Path (fun id => id = here ∨ s.scopes.size ≤ id.index) s' :=
    Ready.path_evaluate ⟨hs.sound, .inr⟩ ⟨.inl rfl, hhere⟩ fuel e
  have hisolates := hpath.isolates
  have hlinked : s'.Linked := (hs.evaluate hhere fuel e).linked
  refine ⟨fun _ => hisolates.names, fun _ => hisolates.kept, fun id hid => ?_, fun id hid => ?_,
    fun id => hlinked.leads_chain⟩
  · rw [outer?, outer?, hisolates.around hid]
  · have hchain : s'.chain id = s.chain id := by rw [chain, chain, hisolates.around hid]
    have hid' := Nat.lt_of_lt_of_le hid hpath.grown.scopes
    exact ⟨hs.linked.leads_chain hid, hchain ▸ hlinked.leads_chain hid'⟩

/-- In a scope that a call has opened, a new name is bound to what another call gives, which changes
a name of the outermost scope; the one new name is where it belongs. -/
theorem evaluate_isolates_outermost :
    let s := initial.2.afterSources outermost ["n = 0; f = |x| n = n + x; f(1)"]
    let e := Expr.assign "m"
      (.call (.identifier "f" .start) [.literal (.number (.integer 2)) .start] .start) false .start
    let s' := storeAfter (evaluate (apply 2) e ⟨1⟩ s)
    s.Reached ∧ 1 < s.scopes.size ∧
      (s'.scope outermost).names = (s.scope outermost).names ∧
      (s'.scope ⟨1⟩).names = ["m", "x"] ∧ (s.scope ⟨1⟩).names = ["x"] ∧
      s'.Leads ⟨1⟩ [⟨1⟩, outermost] := by
  intro s e s'
  have hreached : s.Reached := reached_afterSources _
  obtain ⟨hsize, hchain, hbound⟩ : 1 < s.scopes.size ∧ s.chain ⟨1⟩ = [⟨1⟩, outermost] ∧
      (s'.scope ⟨1⟩).names = ["m", "x"] ∧ (s.scope ⟨1⟩).names = ["x"] := by decide +kernel
  obtain ⟨hnames, -, -, hleads, -⟩ := evaluate_isolates 2 e hreached ⟨1⟩ hsize
  exact ⟨hreached, hsize, hnames outermost (Nat.lt_trans Nat.zero_lt_one hsize) (by decide),
    hbound.1, hbound.2, hchain ▸ (hleads ⟨1⟩ hsize).2⟩

end Action

end Abacus
