import Abacus.Proofs.Store.Assignment

/-!
# What is visible from a scope

Four walks go outwards from a scope: one tells what a name stands for, one whether it is bound, one
writes to it, and one gathers all names. Each goes its own way over the scopes. The first three end
where a scope binds the name, the last one goes on to the outermost scope and meets a shadowed name
again.

`Store.Finds name` is what they have in common, and it speaks of the links alone: the scope itself if
it binds the name, else what is found from the scope in which it was opened. In a tree of scopes a
search over the chain ends exactly there (`Linked.finds_iff`), and calls of a host build trees only
(`Linked.calls`).

A name that is set is bound already, so no scope gets a name or loses one, and every search ends
where it ended before (`BindsOnce.binder?_eq`).

**The law** (`Store.visibility_agrees`): a name is bound, has a value, is listed and can be set, all
from the same scope of the chain, or none of these.
-/

namespace Abacus

namespace Store

variable {s s' : Store} {id outer place : ScopeId} {name : String} {value : Value}

/-! ## Following the links -/

/-- Of the scopes on the way out from a scope, `place` is the first one that binds the name. -/
inductive Finds (s : Store) (name : String) : ScopeId → ScopeId → Prop
  | here {id : ScopeId} : (s.scope id).binds name = true → Finds s name id id
  | around {id outer place : ScopeId} : (s.scope id).binds name = false → s.outer? id = some outer →
    Finds s name outer place → Finds s name id place

/-- A scope that binds the name is where a search from it ends. -/
theorem finds_iff_of_binds (h : (s.scope id).binds name = true) :
    s.Finds name id place ↔ place = id := by
  constructor
  · intro hfinds
    cases hfinds with
    | here => rfl
    | around hunbound => rw [h] at hunbound; cases hunbound
  · rintro rfl
    exact .here h

/-- Without the name, a scope finds what the scope finds in which it was opened. -/
theorem finds_iff_of_link (h : (s.scope id).binds name = false) (hlink : s.outer? id = some outer) :
    s.Finds name id place ↔ s.Finds name outer place := by
  constructor
  · intro hfinds
    cases hfinds with
    | here hbinds => rw [h] at hbinds; cases hbinds
    | around _ hother hrest =>
      rw [hlink] at hother
      cases hother
      exact hrest
  · exact .around h hlink

/-- An outermost scope without the name finds nothing. -/
theorem not_finds_of_last (h : (s.scope id).binds name = false) (hlast : s.outer? id = none) :
    ¬ s.Finds name id place := by
  intro hfinds
  cases hfinds with
  | here hbinds => rw [h] at hbinds; cases hbinds
  | around _ hlink => rw [hlast] at hlink; cases hlink

/-- Following the links finds the first of the scopes that they lead through to bind the name. -/
theorem Leads.finds_iff {scopes : List ScopeId} (h : s.Leads id scopes) :
    s.Finds name id place ↔ scopes.find? (fun id => (s.scope id).binds name) = some place := by
  induction h with
  | @last id hlast =>
    cases hbinds : (s.scope id).binds name with
    | true => simp [finds_iff_of_binds hbinds, hbinds, eq_comm]
    | false => simp [not_finds_of_last hbinds hlast, hbinds]
  | @next id outer rest hlink _ ih =>
    cases hbinds : (s.scope id).binds name with
    | true => simp [finds_iff_of_binds hbinds, hbinds, eq_comm]
    | false => rw [finds_iff_of_link hbinds hlink, ih, List.find?_cons_of_neg (by simp [hbinds])]

/-- What is found along the links is what the search from scope to scope finds. -/
theorem Linked.finds_iff (hs : s.Linked) (hid : id.index < s.scopes.size) :
    s.Finds name id place ↔ s.binder? id name = some place :=
  (hs.leads_chain hid).finds_iff

/-! ## Trees of scopes -/

/-- Binding a name in a scope that is not there changes nothing. -/
theorem bindName_of_le (h : s.scopes.size ≤ place.index) : s.bindName place name value = s := by
  have hsame : s.scopes.modify place.index (·.put name value) = s.scopes := by
    refine Array.ext (by simp) fun i _ hi => ?_
    have hne : place.index ≠ i := by omega
    simp [Array.getElem_modify, hne]
  rw [bindName, modifyScope, hsame]

/-- A binding moves no scope. -/
theorem Linked.bindName (hs : s.Linked) : (s.bindName place name value).Linked := by
  by_cases hthere : place.index < s.scopes.size
  · exact (bindsOnce_bindName hthere name value).linked hs
  · rwa [bindName_of_le (Nat.le_of_not_lt hthere)]

/-- **A call of a host makes a tree of a tree.** -/
theorem Linked.perform (hs : s.Linked) {call : ScopeCall} (hhere : call.here.index < s.scopes.size) :
    (s.perform call).Linked := by
  cases call with
  | enclose here =>
    have hstep : Step (fun _ => True) s (s.enclose here).2 := .enclose hhere
    exact hstep.linked hs
  | define | set | assign => exact getD_map_bindName hs fun _ _ => hs.bindName

/-- Calls on scopes keep them linked. -/
theorem Linked.calls {calls : List ScopeCall} (h : Calls s calls s') (hs : s.Linked) : s'.Linked := by
  induction h with
  | nil => exact hs
  | cons hhere _ ih => exact ih (hs.perform hhere)

/-! ## The walks -/

/-- A name that no scope binds is undefined. -/
theorem lookup_of_unbound (h : s.binder? id name = none) :
    s.lookup id name = .error (.undefined name) := by
  unfold binder? at h
  simp [lookup, findSome?_get?, h]

/-- To set a name is to bind it again where it is bound. -/
theorem set_of_binder (h : s.binder? id name = some place) :
    s.set id name value = .ok (s.bindName place name value) := by
  rw [set, setPlace, h]
  rfl

/-- A name that no scope binds cannot be set. -/
theorem set_of_unbound (h : s.binder? id name = none) :
    s.set id name value = .error (.undefined name) := by
  rw [set, setPlace, h]
  rfl

/-- A name is bound as seen from a scope if it has a value from there. -/
theorem contains_iff_lookup : s.contains id name = true ↔ ∃ found, s.lookup id name = .ok found := by
  rw [contains_eq]
  cases hbinder : s.binder? id name with
  | none => simp [lookup_of_unbound hbinder]
  | some place =>
    obtain ⟨found, hfound⟩ := Option.isSome_iff_exists.mp (binds_of_binder hbinder)
    simp [lookup_of_binder hbinder hfound]

/-- The visible names are those that the scope or one outside it binds. -/
theorem mem_visibleNames : name ∈ s.visibleNames id ↔ s.contains id name = true := by
  rw [visibleNames, contains, List.mem_flatMap, List.any_eq_true]
  exact exists_congr fun scope => and_congr_right fun _ => Scope.binds_iff_mem_names.symm

/-- The names that are listed for a scope are those that are bound as seen from it. -/
theorem mem_sortedNames : name ∈ s.sortedNames id ↔ s.contains id name = true := by
  rw [sortedNames, List.mem_mergeSort, List.mem_eraseDups, mem_visibleNames]

/-! ## Binding a name anew -/

namespace BindsOnce

variable (h : s.BindsOnce place name value s') (hbinds : (s.scope place).binds name = true)

include h hbinds

/-- The same names are met on the way out from every scope. -/
theorem visibleNames_eq (id : ScopeId) : s'.visibleNames id = s.visibleNames id := by
  have hnames : ∀ scope, (s'.scope scope).bindings.map Prod.fst =
      (s.scope scope).bindings.map Prod.fst := h.names_eq hbinds
  simp only [visibleNames, h.chain_eq, hnames]

/-- Where the same names are visible, they are listed alike. -/
theorem sortedNames_eq (id : ScopeId) : s'.sortedNames id = s.sortedNames id := by
  rw [sortedNames, sortedNames, h.visibleNames_eq hbinds]

end BindsOnce

/-! ## The law -/

/-- **The walks over the scopes agree**, and where they end is where the links lead. Setting a name
gives it the value in that one place, so that it stands for it, and changes no list of names. -/
theorem visibility_agrees (s : Store) (here : ScopeId) (name : String) (value : Value) :
    (∃ place found s',
      s.contains here name = true ∧ s.lookup here name = .ok found ∧
      name ∈ s.sortedNames here ∧ s.set here name value = .ok s' ∧
      s'.lookup here name = .ok value ∧ (∀ id, s'.sortedNames id = s.sortedNames id) ∧
      (s.scope place).get? name = some found ∧ s.BindsOnce place name value s' ∧
      (s.Linked → here.index < s.scopes.size → s.Finds name here place)) ∨
    (s.contains here name = false ∧ s.lookup here name = .error (.undefined name) ∧
      name ∉ s.sortedNames here ∧ s.set here name value = .error (.undefined name) ∧
      (s.Linked → here.index < s.scopes.size → ∀ place, ¬ s.Finds name here place)) := by
  cases hbinder : s.binder? here name with
  | some place =>
    have hbinds := binds_of_binder hbinder
    have honce := bindsOnce_bindName (index_lt_of_binds hbinds) name value
    obtain ⟨found, hfound⟩ := Option.isSome_iff_exists.mp hbinds
    have hlookup := lookup_of_binder hbinder hfound
    have hcontains : s.contains here name = true := contains_iff_lookup.mpr ⟨found, hlookup⟩
    -- the search from `here` still ends in `place`, where the name has its new value
    have hvalue := lookup_of_binder ((honce.binder?_eq hbinds here name).trans hbinder) honce.bound
    exact .inl ⟨place, found, _, hcontains, hlookup, mem_sortedNames.mpr hcontains,
      set_of_binder hbinder, hvalue, honce.sortedNames_eq hbinds, hfound, honce,
      fun hs hhere => (hs.finds_iff hhere).mpr hbinder⟩
  | none =>
    have hcontains : s.contains here name = false := by rw [contains_eq, hbinder]; rfl
    have hunlisted : name ∉ s.sortedNames here := by simp [mem_sortedNames, hcontains]
    refine .inr ⟨hcontains, lookup_of_unbound hbinder, hunlisted, set_of_unbound hbinder, ?_⟩
    intro hs hhere place hfinds
    rw [hs.finds_iff hhere, hbinder] at hfinds
    cases hfinds

/-- From a scope between two that bind a name, the outer one is read and written to; the inner one is
not on the way, and neither is what a sibling binds. -/
theorem visibility_agrees_between :
    let calls : List ScopeCall := [.enclose outermost, .enclose ⟨1⟩, .enclose ⟨2⟩, .enclose ⟨1⟩,
      .define ⟨1⟩ "x" (.integer 1), .define ⟨3⟩ "x" (.integer 3), .define ⟨4⟩ "y" (.integer 4)]
    let s := calls.foldl perform initial.2
    s.Linked ∧ 2 < s.scopes.size ∧
      (∃ s', s.set ⟨2⟩ "x" (.integer 7) = .ok s' ∧ s.BindsOnce ⟨1⟩ "x" (.integer 7) s' ∧
        s'.lookup ⟨2⟩ "x" = .ok (.integer 7) ∧ s'.lookup ⟨3⟩ "x" = .ok (.integer 3) ∧
        ∀ id, s'.sortedNames id = s.sortedNames id) ∧
      s.set ⟨2⟩ "y" (.integer 7) = .error (.undefined "y") ∧ ∀ place, ¬ s.Finds "y" ⟨2⟩ place := by
  intro calls s
  have hcalls : Calls initial.2 calls s :=
    .cons (by decide +kernel) (.cons (by decide +kernel) (.cons (by decide +kernel)
      (.cons (by decide +kernel) (.cons (by decide +kernel) (.cons (by decide +kernel)
        (.cons (by decide +kernel) .nil))))))
  have hs : s.Linked := linked_initial.calls hcalls
  have hhere : (⟨2⟩ : ScopeId).index < s.scopes.size := by decide +kernel
  refine ⟨hs, hhere, ?_, ?_⟩
  · rcases visibility_agrees s ⟨2⟩ "x" (.integer 7) with
      ⟨place, _, s', -, -, -, hset, hvalue, hnames, -, honce, hfinds⟩ | ⟨hunbound, -⟩
    · have hplace : some place = some ⟨1⟩ :=
        ((hs.finds_iff hhere).mp (hfinds hs hhere)).symm.trans (by decide +kernel)
      cases hplace
      refine ⟨s', hset, honce, hvalue, ?_, hnames⟩
      rw [honce.lookup_eq, honce.binder?_eq (by decide +kernel), if_neg (by decide +kernel)]
      rfl
    · exact absurd hunbound (by decide +kernel)
  · rcases visibility_agrees s ⟨2⟩ "y" (.integer 7) with
      ⟨_, _, _, hbound, -⟩ | ⟨-, -, -, hset, hfinds⟩
    · exact absurd hbound (by decide +kernel)
    · exact ⟨hset, hfinds hs hhere⟩

end Store

end Abacus
