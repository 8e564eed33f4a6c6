import Abacus.Proofs.Store.Isolation
import Abacus.Proofs.Store.ScopeCalls

/-!
# What an assignment changes

Scopes form a tree: several may stand inside one, and a name that one of them changes is seen by
all that see the same binding. An assignment first asks whether the name is bound around the scope
where it stands, and then looks for the scope to write to. Both walk over the same chain, so what
the question found is what is written to.

`Store.BindsOnce place name value` says that a store differs from an earlier one in one binding. What
the other scopes see of it is not part of that: `BindsOnce.lookup_eq` derives it, from the scope in
which a search for the name ends.

**The law** (`Store.assignment_binds_once`): an assignment to a name that is not reserved makes or
changes one binding, in its own scope or where the search from there ends, and every search that
ends elsewhere finds what it found before; an assignment to a reserved name does nothing.
-/

namespace Abacus

namespace Store

/-! ## Searches -/

section Searches

variable {s : Store} {id place : ScopeId} {name : String} {value : Value}

/-- The value that a list of scopes gives to a name is that of the first of them that binds it. -/
theorem findSome?_get? (s : Store) (name : String) (scopes : List ScopeId) :
    (scopes.findSome? fun id => (s.scope id).get? name) =
      (scopes.find? fun id => (s.scope id).binds name).bind fun id => (s.scope id).get? name := by
  induction scopes with
  | nil => rfl
  | cons id rest ih =>
    cases hget : (s.scope id).get? name with
    | none =>
      have hbinds : (s.scope id).binds name = false := by simp [Scope.binds, hget]
      simp [hget, hbinds, ih]
    | some value =>
      have hbinds : (s.scope id).binds name = true := by simp [Scope.binds, hget]
      simp [hget, hbinds]

/-- A scope that binds a name is there. -/
theorem index_lt_of_binds (h : (s.scope place).binds name = true) :
    place.index < s.scopes.size := by
  by_contra hout
  rw [scope_of_le (Nat.le_of_not_lt hout)] at h
  cases h

/-- A name stands for what the innermost scope that binds it gives to it. -/
theorem lookup_of_binder (h : s.binder? id name = some place)
    (hvalue : (s.scope place).get? name = some value) : s.lookup id name = .ok value := by
  unfold binder? at h
  simp [lookup, findSome?_get?, h, hvalue]

/-- Whether a name is bound around a scope is whether a search for it ends. -/
theorem contains_eq (s : Store) (id : ScopeId) (name : String) :
    s.contains id name = (s.binder? id name).isSome := by
  rw [Bool.eq_iff_iff, contains, binder?, List.any_eq_true, List.find?_isSome]

end Searches

/-! ## One binding -/

/-- The later store has the parts of the earlier one as they were, but for one binding of one scope:
there the name stands for the value now, whether or not it was bound before. -/
structure BindsOnce (place : ScopeId) (name : String) (value : Value) (s s' : Store) : Prop where
  bound : (s'.scope place).get? name = some value
  /-- The scope binds no name anew but this one, and this one only once. -/
  names : (s'.scope place).names =
    if (s.scope place).binds name then (s.scope place).names else name :: (s.scope place).names
  /-- Every other name of the scope stands for what it stood for. -/
  kept : ∀ other, other ≠ name → (s'.scope place).get? other = (s.scope place).get? other
  around : (s'.scope place).around = (s.scope place).around
  reserved : (s'.scope place).reserved = (s.scope place).reserved
  /-- Every other scope is what it was. -/
  elsewhere : ∀ id, id ≠ place → s'.scope id = s.scope id
  size : s'.scopes.size = s.scopes.size
  /-- Scopes apart, nothing has changed. -/
  rest : s' = { s with scopes := s'.scopes }

/-- Binding a name in a scope that is there is one binding. -/
theorem bindsOnce_bindName {s : Store} {place : ScopeId} (h : place.index < s.scopes.size)
    (name : String) (value : Value) : s.BindsOnce place name value (s.bindName place name value) := by
  have hput : (s.bindName place name value).scope place = (s.scope place).put name value :=
    scope_bindName_self h
  constructor
  case bound => rw [hput, Scope.get?_put_self]
  case names =>
    rw [hput]
    by_cases hbinds : (s.scope place).binds name
    · rw [Scope.names_put_of_binds hbinds, if_pos hbinds]
    · simp [Scope.put, Scope.names, hbinds]
  case kept =>
    intro other hne
    rw [hput, Scope.get?_put_of_ne hne]
  case around => rw [hput]; rfl
  case reserved => rw [hput]; rfl
  case elsewhere =>
    intro id hne
    exact scope_bindName_of_ne hne
  case size => simp [bindName, modifyScope]
  case rest => rfl

namespace BindsOnce

variable {place : ScopeId} {name : String} {value : Value} {s s' : Store}

/-- No scope stands elsewhere than it did. -/
theorem around_eq (h : s.BindsOnce place name value s') (id : ScopeId) :
    (s'.scope id).around = (s.scope id).around := by
  by_cases hid : id = place
  · rw [hid, h.around]
  · rw [h.elsewhere id hid]

/-- To bind a name leaves the chains of scopes as they are. -/
theorem chain_eq (h : s.BindsOnce place name value s') (id : ScopeId) : s'.chain id = s.chain id := by
  rw [chain, chain, h.around_eq]

/-- The tree of scopes is the tree that it was. -/
theorem linked (h : s.BindsOnce place name value s') (hs : s.Linked) : s'.Linked := by
  intro id hid
  rw [h.around_eq]
  rcases hs id (h.size ▸ hid) with hnone | ⟨outer, hlt, haround⟩
  · exact .inl hnone
  · exact .inr ⟨outer, hlt, by rw [haround, h.chain_eq]⟩

/-- Of all bindings of all scopes, one has changed. -/
theorem get?_of_ne (h : s.BindsOnce place name value s') {id : ScopeId} {other : String}
    (hne : id ≠ place ∨ other ≠ name) : (s'.scope id).get? other = (s.scope id).get? other := by
  by_cases hid : id = place
  · subst hid
    exact h.kept other (hne.resolve_left fun hne => hne rfl)
  · rw [h.elsewhere id hid]

/-- Every other name stands for what it stood for, from every scope. -/
theorem lookup_of_name_ne (h : s.BindsOnce place name value s') (id : ScopeId) {other : String}
    (hne : other ≠ name) : s'.lookup id other = s.lookup id other := by
  have hget : ∀ scope, (s'.scope scope).get? other = (s.scope scope).get? other := by
    intro scope
    exact h.get?_of_ne (.inr hne)
  simp only [lookup, h.chain_eq, hget]

/-- Where the name was bound before, no scope has another name. -/
theorem names_eq (h : s.BindsOnce place name value s') (hbinds : (s.scope place).binds name = true)
    (id : ScopeId) : (s'.scope id).names = (s.scope id).names := by
  by_cases hid : id = place
  · rw [hid, h.names, if_pos hbinds]
  · rw [h.elsewhere id hid]

/-- To bind again what is bound there makes no name visible that was not. -/
theorem binds_eq (h : s.BindsOnce place name value s') (hbinds : (s.scope place).binds name = true)
    (id : ScopeId) (other : String) : (s'.scope id).binds other = (s.scope id).binds other := by
  rw [Bool.eq_iff_iff, Scope.binds_iff_mem_names, Scope.binds_iff_mem_names, h.names_eq hbinds]

/-- Where the name was bound before, every search ends where it ended before. -/
theorem binder?_eq (h : s.BindsOnce place name value s')
    (hbinds : (s.scope place).binds name = true) (id : ScopeId) (other : String) :
    s'.binder? id other = s.binder? id other := by
  simp only [binder?, h.chain_eq, h.binds_eq hbinds]

/-- A list of scopes of which the first to bind the name is not the changed one gives the name what
it gave it. -/
theorem findSome?_eq (h : s.BindsOnce place name value s') {scopes : List ScopeId}
    (hne : (scopes.find? fun id => (s'.scope id).binds name) ≠ some place) :
    (scopes.findSome? fun id => (s'.scope id).get? name) =
      scopes.findSome? fun id => (s.scope id).get? name := by
  induction scopes with
  | nil => rfl
  | cons id rest ih =>
    by_cases hid : id = place
    · -- the changed scope binds the name, so the search would end here
      subst hid
      have hbinds : (s'.scope id).binds name = true := by simp [Scope.binds, h.bound]
      simp [hbinds] at hne
    · have hsame : (s'.scope id).get? name = (s.scope id).get? name := h.get?_of_ne (.inl hid)
      rw [List.findSome?_cons, List.findSome?_cons, hsame]
      cases hget : (s.scope id).get? name with
      | some found => rfl
      | none =>
        have hbinds : (s'.scope id).binds name = false := by simp [Scope.binds, hsame, hget]
        apply ih
        simpa [hbinds] using hne

/-- **What a name stands for after it has been bound in one scope**: the value, wherever the search
for it ends in that scope, and what it stood for everywhere else. -/
theorem lookup_eq (h : s.BindsOnce place name value s') (id : ScopeId) :
    s'.lookup id name =
      if s'.binder? id name = some place then .ok value else s.lookup id name := by
  split
  · next hbinder => exact lookup_of_binder hbinder h.bound
  · next hne =>
    unfold binder? at hne
    rw [h.chain_eq] at hne
    simp only [lookup, h.chain_eq, h.findSome?_eq hne]

end BindsOnce

/-! ## Assignments -/

/-- Where an assignment binds a name: in the innermost scope that binds it already, unless it is
marked local or there is no such scope; then in the scope where the assignment stands. -/
def assigned (s : Store) (here : ScopeId) (name : String) (isLocal : Bool) : ScopeId :=
  if isLocal then here else (s.binder? here name).getD here

variable {s : Store} {here : ScopeId} {name : String}

/-- The scope that is asked for the name is the scope that is written to. -/
theorem assignPlace_eq (h : s.isReserved here name = false) (isLocal : Bool) :
    s.assignPlace here name isLocal = .ok (s.assigned here name isLocal) := by
  unfold assignPlace checkAssignable assigned setPlace
  rw [contains_eq]
  cases isLocal with
  | true => simp [h, bind, Except.bind, pure, Except.pure]
  | false =>
    cases hbinder : s.binder? here name with
    | none => simp [h, bind, Except.bind, pure, Except.pure]
    | some place => simp [h, bind, Except.bind]

/-- That scope is there, if the one where the assignment stands is. -/
theorem assigned_lt (hhere : here.index < s.scopes.size) (name : String) (isLocal : Bool) :
    (s.assigned here name isLocal).index < s.scopes.size := by
  unfold assigned
  cases isLocal with
  | true => simpa using hhere
  | false =>
    cases hbinder : s.binder? here name with
    | none => simpa using hhere
    | some place => simpa using index_lt_of_binds (binds_of_binder hbinder)

/-- After the assignment, a search for the name from where it stands ends in that scope. -/
theorem BindsOnce.binder?_assigned {isLocal : Bool} {value : Value} {s' : Store}
    (h : s.BindsOnce (s.assigned here name isLocal) name value s') :
    s'.binder? here name = some (s.assigned here name isLocal) := by
  have hbound : (s'.scope (s.assigned here name isLocal)).binds name = true := by
    simp [Scope.binds, h.bound]
  by_cases hplace : s.assigned here name isLocal = here
  · rw [hplace] at hbound ⊢
    simp [binder?, chain, hbound]
  · have hbinder : s.binder? here name = some (s.assigned here name isLocal) := by
      unfold assigned at hplace ⊢
      cases isLocal with
      | true => simp at hplace
      | false => cases hfound : s.binder? here name <;> simp_all
    rw [h.binder?_eq (binds_of_binder hbinder), hbinder]

/-- **An assignment has one effect.** -/
theorem assignment_binds_once (hhere : here.index < s.scopes.size) (name : String) (value : Value)
    (isLocal : Bool) :
    (s.isReserved here name = true →
      s.assign here name value isLocal = .error (.reserved name) ∧
      s.perform (.assign here name value isLocal) = s) ∧
    (s.isReserved here name = false →
      ∃ s' place, s.assign here name value isLocal = .ok s' ∧
        place = (if isLocal then here else (s.binder? here name).getD here) ∧
        s.BindsOnce place name value s' ∧
        s'.lookup here name = .ok value ∧
        (∀ id other, other ≠ name → s'.lookup id other = s.lookup id other) ∧
        (∀ id, s'.lookup id name =
          if s'.binder? id name = some place then .ok value else s.lookup id name) ∧
        (s.Linked → s.Leads here (s.chain here) ∧ s'.Linked)) := by
  constructor
  · intro hreserved
    have hplace : s.assignPlace here name isLocal = .error (.reserved name) := by
      simp [assignPlace, checkAssignable, hreserved, bind, Except.bind]
    constructor
    · rw [assign, hplace]
      rfl
    · rw [perform, assign, hplace]
      rfl
  · intro hfree
    have hplace := assignPlace_eq hfree isLocal
    have honce := bindsOnce_bindName (assigned_lt hhere name isLocal) name value
    have hassign : s.assign here name value isLocal =
        .ok (s.bindName (s.assigned here name isLocal) name value) := by
      rw [assign, hplace]
      rfl
    have hvalue := lookup_of_binder honce.binder?_assigned honce.bound
    exact ⟨_, _, hassign, rfl, honce, hvalue, fun id _ hne => honce.lookup_of_name_ne id hne,
      honce.lookup_eq, fun hs => ⟨hs.leads_chain hhere, honce.linked hs⟩⟩

/-- Of two scopes that share the one around them, the inner scope of one changes a name there, and the
other sees it; a scope that binds the name itself does not. -/
theorem assignment_seen_by_sibling :
    let calls := [.enclose outermost, .enclose ⟨1⟩, .enclose ⟨1⟩, .enclose ⟨3⟩,
      .define ⟨1⟩ "x" (.integer 1), .define ⟨4⟩ "x" (.integer 4)]
    let s := calls.foldl perform initial.2
    2 < s.scopes.size ∧ s.isReserved ⟨2⟩ "x" = false ∧
      ∃ s', s.assign ⟨2⟩ "x" (.integer 7) false = .ok s' ∧ s.BindsOnce ⟨1⟩ "x" (.integer 7) s' ∧
        s'.lookup ⟨2⟩ "x" = .ok (.integer 7) ∧ s'.lookup ⟨3⟩ "x" = .ok (.integer 7) ∧
        s'.lookup ⟨4⟩ "x" = .ok (.integer 4) := by
  intro calls s
  have hhere : (⟨2⟩ : ScopeId).index < s.scopes.size := by decide +kernel
  have hfree : s.isReserved ⟨2⟩ "x" = false := by decide +kernel
  obtain ⟨s', place, hassign, hplace, honce, hvalue, -, hlookup, -⟩ :=
    (assignment_binds_once hhere "x" (.integer 7) false).2 hfree
  have hone : place = ⟨1⟩ := hplace.trans (by decide +kernel)
  have hafter : s.assign ⟨2⟩ "x" (.integer 7) false = .ok (s.bindName ⟨1⟩ "x" (.integer 7)) := rfl
  rw [hone] at honce hlookup
  obtain rfl : s.bindName ⟨1⟩ "x" (.integer 7) = s' := Except.ok.inj (hafter.symm.trans hassign)
  refine ⟨hhere, hfree, _, hassign, honce, hvalue, ?_, ?_⟩
  · rw [hlookup, if_pos (by decide +kernel)]
  · rw [hlookup, if_neg (by decide +kernel)]
    rfl

end Store

end Abacus
