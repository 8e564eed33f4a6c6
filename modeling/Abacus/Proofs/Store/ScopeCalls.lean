import Abacus.Proofs.Store.Reserved

/-!
# Scopes used from outside

A host can open scopes and bind names in them without any program: it defines a name, sets one that
is bound, or assigns to one as a program does. Defining and assigning refuse the names of what is
built in. Setting asks only where the name is bound, so it reaches the outermost scope from
everywhere and rebinds what is built in for all scopes at once.

**The law** (`Store.builtins_after_calls`): after any calls on any of the scopes, the name of what is
built in stands from every scope for what the last setting of it gave, and for what it stood for at
first if nothing has set it.
-/

namespace Abacus

/-- A use of one scope by the host. -/
inductive ScopeCall where
  | enclose (here : ScopeId)
  | define (here : ScopeId) (name : String) (value : Value)
  | set (here : ScopeId) (name : String) (value : Value)
  | assign (here : ScopeId) (name : String) (value : Value) (isLocal : Bool)

namespace ScopeCall

/-- The scope that a call uses. -/
def here : ScopeCall → ScopeId
  | .enclose here | .define here _ _ | .set here _ _ | .assign here _ _ _ => here

/-- The value that a call gives to a name if it sets it. -/
def gives? (name : String) : ScopeCall → Option Value
  | .set _ other value => if other = name then some value else none
  | _ => none

/-- The value that the last of the calls that set a name gives to it. -/
def given? (name : String) : List ScopeCall → Option Value
  | [] => none
  | call :: calls => (given? name calls).or (call.gives? name)

/-- A name that no call sets has been given nothing. -/
theorem given?_of_not_set {name : String} {calls : List ScopeCall}
    (h : ∀ here value, .set here name value ∉ calls) : given? name calls = none := by
  induction calls with
  | nil => rfl
  | cons call calls ih =>
    have hcall : call.gives? name = none := by
      cases call with
      | set here other value =>
        refine if_neg fun heq => h here value ?_
        exact heq ▸ List.mem_cons_self
      | _ => rfl
    rw [given?, hcall, ih fun here value hmem => h here value (List.mem_cons_of_mem _ hmem)]
    rfl

end ScopeCall

namespace Store

/-- The store after a call: one that is refused leaves it as it was. -/
def perform (s : Store) : ScopeCall → Store
  | .enclose here => (s.enclose here).2
  | .define here name value => (s.define here name value).toOption.getD s
  | .set here name value => (s.set here name value).toOption.getD s
  | .assign here name value isLocal => (s.assign here name value isLocal).toOption.getD s

/-- Calls one after the other, each on a scope that is there when it is made. -/
inductive Calls : Store → List ScopeCall → Store → Prop
  | nil {s : Store} : Calls s [] s
  | cons {s s' : Store} {call : ScopeCall} {calls : List ScopeCall} :
    call.here.index < s.scopes.size → Calls (s.perform call) calls s' → Calls s (call :: calls) s'

variable {held : String → Option Value} {s s' : Store} {here place : ScopeId} {name : String}
  {value : Value}

/-- A name that may be defined is not reserved. -/
theorem of_definePlace (h : s.definePlace here name = .ok place) : s.isReserved here name = false := by
  unfold definePlace checkAssignable at h
  by_cases hreserved : s.isReserved here name
  · rw [if_pos hreserved] at h
    cases h
  · exact Bool.eq_false_iff.mpr hreserved

/-- What holds if a call is refused, and wherever it finds a place to bind, holds after it. -/
theorem getD_map_bindName {found : Except NameFault ScopeId} {P : Store → Prop} (hrefused : P s)
    (hbound : ∀ place, found = .ok place → P (s.bindName place name value)) :
    P ((found.map (s.bindName · name value)).toOption.getD s) := by
  cases found with
  | error _ => exact hrefused
  | ok place => exact hbound place rfl

/-- Setting a reserved name reaches the outermost scope. -/
theorem Walled.setPlace_of_mem (hs : s.Walled held) (hhere : here.index < s.scopes.size)
    (hname : name ∈ Scope.global.reserved) : s.setPlace here name = .ok outermost := by
  have hbinds : (s.scope outermost).binds name = true := by
    rw [Scope.binds, hs.holds hname]
    exact hs.bound hname
  unfold setPlace
  cases hbinder : s.binder? here name with
  | none =>
    have hnone := List.find?_eq_none.mp hbinder outermost (hs.inside hhere)
    exact absurd hbinds hnone
  | some found =>
    have hfound := binds_of_binder hbinder
    by_cases hout : found = outermost
    · rw [hout]
    · rw [hs.unbound hout hname] at hfound
      cases hfound

/-- Setting a name gives it its value if it is a reserved one, and no other reserved name one. -/
theorem Walled.set (hs : s.Walled held) (hhere : here.index < s.scopes.size) :
    ((s.set here name value).toOption.getD s).Walled fun other =>
      (if name = other then some value else none).or (held other) := by
  unfold Store.set
  by_cases hname : name ∈ Scope.global.reserved
  · rw [hs.setPlace_of_mem hhere hname]
    refine (hs.bindName (.inl rfl)).congr fun other _ => ?_
    by_cases heq : name = other
    · rw [if_pos heq, heq, Function.update_self]
      rfl
    · rw [if_neg heq, Function.update_of_ne (Ne.symm heq)]
      rfl
  · have hother : ∀ other ∈ Scope.global.reserved,
        held other = (if name = other then some value else none).or (held other) := by
      intro other hmem
      have hne : name ≠ other := by
        rintro rfl
        exact hname hmem
      rw [if_neg hne]
      rfl
    exact getD_map_bindName (hs.congr hother) fun _ _ => (hs.bindName_of_not_mem hname).congr hother

/-- **A call gives a reserved name another value only by setting it.** -/
theorem Walled.perform (hs : s.Walled held) {call : ScopeCall}
    (hhere : call.here.index < s.scopes.size) :
    (s.perform call).Walled fun name => (call.gives? name).or (held name) := by
  cases call with
  | enclose here => exact hs.enclose hhere
  | define here name value =>
    exact getD_map_bindName hs fun place hplace =>
      hs.bindName_of_not_mem (hs.not_mem_reserved hhere (of_definePlace hplace))
  | set here name value => exact hs.set hhere
  | assign here name value isLocal =>
    exact getD_map_bindName hs fun place hplace =>
      hs.bindName_of_not_mem (hs.not_mem_reserved hhere (of_assignPlace hplace).1)

/-- **What any calls give to the reserved names.** -/
theorem Walled.calls (hs : s.Walled held) {calls : List ScopeCall} (h : Calls s calls s') :
    s'.Walled fun name => (ScopeCall.given? name calls).or (held name) := by
  induction h generalizing held with
  | nil => exact hs
  | cons hhere _ ih =>
    refine (ih (hs.perform hhere)).congr fun name _ => ?_
    rw [ScopeCall.given?, Option.or_assoc]

/-- **After any calls, what is built in is what it was unless its name has been set.** -/
theorem builtins_after_calls {calls : List ScopeCall} (h : Calls initial.2 calls s)
    (hbuiltin : (name, value) ∈ Scope.builtins) {id : ScopeId} (hid : id.index < s.scopes.size) :
    s.lookup id name = .ok ((ScopeCall.given? name calls).getD value) ∧
      ((∀ here given, .set here name given ∉ calls) → s.lookup id name = .ok value) := by
  have hs := (guarded_iff.mp guarded_initial).calls h
  have hlookup : s.lookup id name = .ok ((ScopeCall.given? name calls).getD value) := by
    refine hs.lookup hid (List.mem_map_of_mem hbuiltin) ?_
    rw [Scope.get?_global hbuiltin]
    cases ScopeCall.given? name calls <;> rfl
  refine ⟨hlookup, fun hnot => ?_⟩
  rw [hlookup, ScopeCall.given?_of_not_set hnot]
  rfl

/-- A definition and an assignment are refused, and a name that the host is free to use is set from
an inner scope. -/
theorem pi_after_calls :
    let pi := Value.number (.real 3.141592653589793)
    let calls := [.enclose outermost, .define outermost "x" (.integer 1),
      .assign ⟨1⟩ "pi" (.integer 2) true, .set ⟨1⟩ "x" (.integer 3)]
    ∃ s, Calls initial.2 calls s ∧ ("pi", pi) ∈ Scope.builtins ∧
      (∀ here given, ScopeCall.set here "pi" given ∉ calls) ∧ s.lookup ⟨1⟩ "pi" = .ok pi := by
  intro pi calls
  have hcalls : Calls initial.2 calls (calls.foldl perform initial.2) :=
    .cons (by decide +kernel) (.cons (by decide +kernel) (.cons (by decide +kernel)
      (.cons (by decide +kernel) .nil)))
  have hpi : ("pi", pi) ∈ Scope.builtins :=
    List.mem_append_left _ (List.mem_append_right _ List.mem_cons_self)
  have hnot : ∀ here given, ScopeCall.set here "pi" given ∉ calls := by
    intro here given hmem
    simp [calls] at hmem
  exact ⟨_, hcalls, hpi, hnot, (builtins_after_calls hcalls hpi (by decide +kernel)).2 hnot⟩

/-- One setting of a reserved name in an inner scope, and it stands for something else everywhere. -/
theorem pi_rebound_by_set :
    let pi := Value.number (.real 3.141592653589793)
    ∃ s, Calls initial.2 [.enclose outermost, .set ⟨1⟩ "pi" (.integer 3)] s ∧
      ("pi", pi) ∈ Scope.builtins ∧ s.lookup outermost "pi" = .ok (.integer 3) ∧
      s.lookup ⟨1⟩ "pi" = .ok (.integer 3) ∧ Value.integer 3 ≠ pi := by
  intro pi
  refine ⟨_, .cons (by decide +kernel) (.cons (by decide +kernel) .nil),
    List.mem_append_left _ (List.mem_append_right _ List.mem_cons_self), rfl, rfl, ?_⟩
  intro heq
  injection heq with heq
  cases heq

end Store

end Abacus
