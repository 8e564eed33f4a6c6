import Abacus.Proofs.Run.Action
import Abacus.Proofs.Store.Step
import Abacus.Run.Evaluate

/-!
# The scope of a call

A call of a function opens a scope inside the function's own and binds the parameters there, one
after the other. A parameter that is named twice would lose its first argument to the second.

**The law** (`Action.callScope_binds`): where the parameters are different and none of them is a
reserved name, all of them are bound, and each stands for its argument.
-/

namespace Abacus.Action

/-- Opens the scope of a call and binds the parameters. -/
def callScope (closure : Closure) (arguments : List Value) (position : Position) :
    Action ScopeId := do
  let scope ← enclose closure.scope
  bindAll scope position closure.parameters arguments
  return scope

/-- A function that is called with as many arguments as it has parameters is evaluated in the scope
of the call. -/
theorem apply_function (fuel : Nat) {closure : Closure} {arguments : List Value}
    (h : closure.parameters.length = arguments.length) (position : Position) :
    apply (fuel + 1) (.function closure) arguments position =
      callScope closure arguments position >>= evaluate (apply fuel) closure.body := by
  rw [apply, callScope, if_neg (by simpa using h)]
  simp only [bind_assoc, pure_bind]

variable {s : Store} {id : ScopeId}

/-- Nothing but a reserved name keeps a definition from being made. -/
theorem define_of_free {name : String} {value : Value} {position : Position}
    (h : s.isReserved id name = false) :
    bindName (·.definePlace id name) name value position s = .ok () (s.bindName id name value) := by
  have hplace : s.definePlace id name = .ok id := by
    rw [Store.definePlace, Store.checkAssignable, if_neg (by simp [h])]
    rfl
  have hname : ofName (·.definePlace id name) position s = .ok id s := by
    simp only [ofName, hplace]
  rw [bindName, bind_ok hname]
  rfl

/-- Different names are bound to their values, and no other name is. -/
theorem bindAll_binds (position : Position) {names : List String} {values : List Value}
    (hid : id.index < s.scopes.size) (hlength : names.length = values.length)
    (hnodup : names.Nodup) (hfree : ∀ name ∈ names, s.isReserved id name = false) :
    ∃ s', bindAll id position names values s = .ok () s' ∧
      (∀ (i : Nat) (name : String) (value : Value), names[i]? = some name →
        values[i]? = some value → (s'.scope id).get? name = some value) ∧
      ∀ other, other ∉ names → (s'.scope id).get? other = (s.scope id).get? other := by
  induction names generalizing values s with
  | nil =>
    refine ⟨s, ?_, fun i _ _ hname => by simp at hname, fun _ _ => rfl⟩
    unfold bindAll
    rfl
  | cons name names ih =>
    obtain _ | ⟨value, values⟩ := values
    · cases hlength
    obtain ⟨hnew, hnodup⟩ := List.nodup_cons.mp hnodup
    obtain ⟨hname, hfree⟩ := List.forall_mem_cons.mp hfree
    have hscope : (s.bindName id name value).scope id = (s.scope id).put name value :=
      Store.scope_bindName_self hid
    have hfree' : ∀ other ∈ names, (s.bindName id name value).isReserved id other = false := by
      intro other hother
      rw [Store.isReserved, hscope]
      exact hfree other hother
    obtain ⟨s', hrun, hbound, hkept⟩ := ih
      (by simpa [Store.bindName, Store.modifyScope] using hid) (Nat.succ.inj hlength) hnodup hfree'
    refine ⟨s', ?_, ?_, ?_⟩
    · rw [bindAll, bind_ok (define_of_free hname)]
      exact hrun
    · rintro (_ | i) other v hother hv
      · -- no later parameter has the name of the first
        simp only [List.getElem?_cons_zero, Option.some.injEq] at hother hv
        subst hother hv
        rw [hkept _ hnew, hscope, Scope.get?_put_self]
      · exact hbound i other v hother hv
    · intro other hother
      obtain ⟨hne, hother⟩ := List.ne_and_not_mem_of_not_mem_cons hother
      rw [hkept other hother, hscope, Scope.get?_put_of_ne hne]

/-- **Different parameters that are not reserved are bound, each to its argument.** -/
theorem callScope_binds {closure : Closure} {arguments : List Value} {position : Position}
    (hlength : closure.parameters.length = arguments.length) (hnodup : closure.parameters.Nodup)
    (hfree : ∀ name ∈ closure.parameters, s.isReserved closure.scope name = false) :
    ∃ scope s', callScope closure arguments position s = .ok scope s' ∧
      ∀ (i : Nat) (name : String) (value : Value), closure.parameters[i]? = some name →
        arguments[i]? = some value → s'.lookup scope name = .ok value := by
  have hinner : (s.enclose closure.scope).2.scope ⟨s.scopes.size⟩ =
      (s.scope closure.scope).inside closure.scope := Store.scope_enclose s closure.scope
  have hfree' : ∀ name ∈ closure.parameters,
      (s.enclose closure.scope).2.isReserved ⟨s.scopes.size⟩ name = false := by
    intro name hname
    rw [Store.isReserved, hinner]
    exact hfree name hname
  obtain ⟨s', hrun, hbound, -⟩ := bindAll_binds position
    (by simp [Store.enclose, Store.addScope]) hlength hnodup hfree'
  refine ⟨⟨s.scopes.size⟩, s', ?_, ?_⟩
  · show (bindAll ⟨s.scopes.size⟩ position closure.parameters arguments >>= fun _ => _) _ = _
    rw [bind_ok hrun]
    rfl
  · intro i name value hname hvalue
    rw [Store.lookup, Store.chain, List.findSome?_cons, hbound i name value hname hvalue]

end Abacus.Action
