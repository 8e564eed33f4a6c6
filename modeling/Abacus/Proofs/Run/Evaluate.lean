import Abacus.Proofs.Run.Natives
import Abacus.Run.Source

/-!
# Programs in steps

A program binds names only in scopes that are free: in the scope in which it is evaluated if that is
one, and in the scopes that it opens. So evaluating an expression and calling a value are safe,
within any budget.

**The law** (`Action.apply_safe`): calls are safe, whatever is called.
-/

namespace Abacus

namespace Action

variable {free : ScopeId → Prop} {s : Store}

/-! ## Scopes -/

/-- The scope is there and names may be bound in it. -/
structure Open (free : ScopeId → Prop) (s : Store) (id : ScopeId) : Prop where
  free : free id
  lt : id.index < s.scopes.size

/-- A scope stays open while the store grows. -/
theorem Open.grown {s' : Store} {id : ScopeId} (h : Open free s id) (grown : s.Grown s') :
    Open free s' id :=
  ⟨h.free, Nat.lt_of_lt_of_le h.lt grown.scopes⟩

/-- A scope that has just been opened is free. -/
theorem enclose_safe {id : ScopeId} (h : id.index < s.scopes.size) :
    Safe free (enclose id) (Open free) s :=
  Safe.create (fun _ => .enclose h) fun ready =>
    ⟨ready.opens (Nat.le_refl _), by simp [Store.enclose, Store.addScope]⟩

/-- A name is bound where the check of names has found a place for it. -/
theorem bindName_safe {id : ScopeId} {name : String} {isLocal : Bool} {value : Value}
    {position : Position} (hid : Open free s id) (hvalue : value.Fits s) :
    Safe free (bindName (·.assignPlace id name isLocal) name value position) Any s := by
  refine Safe.ofName.bind fun {place s'} _ h => ?_
  obtain ⟨rfl, hplace⟩ := h
  exact Safe.modify fun _ => .bind hid.free hid.lt hvalue hplace

/-- Parameters are bound in a scope that is open to new names. -/
theorem bindAll_safe {id : ScopeId} {position : Position} {names : List String}
    {values : List Value} (hid : Open free s id) (hvalues : Value.AllFit s values) :
    Safe free (bindAll id position names values) Any s := by
  induction names generalizing values s with
  | nil =>
    unfold bindAll
    exact Safe.pure trivial
  | cons name names ih =>
    cases values with
    | nil => exact Safe.pure trivial
    | cons value values =>
      -- a definition is an assignment that is marked local
      have hbind : Safe free (bindName (·.assignPlace id name true) name value position) Any s :=
        bindName_safe hid (hvalues value List.mem_cons_self)
      refine hbind.bind fun hgrown _ => ih (hid.grown hgrown) ?_
      exact Value.AllFit.grown (fun v hv => hvalues v (List.mem_cons_of_mem _ hv)) hgrown

/-- What a name stands for is what the store has. -/
theorem lookup_safe {id : ScopeId} {name : String} {position : Position} :
    Safe free (lookup id name position) Value.Fits s := by
  refine Safe.of_ready fun ready => Safe.ofName.imp fun {v s'} _ h => ?_
  obtain ⟨rfl, hv⟩ := h
  unfold Store.lookup at hv
  split at hv
  · next value hfound =>
    cases hv
    obtain ⟨place, -, hget⟩ := List.exists_of_findSome?_eq_some hfound
    exact ready.sound.binding hget
  · cases hv

/-! ## Expressions -/

/-- To check an operand changes nothing. -/
theorem expectBoolean_safe {op : BinaryOp} {position : Position} {value : Value} :
    Safe free (expectBoolean op position value) Any s := by
  cases value with
  | boolean b => exact Safe.pure trivial
  | _ => exact Safe.fail

/-- To check a condition changes nothing. -/
theorem expectCondition_safe {position : Position} {value : Value} :
    Safe free (expectCondition position value) Any s := by
  cases value with
  | boolean b => exact Safe.pure trivial
  | _ => exact Safe.fail

variable {call : Call}

mutual

/-- Evaluating an expression in a free scope is safe. -/
theorem evaluate_safe (hcall : call.Safe free) : ∀ (e : Expr) {id : ScopeId} {s : Store},
    Open free s id → Safe free (evaluate call e id) Value.Fits s
  | .literal (.number n) _, _, _, _ => Safe.pure trivial
  | .literal (.boolean b) _, _, _, _ => Safe.pure trivial
  | .literal (.quoted body) _, _, _, _ => Safe.newVector fun v hv => by
    obtain ⟨c, -, rfl⟩ := List.mem_map.mp hv
    trivial
  | .identifier name position, _, _, _ => lookup_safe
  | .vector elements _, _, _, hid =>
    (evaluateAll_safe hcall elements hid).bind fun _ hvalues => Safe.newVector hvalues
  | .block body position, _, _, hid => by
    refine (enclose_safe hid.lt).bind fun _ hinner => ?_
    refine (evaluateBody_safe hcall body hinner fun _ hv => by cases hv).bind fun {last _} _ hlast => ?_
    cases last with
    | some value => exact Safe.pure (Value.optionFits_some.mp hlast)
    | none => exact Safe.fail
  | .conditional branches otherwise _, _, _, hid => by
    refine (evaluateBranches_safe hcall branches hid).bind fun {chosen _} hgrown hchosen => ?_
    cases chosen with
    | some value => exact Safe.pure (Value.optionFits_some.mp hchosen)
    | none => exact evaluate_safe hcall otherwise (hid.grown hgrown)
  | .function parameters body _, _, _, hid =>
    Safe.create (fun _ => .countFunction) fun _ => hid.lt
  | .call callee arguments position, _, _, hid => by
    refine (evaluate_safe hcall callee hid).bind fun hgrown hf => ?_
    refine (evaluateAll_safe hcall arguments (hid.grown hgrown)).bind fun hgrown hvalues => ?_
    exact hcall (hf.grown hgrown) hvalues
  | .assign name value isLocal position, _, _, hid => by
    refine Safe.ofName.bind fun hgrown _ => ?_
    replace hid := hid.grown hgrown
    refine (evaluate_safe hcall value hid).bind fun hgrown hv => ?_
    replace hid := hid.grown hgrown
    exact (bindName_safe hid hv).bind fun hgrown _ => Safe.pure (hv.grown hgrown)
  | .binary op left right position, _, _, hid => by
    rw [evaluate]
    cases decisive? op with
    | some decided =>
      refine (evaluate_safe hcall left hid).bind fun hgrown _ => ?_
      replace hid := hid.grown hgrown
      refine expectBoolean_safe.bind fun {a _} hgrown _ => ?_
      replace hid := hid.grown hgrown
      by_cases ha : a = decided
      · rw [if_pos ha]
        exact Safe.pure trivial
      · rw [if_neg ha]
        refine (evaluate_safe hcall right hid).bind fun _ _ => ?_
        exact expectBoolean_safe.bind fun _ _ => Safe.pure trivial
    | none =>
      refine (evaluate_safe hcall left hid).bind fun hgrown _ => ?_
      refine (evaluate_safe hcall right (hid.grown hgrown)).bind fun _ _ => ?_
      exact binary_safe op _ _ position
  | .unary op operand position, _, _, hid =>
    (evaluate_safe hcall operand hid).bind fun _ _ => unary_safe op _ position

/-- The operands are safe one after the other. -/
theorem evaluateAll_safe (hcall : call.Safe free) : ∀ (es : List Expr) {id : ScopeId} {s : Store},
    Open free s id → Safe free (evaluateAll call es id) Value.AllFit s
  | [], _, _, _ => Safe.pure fun _ hv => by cases hv
  | e :: rest, _, _, hid => by
    refine (evaluate_safe hcall e hid).bind fun hgrown hvalue => ?_
    refine (evaluateAll_safe hcall rest (hid.grown hgrown)).bind fun hgrown hvalues => ?_
    refine Safe.pure fun v hv => ?_
    rcases List.mem_cons.mp hv with rfl | hv
    · exact hvalue.grown hgrown
    · exact hvalues v hv

/-- So are the statements of a block. -/
theorem evaluateBody_safe (hcall : call.Safe free) : ∀ (es : List Expr) {id : ScopeId} {s : Store}
    {last : Option Value}, Open free s id → Value.OptionFits s last →
      Safe free (evaluateBody call es id last) Value.OptionFits s
  | [], _, _, _, _, hlast => Safe.pure hlast
  | e :: rest, _, _, _, hid, _ => by
    refine (evaluate_safe hcall e hid).bind fun hgrown hvalue => ?_
    exact evaluateBody_safe hcall rest (hid.grown hgrown) (Value.optionFits_some.mpr hvalue)

/-- And the branches of a conditional, as far as they are tried. -/
theorem evaluateBranches_safe (hcall : call.Safe free) : ∀ (branches : List (Expr × Expr))
    {id : ScopeId} {s : Store}, Open free s id →
      Safe free (evaluateBranches call branches id) Value.OptionFits s
  | [], _, _, _ => Safe.pure Value.optionFits_none
  | (condition, body) :: rest, _, _, hid => by
    refine (evaluate_safe hcall condition hid).bind fun hgrown _ => ?_
    replace hid := hid.grown hgrown
    refine expectCondition_safe.bind fun {holds _} hgrown _ => ?_
    replace hid := hid.grown hgrown
    cases holds with
    | true =>
      refine (evaluate_safe hcall body hid).bind fun _ hvalue => ?_
      exact Safe.pure (Value.optionFits_some.mpr hvalue)
    | false => exact evaluateBranches_safe hcall rest hid

end

/-! ## Calls -/

/-- **Calls are safe, whatever is called.** -/
theorem apply_safe (fuel : Nat) : Call.Safe free (apply fuel) := by
  induction fuel with
  | zero => exact fun _ _ => Safe.throw
  | succ fuel ih =>
    intro s f arguments position hf harguments
    cases f with
    | function closure =>
      rw [apply]
      refine Safe.guarded fun _ => (enclose_safe hf).bind fun hgrown hinner => ?_
      refine (bindAll_safe hinner (harguments.grown hgrown)).bind fun hgrown _ => ?_
      exact evaluate_safe ih closure.body (hinner.grown hgrown)
    | native native =>
      rw [apply]
      refine Safe.guarded fun _ => ?_
      exact Native.run_safe ⟨ih, Reader.ofDepth_safe ih fuel⟩ native harguments
    | type tag => exact Native.convert_safe tag arguments position
    | _ => exact Safe.fail

end Action

/-! ## Sources -/

/-- Running the statements of a source is safe. -/
theorem Script.evaluate_safe {free : ScopeId → Prop} {call : Call} (hcall : call.Safe free)
    {id : ScopeId} {s : Store} {entries : List ScriptEntry} {last : Option Value}
    (hid : Action.Open free s id) :
    Action.Safe free (Script.evaluate call id entries last) Action.Any s := by
  induction entries generalizing s last with
  | nil => exact Action.Safe.pure trivial
  | cons entry rest ih =>
    exact (Action.evaluate_safe hcall entry.expr hid).bind fun hgrown _ => ih (hid.grown hgrown)

end Abacus
