import Abacus.Proofs.Discipline.Natives
import Abacus.Proofs.Store.Reached
import Abacus.Proofs.Syntax.Placement

/-!
# Programs under a discipline

Which positions a program can report at is a discipline: all nodes of the bodies of its functions
stand at such positions, and so do the sequences that it has built. Evaluating an expression whose
nodes stand there obeys it, and so a source that is read there obeys it, as long as the store does.
Where order is asked for, the expression has to be well formed; every tree that is read is.

**The laws** (`Action.apply_obeys`, `Store.Under.runSource`): calls obey every discipline that lets
programs end by an exit; and a source whose places are among the allowed ones leaves a store that is
as the discipline asks, and reports at an allowed place, if it does not end otherwise.
-/

namespace Abacus

/-- Reports stand at such places; a program may end by an exit, and built-in functions are run with
as many arguments as they take. -/
def Discipline.ofPlaces (place : Position → Prop) (start : place .start) : Discipline :=
  ⟨place, start, True, False, False⟩

namespace Action

/-! ## Scopes -/

section Scopes

variable {D : Discipline} {position : Position}

/-- To open a scope. -/
theorem enclose_obeys (scope : ScopeId) : Obeys D (enclose scope) Whatever :=
  .create fun hs => ⟨hs.enclose scope, trivial⟩

/-- To read a name, or to report it where it stands. -/
theorem lookup_obeys (scope : ScopeId) (name : String) (hposition : D.place position) :
    Obeys D (lookup scope name position) (Value.Under D) := by
  refine .ofName hposition fun {s v} hs h => ?_
  unfold Store.lookup at h
  split at h
  · next value hfound =>
    cases h
    obtain ⟨place, -, hget⟩ := List.exists_of_findSome?_eq_some hfound
    exact hs.binding hget
  · cases h

/-- To check that a name may be assigned to. -/
theorem checkAssignable_obeys (scope : ScopeId) (name : String) (hposition : D.place position) :
    Obeys D (checkAssignable scope name position) Whatever :=
  .ofName hposition fun _ _ => trivial

/-- To bind a name in the scope that was found for it. -/
theorem bindName_obeys {find : Store → Except NameFault ScopeId} {name : String} {value : Value}
    (hposition : D.place position) (hvalue : value.Under D) :
    Obeys D (bindName find name value position) Whatever :=
  (Obeys.ofName (P := Whatever) hposition fun _ _ => trivial).bind fun _ =>
    .modify fun hs => hs.bindName hvalue

/-- To bind the parameters of a function to its arguments. -/
theorem bindAll_obeys (scope : ScopeId) (hposition : D.place position) {names : List String}
    {values : List Value} (hvalues : Value.AllUnder D values) :
    Obeys D (bindAll scope position names values) Whatever := by
  induction names generalizing values with
  | nil =>
    unfold bindAll
    exact .pure trivial
  | cons name names ih =>
    cases values with
    | nil => exact .pure trivial
    | cons value values =>
      obtain ⟨hvalue, hvalues⟩ := Value.allUnder_cons.mp hvalues
      exact (bindName_obeys hposition hvalue).bind fun _ => ih hvalues

/-- An operand of a logical operator is a boolean or is refused at the operand. -/
theorem expectBoolean_obeys (op : BinaryOp) (hposition : D.place position) (value : Value) :
    Obeys D (expectBoolean op position value) Whatever := by
  cases value with
  | boolean b => exact .pure trivial
  | _ => exact .fail hposition

/-- A condition is a boolean or is refused where it stands. -/
theorem expectCondition_obeys (hposition : D.place position) (value : Value) :
    Obeys D (expectCondition position value) Whatever := by
  cases value with
  | boolean b => exact .pure trivial
  | _ => exact .fail hposition

end Scopes

/-! ## Expressions -/

section Expressions

variable {D : Discipline} {call : Call}

mutual

/-- Evaluating an expression whose nodes stand at allowed places obeys. -/
theorem evaluate_obeys (hcall : call.Obeys D) : ∀ (e : Expr) (scope : ScopeId),
    e.Placed D.place → (D.orderly → e.WellFormed) → Obeys D (evaluate call e scope) (Value.Under D)
  | .literal (.number n) _, _, _, _ => .pure trivial
  | .literal (.boolean b) _, _, _, _ => .pure trivial
  | .literal (.quoted body) _, _, _, _ => .newVector fun v hv => by
    obtain ⟨c, -, rfl⟩ := List.mem_map.mp hv
    trivial
  | .identifier name _, scope, h, _ => lookup_obeys scope name h
  | .vector elements _, scope, h, hw =>
    (evaluateAll_obeys hcall elements scope h.2 hw).bind .newVector
  | .block body _, _, h, hw => by
    refine (enclose_obeys _).bind fun {inner} _ => ?_
    refine (evaluateBody_obeys hcall body inner h.2 (fun ho => (hw ho).2)
      Value.optionUnder_none).bind fun {last} hlast => ?_
    cases last with
    | some value => exact .pure (Value.optionUnder_some.mp hlast)
    | none => exact .fail h.1
  | .conditional branches otherwise _, scope, h, hw => by
    refine (evaluateBranches_obeys hcall branches scope h.2.1 fun ho => (hw ho).2.1).bind
      fun {chosen} hchosen => ?_
    cases chosen with
    | some value => exact .pure (Value.optionUnder_some.mp hchosen)
    | none => exact evaluate_obeys hcall otherwise scope h.2.2 fun ho => (hw ho).2.2
  | .function _ _ _, _, h, hw => .create fun hs => ⟨hs.countFunction, ⟨h.2, hw⟩⟩
  | .call callee arguments _, scope, h, hw => by
    refine (evaluate_obeys hcall callee scope h.2.1 fun ho => (hw ho).1).bind fun hf => ?_
    refine (evaluateAll_obeys hcall arguments scope h.2.2 fun ho => (hw ho).2).bind
      fun hvalues => ?_
    exact hcall hf hvalues h.1
  | .assign name value _ _, scope, h, hw => by
    refine (checkAssignable_obeys scope name h.1).bind fun _ => ?_
    refine (evaluate_obeys hcall value scope h.2 hw).bind fun hv => ?_
    exact (bindName_obeys h.1 hv).bind fun _ => .pure hv
  | .binary op left right _, scope, h, hw => by
    rw [evaluate]
    have hleft := evaluate_obeys hcall left scope h.2.1 fun ho => (hw ho).1
    have hright := evaluate_obeys hcall right scope h.2.2 fun ho => (hw ho).2
    cases decisive? op with
    | some decided =>
      refine hleft.bind fun _ => (expectBoolean_obeys op h.2.1.position _).bind fun _ => ?_
      split
      · exact .pure trivial
      · refine hright.bind fun _ => ?_
        exact (expectBoolean_obeys op h.2.2.position _).bind fun _ => .pure trivial
    | none => exact hleft.bind fun _ => hright.bind fun _ => binary_obeys h.1 op _ _
  | .unary op operand _, scope, h, hw =>
    (evaluate_obeys hcall operand scope h.2 hw).bind fun _ => unary_obeys h.1 op _

/-- To evaluate operands from left to right. -/
theorem evaluateAll_obeys (hcall : call.Obeys D) : ∀ (es : List Expr) (scope : ScopeId),
    Expr.AllPlaced D.place es → (D.orderly → Expr.AllWellFormed es) →
      Obeys D (evaluateAll call es scope) (Value.AllUnder D)
  | [], _, _, _ => .pure Value.allUnder_nil
  | e :: rest, scope, h, hw => by
    refine (evaluate_obeys hcall e scope h.1 fun ho => (hw ho).1).bind fun hv => ?_
    exact (evaluateAll_obeys hcall rest scope h.2 fun ho => (hw ho).2).bind fun hvs =>
      .pure (Value.allUnder_cons.mpr ⟨hv, hvs⟩)

/-- To evaluate a block; its value is the last one. -/
theorem evaluateBody_obeys (hcall : call.Obeys D) :
    ∀ (es : List Expr) (scope : ScopeId) {last : Option Value}, Expr.AllPlaced D.place es →
      (D.orderly → Expr.AllWellFormed es) → Value.OptionUnder D last →
        Obeys D (evaluateBody call es scope last) (Value.OptionUnder D)
  | [], _, _, _, _, hlast => .pure hlast
  | e :: rest, scope, _, h, hw, _ => by
    refine (evaluate_obeys hcall e scope h.1 fun ho => (hw ho).1).bind fun hv => ?_
    exact evaluateBody_obeys hcall rest scope h.2 (fun ho => (hw ho).2)
      (Value.optionUnder_some.mpr hv)

/-- To try the branches of a conditional in turn. -/
theorem evaluateBranches_obeys (hcall : call.Obeys D) :
    ∀ (branches : List (Expr × Expr)) (scope : ScopeId), Expr.BranchesPlaced D.place branches →
      (D.orderly → Expr.BranchesWellFormed branches) →
        Obeys D (evaluateBranches call branches scope) (Value.OptionUnder D)
  | [], _, _, _ => .pure Value.optionUnder_none
  | (condition, body) :: rest, scope, h, hw => by
    refine (evaluate_obeys hcall condition scope h.1 fun ho => (hw ho).1).bind fun _ => ?_
    refine (expectCondition_obeys h.1.position _).bind fun {holds} _ => ?_
    cases holds with
    | true =>
      exact (evaluate_obeys hcall body scope h.2.1 fun ho => (hw ho).2.1).bind fun hv =>
        .pure (Value.optionUnder_some.mpr hv)
    | false => exact evaluateBranches_obeys hcall rest scope h.2.2 fun ho => (hw ho).2.2

end

/-! ## Calls -/

/-- **Calls obey.** -/
theorem apply_obeys (hexits : D.exits) (fuel : Nat) : Call.Obeys D (apply fuel) := by
  induction fuel with
  | zero => exact fun _ _ _ => .throw trivial
  | succ fuel ih =>
    intro f arguments position hf harguments hposition
    cases f with
    | function closure =>
      rw [apply]
      refine .guarded hposition fun _ => (enclose_obeys closure.scope).bind fun {scope} _ => ?_
      refine (bindAll_obeys scope hposition harguments).bind fun _ => ?_
      exact evaluate_obeys ih closure.body scope hf.body fun ho => (hf.orderly ho).2
    | native native =>
      rw [apply]
      refine .guarded hposition fun haccepts => ?_
      refine Native.run_obeys hposition ⟨ih, Reader.ofDepth_obeys ih fuel⟩ native harguments
        (fun _ => hexits) (.inl ?_)
      simpa using haccepts
    | type tag => exact Native.convert_obeys hposition tag arguments
    | _ => exact .fail hposition

/-- **No program runs a built-in function with arguments that its arity refuses.** -/
theorem evaluate_ne_misapplied (fuel : Nat) (e : Expr) (scope : ScopeId) (s s' : Store) :
    evaluate (apply fuel) e scope s ≠ .error .misapplied s' := by
  let D : Discipline := .ofPlaces (fun _ => True) trivial
  have hplaced : e.Placed D.place := Expr.placed_of_forall (fun _ => trivial) e
  have hs : s.Under D := s.under_of_lenient ⟨fun _ => trivial, fun h => h⟩
  have hrun := evaluate_obeys (apply_obeys (D := D) trivial fuel) e scope hplaced nofun s hs
  intro h
  rw [h] at hrun
  cases hrun with
  | interruption _ hmisapplies => exact hmisapplies

end Expressions

end Action

/-! ## Sources -/

section Sources

variable {D : Discipline}

/-- To evaluate the statements of a script, each of which is placed and well formed. -/
theorem Script.evaluate_obeys {call : Call} (hcall : call.Obeys D) (scope : ScopeId)
    {entries : List ScriptEntry} {last : Option Value}
    (h : ∀ entry ∈ entries, entry.expr.Placed D.place)
    (hw : ∀ entry ∈ entries, entry.expr.WellFormed) :
    Action.Obeys D (evaluate call scope entries last) Action.Whatever := by
  induction entries generalizing last with
  | nil => exact .pure trivial
  | cons entry rest ih =>
    obtain ⟨hplaced, h⟩ := List.forall_mem_cons.mp h
    obtain ⟨hwellFormed, hw⟩ := List.forall_mem_cons.mp hw
    refine (Action.evaluate_obeys hcall _ scope hplaced fun _ => hwellFormed).bind fun _ => ?_
    exact ih h hw

/-- A store that holds what is built in only is as every discipline asks. -/
theorem Store.under_initial : initial.2.Under D where
  scopes scope h binding hbinding := by
    obtain rfl : scope = .global := by simpa [initial, empty, addScope] using h
    obtain ⟨_, heq⟩ | ⟨_, heq⟩ | ⟨_, heq⟩ := cases_of_mem_builtins hbinding <;> rw [heq] <;> trivial
  vectors _ h := by cases Array.mem_def.mp h
  sources _ h := by cases Array.mem_def.mp h
  sequences _ h := by cases Array.mem_def.mp h

/-- A source is refused at an allowed place, or its run ends as the discipline allows. -/
def SourceError.Under (D : Discipline) : SourceError → Prop
  | .read e => D.place e.position
  | .run e => e.Under D

/-- An error that carries a position carries one of the discipline's places. -/
theorem SourceError.Under.position {e : SourceError} (h : e.Under D) {p : Position}
    (hp : e.position? = some p) : D.place p := by
  cases e with
  | read e =>
    cases hp
    exact h
  | run e =>
    cases e <;> cases hp
    exact h

/-- **A source whose places are allowed keeps the discipline and ends as the discipline allows.** -/
theorem Store.Under.runSource {s : Store} (hs : s.Under D) (hexits : D.exits) {source : String}
    (here : ScopeId)
    (h : ∀ p, Position.StandsIn p source.toList .start → D.place p) :
    (storeAfter (Abacus.runSource source here s)).Under D ∧
      ∀ e s', Abacus.runSource source here s = .error e s' → e.Under D := by
  obtain ⟨hentries, hfault⟩ := Script.read_placed h
  have hscript : Action.Obeys D (Script.evaluate (Action.apply Action.plenty) here
      (Script.read source.toList .start).entries none) Action.Whatever :=
    Script.evaluate_obeys (Action.apply_obeys hexits Action.plenty) here hentries
      (Script.read_wellFormed source.toList .start)
  have hrun := hscript s hs
  unfold Abacus.runSource Script.run
  revert hrun
  cases Script.evaluate (Action.apply Action.plenty) here
      (Script.read source.toList .start).entries none s with
  | error e s' =>
    rintro (_ | ⟨hs', he⟩)
    refine ⟨hs', ?_⟩
    rintro _ _ ⟨⟩
    exact he
  | ok value s' =>
    rintro (⟨hs', -⟩ | _)
    cases hread : (Script.read source.toList .start).fault with
    | some e =>
      refine ⟨hs', ?_⟩
      rintro _ _ ⟨⟩
      exact hfault e hread
    | none =>
      refine ⟨hs', ?_⟩
      rintro _ _ ⟨⟩

/-- Sources whose places are allowed keep a discipline. -/
theorem Store.Under.afterSources {s : Store} (hs : s.Under D)
    (hexits : D.exits) (here : ScopeId) {sources : List String}
    (h : ∀ source ∈ sources, ∀ p, Position.StandsIn p source.toList .start → D.place p) :
    (s.afterSources here sources).Under D := by
  induction sources generalizing s with
  | nil => exact hs
  | cons source rest ih =>
    have hfirst := hs.runSource hexits here (h source List.mem_cons_self)
    exact ih hfirst.1 fun source hsource => h source (List.mem_cons_of_mem _ hsource)

end Sources

end Abacus
