import Abacus.Proofs.Run.Comparing

/-!
# Comparing probed runs with runs

A comparison that goes through programs is carried from sequences to built-in functions, from these to
expressions, and from expressions to calls and statements. It is carried once for all probes.

**The laws** (`Comparison.Through.run`, `Comparison.Through.evaluate`, `Comparison.Through.apply`,
`Comparison.Through.runEntries`): probed built-in functions are compared with built-in functions, and
likewise expressions, calls and statements. The calls on the other side may be vetted.
-/

namespace Abacus

open Abacus.Action (Blind Obeys Whatever)
open Probed (idle sequencesOf)

/-! ## Machines that make no difference -/

namespace Native

/-- Whether a built-in function runs functions of the program, given the right arguments. -/
def callsBack : Native → Bool
  | .map | .filter | .reduce | .skip | .collect | .next | .peek | .hasNext | .tryOr | .tryCatch =>
    true
  | _ => false

/-- Any other built-in function does on every machine what it does on one that is idle. -/
theorem run_eq_idle (machine : Machine) (position : Position) {native : Native}
    (h : native.callsBack = false) (arguments : List Value) :
    native.run machine position arguments = native.run idle position arguments := by
  cases native with
  | map | filter | reduce | skip | collect | next | peek | hasNext | tryOr | tryCatch => cases h
  | is =>
    rcases arguments with _ | ⟨x, _ | ⟨y, rest⟩⟩
    case cons.cons => cases y <;> cases rest <;> rfl
    all_goals rfl
  | _ => rcases arguments with _ | ⟨x, _ | ⟨y, _ | ⟨z, _ | ⟨w, rest⟩⟩⟩⟩ <;> rfl

end Native

/-- A body that has statements has a value. -/
theorem Action.ne_none_of_evaluateBody {call : Call} {es : List Expr} {scope : ScopeId}
    {last result : Option Value} {s s' : Store}
    (h : Action.evaluateBody call es scope last s = .ok result s') (hvalue : es ≠ [] ∨ last ≠ none) :
    result ≠ none := by
  induction es generalizing last s with
  | nil =>
    cases h
    exact hvalue.resolve_left fun hne => hne rfl
  | cons e rest ih =>
    rw [Action.evaluateBody] at h
    obtain ⟨_, _, -, hrest⟩ := Action.of_bind_ok h
    exact ih hrest (.inr nofun)

namespace Comparison

variable {W : Type} [Carries W] {C : Comparison W} {there : List SequenceId}
  {call : Probed.Call W} {call' : Call}

/-! ## Expressions under the discipline -/

section Obeying

variable (hcall : C.Calls call call')

include hcall

/-- Expressions keep the discipline of the comparison, if calls do. -/
theorem Calls.evaluate_obeys {e : Expr} (hw : C.discipline.orderly → e.WellFormed)
    (scope : ScopeId) :
    Obeys C.discipline (Action.evaluate call' e scope) (Value.Under C.discipline) :=
  Action.evaluate_obeys hcall.obeys e scope (Expr.placed_of_forall C.place e) hw

theorem Calls.evaluateAll_obeys {es : List Expr} (hw : C.discipline.orderly → Expr.AllWellFormed es)
    (scope : ScopeId) :
    Obeys C.discipline (Action.evaluateAll call' es scope) (Value.AllUnder C.discipline) :=
  Action.evaluateAll_obeys hcall.obeys es scope (Expr.allPlaced_of_forall C.place es) hw

/-- Where order is asked for, a block has a value. -/
theorem Calls.evaluateBody_obeys {es : List Expr}
    (hw : C.discipline.orderly → es ≠ [] ∧ Expr.AllWellFormed es) (scope : ScopeId) :
    Obeys C.discipline (Action.evaluateBody call' es scope none)
      fun last => C.discipline.orderly → last ≠ none :=
  (Action.evaluateBody_obeys hcall.obeys es scope (Expr.allPlaced_of_forall C.place es)
    (fun ho => (hw ho).2) Value.optionUnder_none).of_ok fun hresult ho =>
      Action.ne_none_of_evaluateBody hresult (.inl (hw ho).1)

theorem Calls.evaluateBranches_obeys {branches : List (Expr × Expr)}
    (hw : C.discipline.orderly → Expr.BranchesWellFormed branches) (scope : ScopeId) :
    Obeys C.discipline (Action.evaluateBranches call' branches scope)
      (Value.OptionUnder C.discipline) :=
  Action.evaluateBranches_obeys hcall.obeys branches scope
    (Expr.branchesPlaced_of_forall C.place branches) hw

end Obeying

/-! ## Built-in functions -/

/-- To filter a vector calls the predicate for each element. -/
theorem Calls.filterItems (hcall : C.Calls call call') (position : Position) {predicate : Value}
    {kept xs : List Value} (hpredicate : predicate.Under C.discipline)
    (hxs : Value.AllUnder C.discipline xs) :
    C.Ties there (Probed.filterItems call predicate position kept xs)
      (Native.filterItems call' predicate position kept xs) := by
  induction xs generalizing kept with
  | nil => exact C.pure _
  | cons item rest ih =>
    obtain ⟨hitem, hrest⟩ := Value.allUnder_cons.mp hxs
    have harguments := Value.allUnder_singleton hitem
    refine C.bind (hcall.ties hpredicate harguments)
      (hcall.obeys hpredicate harguments (C.place position)) fun {holds} _ => ?_
    cases holds with
    | boolean b =>
      cases b with
      | true => exact ih hrest
      | false => exact ih hrest
    | _ => exact C.fail

variable {probe : Probe W} {vetted : Bool}

namespace Through

section Natives

variable (h : Through C probe vetted) {reader : Probed.Reader W} {reader' : Reader}
  (hcall : C.Calls call call') (hreader : C.Reads reader reader') (fuel : Nat) (position : Position)
  {arguments : List Value} (hthere : ∀ q ∈ sequencesOf arguments, q ∈ there)
  (hunder : Value.AllUnder C.discipline arguments)

include h hthere in
/-- A built-in function that is left to the action itself. -/
theorem run_idle {machine : Probed.Machine W} {machine' : Machine} {native : Native}
    (hnotable : notable native arguments = false)
    (hprobed : Probed.run probe machine position native arguments =
      Probed.quiet (native.run idle position arguments))
    (hrun : native.run machine' position arguments = native.run idle position arguments) :
    C.Ties there (Probed.run probe machine position native arguments)
      (native.run machine' position arguments) := by
  rw [hprobed, hrun]
  exact h.natives hnotable hthere

/-- A built-in function with the wrong number of arguments. -/
theorem run_misapplied {machine : Probed.Machine W} {machine' : Machine} {native : Native}
    (hprobed : Probed.run probe machine position native arguments =
      Probed.quiet (MonadExcept.throw .misapplied))
    (hrun : native.run machine' position arguments = MonadExcept.throw .misapplied) :
    C.Ties there (Probed.run probe machine position native arguments)
      (native.run machine' position arguments) := by
  rw [hprobed, hrun]
  exact C.quiet (.throw nofun)

include h in
theorem run_seq (machine : Probed.Machine W) (machine' : Machine) :
    C.Ties there (Probed.run probe machine position .seq arguments)
      (Native.run machine' position .seq arguments) := by
  rcases arguments with _ | ⟨f, _ | ⟨count, _ | ⟨y, rest⟩⟩⟩
  case cons.nil =>
    refine C.after (.expectCallable f) (Native.expectCallable_obeys (C.place position) f) fun _ => ?_
    exact h.building
  case cons.cons.nil =>
    refine C.after (.expectCallable f) (Native.expectCallable_obeys (C.place position) f) fun _ => ?_
    refine C.after (.expectCount count) (Native.expectCount_obeys (C.place position) count)
      fun {limit} _ => ?_
    exact h.building
  all_goals exact run_misapplied position rfl rfl

include h in
theorem run_iterate (machine : Probed.Machine W) (machine' : Machine) :
    C.Ties there (Probed.run probe machine position .iterate arguments)
      (Native.run machine' position .iterate arguments) := by
  rcases arguments with _ | ⟨seed, _ | ⟨f, _ | ⟨y, rest⟩⟩⟩
  case cons.cons.nil =>
    refine C.after (.expectCallable f) (Native.expectCallable_obeys (C.place position) f) fun _ => ?_
    exact h.building
  all_goals exact run_misapplied position rfl rfl

include hcall hunder

/-- A handler takes a fault, and is run with the error that it was. -/
theorem run_recovering {native : Native} (hnative : native = .tryOr ∨ native = .tryCatch) :
    C.Ties there (Probed.run probe ⟨call, reader, fuel⟩ position native arguments)
      (native.run ⟨call', reader', fuel⟩ position arguments) := by
  rcases arguments with _ | ⟨body, _ | ⟨handler, _ | ⟨y, rest⟩⟩⟩
  case cons.cons.nil =>
    obtain ⟨hbody, hrest⟩ := Value.allUnder_cons.mp hunder
    have hhandler : handler.Under C.discipline := hrest handler List.mem_cons_self
    have hobeys := hcall.obeys hbody Value.allUnder_nil (C.place position)
    rcases hnative with rfl | rfl
    · refine C.after (.expectThunk body) (Native.expectThunk_obeys (C.place position) body) fun _ => ?_
      exact C.recover (hcall.ties hbody Value.allUnder_nil) hobeys fun _ => C.pure handler
    · refine C.after (.expectThunk body) (Native.expectThunk_obeys (C.place position) body) fun _ => ?_
      refine C.after (.expectCallable handler)
        (Native.expectCallable_obeys (C.place position) handler) fun _ => ?_
      exact C.recover (hcall.ties hbody Value.allUnder_nil) hobeys fun fault =>
        hcall.ties hhandler (Value.allUnder_singleton (v := .error fault.kind)
          fun _ => fault.phase_kind)
  all_goals rcases hnative with rfl | rfl <;> exact run_misapplied position rfl rfl

include h hthere

theorem run_map : C.Ties there (Probed.run probe ⟨call, reader, fuel⟩ position .map arguments)
    (Native.run ⟨call', reader', fuel⟩ position .map arguments) := by
  rcases arguments with _ | ⟨x, _ | ⟨f, _ | ⟨y, rest⟩⟩⟩
  case nil => exact h.run_idle position hthere rfl rfl rfl
  all_goals cases x
  case cons.cons.nil.vector id =>
    have hf : f.Under C.discipline := hunder f (by simp)
    refine C.after (.expectCallable f) (Native.expectCallable_obeys (C.place position) f) fun _ => ?_
    refine C.after (.items id) .items fun hitems => ?_
    have hitem := fun item hitem => Value.allUnder_singleton (hitems item hitem)
    have hobeys := fun item hmem => hcall.obeys hf (hitem item hmem) (C.place position)
    exact C.bind (C.mapM (fun item hmem => hcall.ties hf (hitem item hmem)) hobeys) (.mapM hobeys)
      fun _ => C.newVector _
  all_goals exact h.run_idle position hthere rfl rfl rfl

theorem run_filter : C.Ties there (Probed.run probe ⟨call, reader, fuel⟩ position .filter arguments)
    (Native.run ⟨call', reader', fuel⟩ position .filter arguments) := by
  rcases arguments with _ | ⟨x, _ | ⟨f, _ | ⟨y, rest⟩⟩⟩
  case nil => exact h.run_idle position hthere rfl rfl rfl
  all_goals cases x
  case cons.cons.nil.vector id =>
    have hf : f.Under C.discipline := hunder f (by simp)
    refine C.after (.expectCallable f) (Native.expectCallable_obeys (C.place position) f) fun _ => ?_
    refine C.after (.items id) .items fun hitems => ?_
    exact C.bind (hcall.filterItems position hf hitems)
      (Native.filterItems_obeys (C.place position) hcall.obeys hf Value.allUnder_nil hitems)
      fun _ => C.newVector _
  all_goals exact h.run_idle position hthere rfl rfl rfl

include hreader

theorem run_reduce : C.Ties there (Probed.run probe ⟨call, reader, fuel⟩ position .reduce arguments)
    (Native.run ⟨call', reader', fuel⟩ position .reduce arguments) := by
  rcases arguments with _ | ⟨x, _ | ⟨seed, _ | ⟨f, _ | ⟨y, rest⟩⟩⟩⟩
  case nil => exact h.run_idle position hthere rfl rfl rfl
  all_goals cases x
  case cons.cons.cons.nil.vector id =>
    have hf : f.Under C.discipline := hunder f (by simp)
    refine C.after (.expectCallable f) (Native.expectCallable_obeys (C.place position) f) fun _ => ?_
    refine C.after (.items id) .items fun hitems => ?_
    exact C.foldlM (P := Value.Under C.discipline) (hunder seed (by simp))
      (fun item hmem _ hstate => hcall.ties hf (Value.allUnder_pair hstate (hitems item hmem)))
      fun item hmem _ hstate =>
        hcall.obeys hf (Value.allUnder_pair hstate (hitems item hmem)) (C.place position)
  case cons.cons.cons.nil.sequence id =>
    have hf : f.Under C.discipline := hunder f (by simp)
    have hid : id ∈ there := hthere id List.mem_cons_self
    refine C.after (.expectCallable f) (Native.expectCallable_obeys (C.place position) f) fun _ => ?_
    refine h.asking ?_ fun hfuel {s} attuned running => ?_
    · exact h.foldAll (P := Value.Under C.discipline) hcall hreader hid position
        (fun hstate hitem => hcall.ties hf (Value.allUnder_pair hstate hitem))
        (fun hstate hitem => hcall.obeys hf (Value.allUnder_pair hstate hitem) (C.place position))
        fuel (hunder seed (by simp))
    · obtain ⟨k, rfl⟩ := Nat.exists_eq_succ_of_ne_zero hfuel
      exact Sequence.foldAll_refused attuned running position _ k seed
  all_goals exact h.run_idle position hthere rfl rfl rfl

omit hunder in
theorem run_skip : C.Ties there (Probed.run probe ⟨call, reader, fuel⟩ position .skip arguments)
    (Native.run ⟨call', reader', fuel⟩ position .skip arguments) := by
  rcases arguments with _ | ⟨x, _ | ⟨count, _ | ⟨y, rest⟩⟩⟩
  case nil => exact h.run_idle position hthere rfl rfl rfl
  all_goals cases x
  case cons.cons.nil.sequence id =>
    refine C.after (.expectCount count) (Native.expectCount_obeys (C.place position) count)
      fun {n} _ => ?_
    refine h.asking ?_ fun hn {s} _ running => ?_
    · exact C.bind (h.skip hcall hreader id n)
        (Sequence.skip_obeys hcall.obeys hreader.obeys id n) fun _ => C.pure _
    · obtain ⟨k, rfl⟩ := Nat.exists_eq_succ_of_ne_zero hn
      exact (Sequence.skip_refused running k).bind
  all_goals exact h.run_idle position hthere rfl rfl rfl

omit hunder in
/-- The functions that read a sequence, which is their only argument. -/
theorem run_reading {native : Native}
    (hnative : native = .collect ∨ native = .next ∨ native = .peek ∨ native = .hasNext) :
    C.Ties there (Probed.run probe ⟨call, reader, fuel⟩ position native arguments)
      (native.run ⟨call', reader', fuel⟩ position arguments) := by
  rcases arguments with _ | ⟨x, _ | ⟨y, rest⟩⟩
  case nil =>
    rcases hnative with rfl | rfl | rfl | rfl <;> exact h.run_idle position hthere rfl rfl rfl
  all_goals cases x
  case cons.nil.sequence id =>
    have hid : id ∈ there := hthere id List.mem_cons_self
    rcases hnative with rfl | rfl | rfl | rfl
    · refine h.asking ?_ fun hfuel {s} attuned running => ?_
      · exact C.bind (h.collect hcall hreader fuel hid)
          (Sequence.collect_obeys hcall.obeys hreader.obeys fuel id) fun _ => C.newVector _
      · obtain ⟨k, rfl⟩ := Nat.exists_eq_succ_of_ne_zero hfuel
        exact (Sequence.collect_refused attuned running k).bind
    · refine h.asking (h.next hcall hreader fuel hid position) fun hfuel {s} attuned running => ?_
      obtain ⟨k, rfl⟩ := Nat.exists_eq_succ_of_ne_zero hfuel
      exact Sequence.next_refused attuned running k position
    · refine h.asking (h.peek hcall hreader fuel hid position) fun hfuel {s} attuned running => ?_
      obtain ⟨k, rfl⟩ := Nat.exists_eq_succ_of_ne_zero hfuel
      exact Sequence.peek_refused attuned running k position
    · refine h.asking ?_ fun hfuel {s} attuned running => ?_
      · exact C.bind (h.atEnd hcall hreader fuel hid)
          (Sequence.atEnd_obeys hcall.obeys hreader.obeys fuel id) fun _ => C.pure _
      · obtain ⟨k, rfl⟩ := Nat.exists_eq_succ_of_ne_zero hfuel
        exact (Sequence.atEnd_refused attuned running k).bind
  all_goals
    rcases hnative with rfl | rfl | rfl | rfl <;> exact h.run_idle position hthere rfl rfl rfl

/-- **Probed built-in functions are compared with built-in functions.** -/
theorem run {native : Native} (hexit : native ≠ .exit) :
    C.Ties there (Probed.run probe ⟨call, reader, fuel⟩ position native arguments)
      (native.run ⟨call', reader', fuel⟩ position arguments) := by
  cases native with
  | exit => exact absurd rfl hexit
  | seq => exact h.run_seq position _ _
  | iterate => exact h.run_iterate position _ _
  | map => exact h.run_map hcall fuel position hthere hunder
  | filter => exact h.run_filter hcall fuel position hthere hunder
  | reduce => exact h.run_reduce hcall hreader fuel position hthere hunder
  | skip => exact h.run_skip hcall hreader fuel position hthere
  | collect | next | peek | hasNext =>
    exact h.run_reading hcall hreader fuel position hthere (by simp)
  | tryOr | tryCatch => exact run_recovering hcall fuel position hunder (by simp)
  | _ => exact h.run_idle position hthere rfl rfl (Native.run_eq_idle _ position rfl arguments)

end Natives

/-! ## Expressions -/

section Expressions

mutual

/-- **Probed expressions are compared with expressions.** -/
theorem evaluate (h : Through C probe vetted) (hcall : C.Calls call call') :
    ∀ (e : Expr) (scope : ScopeId), (C.discipline.orderly → e.WellFormed) →
      C.Ties there (Probed.evaluate probe call e scope) (Action.evaluate call' e scope)
  | .literal (.number _) _, _, hw => h.expression hw (C.quiet (.pure _))
  | .literal (.boolean _) _, _, hw => h.expression hw (C.quiet (.pure _))
  | .literal (.quoted _) _, _, hw => h.expression hw (C.quiet (.newVector _))
  | .identifier name position, scope, hw => h.expression hw (C.quiet (.lookup scope name position))
  | .function _ _ _, _, hw => h.expression hw (C.quiet (.create fun _ _ => ⟨rfl, rfl, rfl⟩))
  | .vector elements _, scope, hw => h.expression hw
    (C.bind (evaluateAll h hcall elements scope hw) (hcall.evaluateAll_obeys hw scope)
      fun _ => C.newVector _)
  | .block body _, scope, hw => by
    refine h.expression hw
      (C.after (.enclose scope) (Action.enclose_obeys scope) fun {inner} _ => ?_)
    refine C.bind (evaluateBody h hcall body inner none fun ho => (hw ho).2)
      (hcall.evaluateBody_obeys hw inner) fun {last} hlast => ?_
    cases last with
    | some value => exact C.pure value
    | none => exact h.valueless (fun ho => hlast ho rfl) C.fail
  | .conditional branches otherwise _, scope, hw => by
    refine h.expression hw ?_
    refine C.bind (evaluateBranches h hcall branches scope fun ho => (hw ho).2.1)
      (hcall.evaluateBranches_obeys (fun ho => (hw ho).2.1) scope) fun {chosen} _ => ?_
    cases chosen with
    | some value => exact C.pure value
    | none => exact evaluate h hcall otherwise scope fun ho => (hw ho).2.2
  | .call callee arguments _, scope, hw => by
    refine h.expression hw ?_
    refine C.bind (evaluate h hcall callee scope fun ho => (hw ho).1)
      (hcall.evaluate_obeys (fun ho => (hw ho).1) scope) fun hf => ?_
    exact C.bind (evaluateAll h hcall arguments scope fun ho => (hw ho).2)
      (hcall.evaluateAll_obeys (fun ho => (hw ho).2) scope) fun hvalues => hcall.ties hf hvalues
  | .assign name value isLocal position, scope, hw => by
    refine h.expression hw (C.after (.checkAssignable scope name position)
      (Action.checkAssignable_obeys scope name (C.place position)) fun _ => ?_)
    have hvalue : C.discipline.orderly → value.WellFormed := hw
    refine C.bind (evaluate h hcall value scope hvalue) (hcall.evaluate_obeys hvalue scope)
      fun {v} hv => ?_
    exact C.after (.bindName name v position fun _ _ => rfl)
      (Action.bindName_obeys (C.place position) hv) fun _ => C.pure v
  | .binary op left right position, scope, hw => by
    have hleft := evaluate h hcall left scope fun ho => (hw ho).1
    have hright := evaluate h hcall right scope fun ho => (hw ho).2
    have hobeys := hcall.evaluate_obeys (fun ho => (hw ho).1) scope
    have hobeys' := hcall.evaluate_obeys (fun ho => (hw ho).2) scope
    rw [Probed.evaluate, Action.evaluate]
    refine h.expression hw ?_
    cases Action.decisive? op with
    | some decided =>
      refine C.bind hleft hobeys fun {a} _ => C.after (.expectBoolean op left.position a)
        (Action.expectBoolean_obeys op (C.place _) a) fun _ => ?_
      split
      · exact C.pure _
      · refine C.bind hright hobeys' fun {b} _ => ?_
        exact C.after (.expectBoolean op right.position b)
          (Action.expectBoolean_obeys op (C.place _) b) fun _ => C.pure _
    | none =>
      exact C.bind hleft hobeys fun {a} _ => C.bind hright hobeys' fun {b} _ =>
        C.quiet (.binary op a b position)
  | .unary op operand position, scope, hw => by
    have hoperand : C.discipline.orderly → operand.WellFormed := hw
    refine h.expression hw ?_
    exact C.bind (evaluate h hcall operand scope hoperand) (hcall.evaluate_obeys hoperand scope)
      fun {v} _ => C.quiet (.unary op v position)

theorem evaluateAll (h : Through C probe vetted) (hcall : C.Calls call call') :
    ∀ (es : List Expr) (scope : ScopeId), (C.discipline.orderly → Expr.AllWellFormed es) →
      C.Ties there (Probed.evaluateAll probe call es scope) (Action.evaluateAll call' es scope)
  | [], _, _ => C.pure []
  | e :: rest, scope, hw =>
    C.bind (evaluate h hcall e scope fun ho => (hw ho).1)
      (hcall.evaluate_obeys (fun ho => (hw ho).1) scope) fun _ =>
        C.bind (evaluateAll h hcall rest scope fun ho => (hw ho).2)
          (hcall.evaluateAll_obeys (fun ho => (hw ho).2) scope) fun _ => C.pure _

theorem evaluateBody (h : Through C probe vetted) (hcall : C.Calls call call') :
    ∀ (es : List Expr) (scope : ScopeId) (last : Option Value),
      (C.discipline.orderly → Expr.AllWellFormed es) →
      C.Ties there (Probed.evaluateBody probe call es scope last)
        (Action.evaluateBody call' es scope last)
  | [], _, last, _ => C.pure last
  | e :: rest, scope, _, hw =>
    C.bind (evaluate h hcall e scope fun ho => (hw ho).1)
      (hcall.evaluate_obeys (fun ho => (hw ho).1) scope) fun {value} _ =>
        evaluateBody h hcall rest scope (some value) fun ho => (hw ho).2

theorem evaluateBranches (h : Through C probe vetted) (hcall : C.Calls call call') :
    ∀ (branches : List (Expr × Expr)) (scope : ScopeId),
      (C.discipline.orderly → Expr.BranchesWellFormed branches) →
        C.Ties there (Probed.evaluateBranches probe call branches scope)
          (Action.evaluateBranches call' branches scope)
  | [], _, _ => C.pure none
  | (condition, body) :: rest, scope, hw => by
    refine C.bind (evaluate h hcall condition scope fun ho => (hw ho).1)
      (hcall.evaluate_obeys (fun ho => (hw ho).1) scope) fun {c} _ => ?_
    refine C.after (.expectCondition condition.position c)
      (Action.expectCondition_obeys (C.place _) c) fun {holds} _ => ?_
    cases holds with
    | true =>
      exact C.bind (evaluate h hcall body scope fun ho => (hw ho).2.1)
        (hcall.evaluate_obeys (fun ho => (hw ho).2.1) scope) fun _ => C.pure _
    | false => exact evaluateBranches h hcall rest scope fun ho => (hw ho).2.2

end

/-! ## Calls -/

variable (h : Through C probe vetted)

include h

/-- **Probed calls are compared with calls.** -/
theorem apply (fuel : Nat) : C.Calls (Probed.apply probe fuel) (Action.applyVetted vetted fuel) := by
  induction fuel with
  | zero => exact ⟨fun _ _ => C.throw nofun, Action.applyVetted_obeys C.exits h.vets 0⟩
  | succ fuel ih =>
    refine ⟨fun {there f arguments position} hf harguments => ?_,
      Action.applyVetted_obeys C.exits h.vets (fuel + 1)⟩
    cases f with
    | function closure =>
      rw [Probed.apply, Action.applyVetted]
      refine h.calling (C.guarded fun hlength => h.entering hf (by simpa using hlength) ?_)
      refine C.after (.enclose closure.scope) (Action.enclose_obeys closure.scope)
        fun {scope} _ => ?_
      refine C.after (.bindAll scope position closure.parameters arguments)
        (Action.bindAll_obeys scope (C.place position) harguments) fun _ => ?_
      exact h.evaluate ih closure.body scope fun ho => (hf.orderly ho).2
    | native native =>
      rw [Probed.apply, Action.applyVetted]
      by_cases hexit : native = .exit
      · subst hexit
        by_cases haccepts : (!Native.exit.arity.accepts arguments.length) = true
        · refine h.calling ?_
          simp only [if_pos haccepts]
          exact C.fail_bind
        · simp only [if_neg haccepts]
          rw [Native.run_eq_idle _ position rfl arguments]
          exact h.exiting
      · refine h.calling (C.guarded fun _ => h.vetting ?_)
        exact h.run ih (h.ofDepth ih fuel) fuel position (fun _ hq => hq) harguments hexit
    | type tag => exact h.calling (C.quiet (.convert tag arguments))
    | _ => exact h.calling C.fail

/-! ## Sources -/

/-- **Probed statements are compared with statements.** -/
theorem runEntries (hcall : C.Calls call call') (scope : ScopeId) {entries : List ScriptEntry}
    (last : Option Value) (hw : C.discipline.orderly → ∀ entry ∈ entries, entry.expr.WellFormed) :
    C.Ties there (Probed.runEntries probe call scope entries last)
      (Script.evaluate call' scope entries last) := by
  induction entries generalizing last with
  | nil => exact C.pure last
  | cons entry rest ih =>
    have hentry := fun ho => hw ho entry List.mem_cons_self
    exact C.bind (h.evaluate hcall entry.expr scope hentry) (hcall.evaluate_obeys hentry scope)
      fun {value} _ => ih (some value) fun ho e he => hw ho e (List.mem_cons_of_mem entry he)

end Expressions

end Through

end Comparison

end Abacus
