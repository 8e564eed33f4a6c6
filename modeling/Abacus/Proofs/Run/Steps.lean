import Abacus.Proofs.Run.Action
import Abacus.Proofs.Store.Step
import Abacus.Run.Operators

/-!
# Actions in steps

An action is safe in a store if it changes the store in steps only, whether it ends in a value or in
an interruption, and if the value that it ends in is good; mostly that is to say that it refers only
to parts that the store has then.

**The law** (`Action.Safe.bind`): an action made of safe steps is safe. From it every action that a
program is made of is found safe in turn.
-/

namespace Abacus

/-- What an action may rely on: no reference leads nowhere, and scopes that are yet to be opened are
free. -/
structure Store.Ready (free : ScopeId → Prop) (s : Store) : Prop where
  sound : s.Sound
  opens : ∀ {id : ScopeId}, s.scopes.size ≤ id.index → free id

/-- What a run needs of the store, it finds after every step. -/
theorem Store.Ready.path {free : ScopeId → Prop} {s s' : Store} (ready : s.Ready free)
    (h : s.Path free s') : s'.Ready free :=
  ⟨h.sound ready.sound, fun hid => ready.opens (Nat.le_trans h.grown.scopes hid)⟩

/-- The values refer only to parts that the store has. -/
def Value.AllFit (s : Store) (values : List Value) : Prop := ∀ v ∈ values, v.Fits s

/-- Values that fit a store fit it when it has grown. -/
theorem Value.AllFit.grown {s s' : Store} {values : List Value} (h : Value.AllFit s values)
    (grown : s.Grown s') : Value.AllFit s' values :=
  fun v hv => (h v hv).grown grown

/-- The outcome is reached in steps, and if it is a value, it is good. -/
inductive Stepped {α : Type} (free : ScopeId → Prop) (good : Store → α → Prop) (s : Store) :
    EStateM.Result Interruption Store α → Prop
  | value {a : α} {s' : Store} : s.Path free s' → good s' a → Stepped free good s (.ok a s')
  | interruption {e : Interruption} {s' : Store} : s.Path free s' →
    Stepped free good s (.error e s')

namespace Stepped

variable {α : Type} {free : ScopeId → Prop} {good good' : Store → α → Prop} {s s' : Store}
  {result : EStateM.Result Interruption Store α}

/-- What is reached in steps after other steps is reached in steps. -/
theorem after (h : Stepped free good s' result) (hpath : s.Path free s') :
    Stepped free good s result := by
  cases h with
  | value hpath' hgood => exact .value (hpath.trans hpath') hgood
  | interruption hpath' => exact .interruption (hpath.trans hpath')

/-- What is said of the value may be said more weakly. -/
theorem imp (h : Stepped free good s result)
    (himp : ∀ {a s'}, s.Grown s' → good s' a → good' s' a) : Stepped free good' s result := by
  cases h with
  | value hpath hgood => exact .value hpath (himp hpath.grown hgood)
  | interruption hpath => exact .interruption hpath

end Stepped

namespace Action

/-- From the store the action takes steps only and ends in a good value, if in any. -/
def Safe {α : Type} (free : ScopeId → Prop) (x : Action α) (good : Store → α → Prop) (s : Store) :
    Prop :=
  s.Ready free → Stepped free good s (x s)

/-- Nothing is asked of a value. -/
def Any {α : Type} (_ : Store) (_ : α) : Prop := True

variable {α β : Type} {free : ScopeId → Prop} {P P' : Store → α → Prop}
  {Q : Store → β → Prop} {s : Store}

namespace Safe

/-- **An action made of safe steps is safe.** -/
theorem bind {x : Action α} {f : α → Action β} (h : Safe free x P s)
    (hf : ∀ {a s'}, s.Grown s' → P s' a → Safe free (f a) Q s') :
    Safe free (x >>= f) Q s := by
  intro ready
  have hx := h ready
  cases hresult : x s with
  | ok a s' =>
    rw [hresult] at hx
    rw [bind_ok hresult]
    cases hx with
    | value hpath hgood => exact (hf hpath.grown hgood (ready.path hpath)).after hpath
  | error e s' =>
    rw [hresult] at hx
    rw [bind_error hresult]
    cases hx with
    | interruption hpath => exact .interruption hpath

theorem imp {x : Action α} (h : Safe free x P s)
    (himp : ∀ {a s'}, s.Grown s' → P s' a → P' s' a) : Safe free x P' s :=
  fun ready => (h ready).imp himp

/-- To give a value changes nothing. -/
theorem pure {a : α} (h : P s a) : Safe free (Pure.pure a) P s := fun _ => .value .refl h

/-- To end the run changes nothing. -/
theorem throw {e : Interruption} : Safe free (MonadExcept.throw e) P s := fun _ => .interruption .refl

/-- Nor does a fault. -/
theorem fail {fault : Fault} {position : Position} : Safe free (Action.fail fault position) P s :=
  throw

/-- A look at the store shows it as it is. -/
theorem view {f : Store → α} {rest : α → Action β} (h : s.Sound → Safe free (rest (f s)) Q s) :
    Safe free (Action.view f >>= rest) Q s :=
  fun ready => h ready.sound ready

/-- What comes after an interruption never runs. -/
theorem throw_bind {e : Interruption} {rest : α → Action β} :
    Safe free ((MonadExcept.throw e : Action α) >>= rest) Q s := fun _ => .interruption .refl

/-- Nothing comes after a fault. -/
theorem fail_bind {fault : Fault} {position : Position} {rest : α → Action β} :
    Safe free (Action.fail fault position >>= rest) Q s :=
  throw_bind

/-- A single change, which gives something new. -/
theorem create {f : Store → α × Store} (h : s.Ready free → s.Step free (f s).2)
    (hgood : s.Ready free → P (f s).2 (f s).1) : Safe free (Action.create f) P s :=
  fun ready => .value (.single (h ready)) (hgood ready)

/-- A single change. -/
theorem modify {f : Store → Store} (h : s.Ready free → s.Step free (f s)) :
    Safe free (modify f : Action PUnit) Any s :=
  fun ready => .value (.single (h ready)) trivial

/-- What may be relied on may be used. -/
theorem of_ready {x : Action α} (h : s.Ready free → Safe free x P s) : Safe free x P s :=
  fun ready => h ready ready

/-- Looking a name up leaves the store as it is. -/
theorem ofName {find : Store → Except NameFault α} {position : Position} :
    Safe free (Action.ofName find position) (fun s' a => s' = s ∧ find s = .ok a) s := by
  intro ready
  unfold Action.ofName
  cases hfind : find s with
  | ok a => exact .value .refl ⟨rfl, rfl⟩
  | error e => exact .interruption .refl

/-- To compute with numbers changes nothing. -/
theorem ofNumeric {answer : Except Number.Failure α} {position : Position} :
    Safe free (Action.ofNumeric answer position) Any s := by
  cases answer with
  | ok value => exact pure trivial
  | error failure => exact fail

/-- A new vector holds what the store has. -/
theorem newVector {items : List Value} (h : Value.AllFit s items) :
    Safe free (Action.newVector items) Value.Fits s := by
  refine bind (P := fun s' (id : VectorId) => id.index < s'.vectors.size)
    (create (fun _ => .addVector fun v hv => h v (by simpa using hv)) fun _ => ?_)
    fun _ hid => pure hid
  simp [Store.addVector]

/-- Going on only if a condition does not hold. -/
theorem guarded {c : Prop} [Decidable c] {fault : Fault} {position : Position}
    {rest : PUnit → Action α} (h : ¬ c → Safe free (rest ⟨⟩) P s) :
    Safe free (if c then (do let r ← Action.fail fault position; rest r) else rest ⟨⟩) P s := by
  by_cases hc : c
  · rw [if_pos hc]
    exact fail_bind
  · rw [if_neg hc]
    exact h hc

/-- The elements of a vector are what the store has. -/
theorem items {id : VectorId} : Safe free (Action.items id) Value.AllFit s :=
  view fun sound => pure fun _ hv => sound.elements (Array.mem_toList_iff.mp hv)

/-- Going on after a fault is safe if the handler is. -/
theorem recover {x : Action α} {handler : Fault → Action α} (h : Safe free x P s)
    (hhandler : ∀ {fault s'}, s.Grown s' → Safe free (handler fault) P s') :
    Safe free (Action.recover x handler) P s := by
  intro ready
  have hx := h ready
  unfold Action.recover
  cases hresult : x s with
  | ok a s' =>
    rw [hresult] at hx
    exact hx
  | error e s' =>
    rw [hresult] at hx
    cases hx with
    | interruption hpath =>
      cases e with
      | fault error => exact (hhandler hpath.grown (ready.path hpath)).after hpath
      | _ => exact .interruption hpath

/-! ## Lists -/

/-- An action for each of a list of things, one after the other. -/
theorem mapM {f : β → Action Value} {xs : List β}
    (h : ∀ x ∈ xs, ∀ {s'}, s.Grown s' → Safe free (f x) Value.Fits s') :
    Safe free (xs.mapM f) Value.AllFit s := by
  induction xs generalizing s with
  | nil => exact pure fun _ hv => nomatch hv
  | cons x rest ih =>
    rw [List.mapM_cons]
    refine (h x List.mem_cons_self (.refl s)).bind fun {v s₁} hgrown hv => ?_
    refine (ih fun y hy _ hgrown' => h y (List.mem_cons_of_mem x hy) (hgrown.trans hgrown')).bind
      fun {vs s₂} hgrown' hvs => pure fun w hw => ?_
    rcases List.mem_cons.mp hw with rfl | hw
    · exact hv.grown hgrown'
    · exact hvs w hw

/-- A vector of what an action gives for each of a list of things. -/
theorem newVectorOf {f : β → Action Value} {xs : List β}
    (h : ∀ x ∈ xs, ∀ {s'}, s.Grown s' → Safe free (f x) Value.Fits s') :
    Safe free (do Action.newVector (← xs.mapM f)) Value.Fits s :=
  (mapM h).bind fun _ hvs => newVector hvs

/-- A state that goes through a list of things. -/
theorem foldlM {f : α → β → Action α} {xs : List β} {a : α} (init : P s a)
    (h : ∀ x ∈ xs, ∀ {a s'}, s.Grown s' → P s' a → Safe free (f a x) P s') :
    Safe free (xs.foldlM f a) P s := by
  induction xs generalizing s a with
  | nil => exact pure init
  | cons x rest ih =>
    rw [List.foldlM_cons]
    refine (h x List.mem_cons_self (.refl s) init).bind fun hgrown ha => ?_
    exact ih ha fun y hy _ _ hgrown' => h y (List.mem_cons_of_mem x hy) (hgrown.trans hgrown')

end Safe

/-! ## Operators -/

/-- An operation on numbers gives a number or a truth value. -/
theorem onNumbers_cases {op : BinaryOp} {a b : Number} {value : Value}
    (h : op.onNumbers a b = .ok value) : (∃ n, value = .number n) ∨ ∃ b, value = .boolean b := by
  have hnumber : ∀ answer : Except Number.Failure Number,
      (answer.map Value.number).mapError Fault.number = .ok value → ∃ n, value = .number n := by
    intro answer h
    cases answer <;> cases h
    exact ⟨_, rfl⟩
  have hcomparison : ∀ (answer : Except Number.Failure (Option Ordering)) (holds : Ordering → Bool),
      (answer.map fun order => Value.boolean ((order.map holds).getD false)).mapError Fault.number =
        .ok value → ∃ b, value = .boolean b := by
    intro answer holds h
    cases answer <;> cases h
    exact ⟨_, rfl⟩
  cases op with
  | div | rem => exact .inl (hnumber _ h)
  | less | lessEq | greater | greaterEq => exact .inr (hcomparison _ _ h)
  | eq | notEq => cases h; exact .inr ⟨_, rfl⟩
  | and | or => cases h
  | _ => cases h; exact .inl ⟨_, rfl⟩

/-- What an operator makes of numbers refers to nothing. -/
theorem onNumbers_fits {op : BinaryOp} {a b : Number} {value : Value}
    (h : op.onNumbers a b = .ok value) : value.Fits s := by
  obtain ⟨n, rfl⟩ | ⟨b, rfl⟩ := onNumbers_cases h <;> trivial

/-- Operations on vectors go element by element, each with less depth. -/
theorem binaryTo_safe (position : Position) (depth : Nat) (op : BinaryOp) (left right : Value) :
    Safe free (binaryTo position depth op left right) Value.Fits s := by
  induction depth using Nat.strongRecOn generalizing op left right s with
  | ind depth ih =>
    unfold binaryTo
    split
    case h_1 | h_2 => exact Safe.view fun _ => Safe.pure trivial
    case h_3 =>
      split
      · next value hvalue => exact Safe.pure (onNumbers_fits hvalue)
      · exact Safe.fail
    case h_4 =>
      split
      · exact Safe.throw
      · split
        case h_1 | h_2 =>
          refine Safe.items.bind fun _ _ => Safe.items.bind fun _ _ => Safe.guarded fun _ => ?_
          exact Safe.newVectorOf fun _ _ _ _ => ih _ (Nat.lt_succ_self _) _ _ _
        case h_3 =>
          refine Safe.items.bind fun _ _ => Safe.items.bind fun _ _ => Safe.guarded fun _ => ?_
          refine Safe.foldlM trivial fun _ _ _ _ _ _ => ?_
          exact (ih _ (Nat.lt_succ_self _) _ _ _).bind fun _ _ => ih _ (Nat.lt_succ_self _) _ _ _
        case h_4 => exact Safe.fail
    case h_5 | h_6 | h_7 =>
      split
      · exact Safe.throw
      · refine Safe.items.bind fun _ _ => Safe.newVectorOf fun _ _ _ _ => ?_
        exact ih _ (Nat.lt_succ_self _) _ _ _
    case h_8 => exact Safe.fail

/-- An operator of two values makes vectors at most. -/
theorem binary_safe (op : BinaryOp) (left right : Value) (position : Position) :
    Safe free (binary op left right position) Value.Fits s :=
  Safe.view fun _ => binaryTo_safe _ _ _ _ _

/-- So does a negation, to every depth. -/
theorem negateTo_safe (position : Position) (depth : Nat) (value : Value) :
    Safe free (negateTo position depth value) Value.Fits s := by
  induction depth generalizing value s with
  | zero =>
    cases value with
    | number n => exact Safe.pure trivial
    | vector v => exact Safe.throw
    | _ => exact Safe.fail
  | succ depth ih =>
    cases value with
    | number n => exact Safe.pure trivial
    | vector v => exact Safe.items.bind fun _ _ => Safe.newVectorOf fun x _ _ _ => ih x
    | _ => exact Safe.fail

/-- And an operator of one value. -/
theorem unary_safe (op : UnaryOp) (operand : Value) (position : Position) :
    Safe free (unary op operand position) Value.Fits s := by
  unfold unary
  split
  · exact Safe.view fun _ => negateTo_safe _ _ _
  · exact Safe.pure trivial
  · exact Safe.fail

end Action

end Abacus
