import Abacus.Proofs.Run.Blind
import Abacus.Proofs.Run.Vetted
import Abacus.Proofs.Sequence.Refusing

/-!
# Comparing probed actions with actions

A comparison says of a probed action that it does what an action does, in a sense of its own: the
stores may be the same or differ in something, and what the probe does may be told of or not. What makes
it a comparison is that it goes through what is made of actions: through one action after the other,
through handlers, and through actions that are blind to sequences.

A comparison goes through programs (`Comparison.Through`) if it does not mind what the probe does at
the moments of a run, and if it goes through two requests to sequences: looking ahead and consuming.
All other requests are made of these.

**The law** (`Comparison.Through.ofDepth`): then readers are compared with readers, whichever sequences
draw on which.
-/

namespace Abacus

open Abacus.Action (Blind Obeys Whatever)

/-! ## Consuming raw elements -/

namespace Sequence

variable {call : Call} {reader : Reader} {id : SequenceId}

/-- Consumes a raw element of a sequence; none at the end. -/
def advance (call : Call) (reader : Reader) (id : SequenceId) : Action (Option Value) := do
  let sequence ← Action.view (·.sequence id)
  raw call reader false sequence.source sequence.position

/-- To take an element is to look at it, to consume it and to forget what has been looked ahead to.
-/
theorem next_eq (fuel : Nat) (position : Position) :
    next call reader fuel id position = do
      let value ← peek call reader fuel id position
      let _ ← advance call reader id
      modify (·.setPending id none)
      return value := rfl

theorem skip_succ (count : Nat) :
    skip call reader id (count + 1) = do
      match ← advance call reader id with
      | some _ => skip call reader id count
      | none => return := rfl

theorem advance_obeys {D : Discipline} (hcall : call.Obeys D) (hreader : reader.Obeys D)
    (id : SequenceId) : Obeys D (advance call reader id) (Value.OptionUnder D) :=
  (Obeys.view fun hs => hs.sequence id).bind fun hq => raw_obeys hcall hreader hq.position

end Sequence

/-! ## Comparisons -/

/-- Programs may hold anything, report anywhere and end in any way. -/
def Discipline.any : Discipline := ⟨fun _ => True, trivial, True, True, False⟩

/-- Nothing is forbidden. -/
theorem Discipline.lenient_any : Discipline.any.Lenient := ⟨fun _ => trivial, fun h => h⟩

theorem Value.under_any (v : Value) : v.Under .any := v.under_of_lenient Discipline.lenient_any

theorem Value.allUnder_any (vs : List Value) : Value.AllUnder .any vs :=
  Value.allUnder_of_lenient Discipline.lenient_any vs

theorem Generator.under_any (g : Generator) : g.Under .any :=
  g.under_of_lenient Discipline.lenient_any

theorem Store.under_any (s : Store) : s.Under .any := s.under_of_lenient Discipline.lenient_any

/-- So whatever they do is allowed. -/
theorem Action.obeys_any {α : Type} (x : Action α) : Obeys .any x Whatever := by
  intro s _
  cases x s with
  | ok a s' => exact .value s'.under_any trivial
  | error e s' => exact .interruption s'.under_any (by cases e <;> trivial)

/-- A way to compare probed actions with actions, which goes through what is made of them. -/
structure Comparison (W : Type) [Carries W] where
  /-- What the actions have to keep. -/
  discipline : Discipline
  place : ∀ p, discipline.place p
  exits : discipline.exits
  /-- The probed action does what the action does, wherever these sequences are there. -/
  Ties : {α : Type} → List SequenceId → Probed W α → Action α → Prop
  pure : ∀ {α : Type} {there : List SequenceId} (a : α), Ties there (Pure.pure a) (Pure.pure a)
  throw : ∀ {α : Type} {there : List SequenceId} {e : Interruption}, (∀ code, e ≠ .exit code) →
    Ties there (MonadExcept.throw e : Probed W α) (MonadExcept.throw e)
  bind : ∀ {α β : Type} {there : List SequenceId} {x : Probed W α} {y : Action α}
    {f : α → Probed W β} {g : α → Action β} {P : α → Prop}, Ties there x y →
    Obeys discipline y P → (∀ {a}, P a → Ties there (f a) (g a)) → Ties there (x >>= f) (y >>= g)
  recover : ∀ {α : Type} {there : List SequenceId} {x : Probed W α} {y : Action α}
    {handler : Fault → Probed W α} {handler' : Fault → Action α} {P : α → Prop}, Ties there x y →
    Obeys discipline y P → (∀ fault, Ties there (handler fault) (handler' fault)) →
    Ties there (Probed.recover x handler) (Action.recover y handler')
  quiet : ∀ {α : Type} {there : List SequenceId} {y : Action α}, Blind y →
    Ties there (Probed.quiet y) y
  /-- A look at where a sequence was built. -/
  position : ∀ {there : List SequenceId} (id : SequenceId),
    Ties there (Probed.quiet (Action.view fun s => (s.sequence id).position))
      (Action.view fun s => (s.sequence id).position)

namespace Comparison

variable {W : Type} [Carries W] (C : Comparison W) {α β : Type} {there : List SequenceId}

/-! ## Rules -/

section Rules

variable {P : α → Prop} {fault : Fault} {position : Position}

/-- An action that is blind to sequences, and what comes after it. -/
theorem after {x : Action α} {f : α → Probed W β} {g : α → Action β} (hblind : Blind x)
    (hx : Obeys C.discipline x P) (hf : ∀ {a}, P a → C.Ties there (f a) (g a)) :
    C.Ties there (Probed.quiet x >>= f) (x >>= g) :=
  C.bind (C.quiet hblind) hx hf

theorem fail : C.Ties there (Probed.quiet (Action.fail fault position : Action α))
    (Action.fail fault position) :=
  C.quiet (.fail _ _)

/-- What comes after a fault never runs. -/
theorem fail_bind {rest : β → Probed W α} {rest' : β → Action α} :
    C.Ties there (Probed.quiet (Action.fail fault position) >>= rest)
      (Action.fail fault position >>= rest') :=
  C.after (P := fun _ => False) (.fail _ _) (.fail (C.place position)) False.elim

/-- Going on only if a condition does not hold. -/
theorem guarded {c : Prop} [Decidable c] {rest : PUnit → Probed W α} {rest' : PUnit → Action α}
    (h : ¬ c → C.Ties there (rest ⟨⟩) (rest' ⟨⟩)) :
    C.Ties there
      (if c then (do let r ← Probed.quiet (Action.fail fault position); rest r) else rest ⟨⟩)
      (if c then (do let r ← Action.fail fault position; rest' r) else rest' ⟨⟩) := by
  by_cases hc : c
  · rw [if_pos hc, if_pos hc]
    exact C.fail_bind
  · rw [if_neg hc, if_neg hc]
    exact h hc

theorem newVector (items : List Value) :
    C.Ties there (Probed.quiet (Action.newVector items)) (Action.newVector items) :=
  C.quiet (.newVector items)

/-- Elements of a list that are compared one by one are compared together. -/
theorem mapM {f : β → Probed W Value} {g : β → Action Value} {xs : List β}
    (h : ∀ x ∈ xs, C.Ties there (f x) (g x))
    (hg : ∀ x ∈ xs, Obeys C.discipline (g x) (Value.Under C.discipline)) :
    C.Ties there (xs.mapM f) (xs.mapM g) := by
  induction xs with
  | nil => exact C.pure []
  | cons x rest ih =>
    obtain ⟨hx, hrest⟩ := List.forall_mem_cons.mp h
    obtain ⟨hgx, hgrest⟩ := List.forall_mem_cons.mp hg
    rw [List.mapM_cons, List.mapM_cons]
    exact C.bind hx hgx fun _ => C.bind (ih hrest hgrest) (.mapM hgrest) fun _ => C.pure _

theorem foldlM {f : α → β → Probed W α} {g : α → β → Action α} {xs : List β} {a : α} (init : P a)
    (h : ∀ x ∈ xs, ∀ {a}, P a → C.Ties there (f a x) (g a x))
    (hg : ∀ x ∈ xs, ∀ {a}, P a → Obeys C.discipline (g a x) P) :
    C.Ties there (xs.foldlM f a) (xs.foldlM g a) := by
  induction xs generalizing a with
  | nil => exact C.pure a
  | cons x rest ih =>
    rw [List.foldlM_cons, List.foldlM_cons]
    refine C.bind (h x List.mem_cons_self init) (hg x List.mem_cons_self init) fun ha => ?_
    exact ih ha (fun y hy => h y (List.mem_cons_of_mem x hy))
      fun y hy => hg y (List.mem_cons_of_mem x hy)

end Rules

/-! ## Going through programs -/

/-- What is done before an action makes no difference. -/
def Harmless (hook : Probed W Unit) : Prop :=
  ∀ {α : Type} {there : List SequenceId} {x : Probed W α} {y : Action α},
    C.Ties there x y → C.Ties there (hook >>= fun _ => x) y

/-- Where nothing is done, nothing is different. -/
theorem harmless_pure : C.Harmless (Pure.pure ()) := fun h => h

/-- Probed calls are compared with calls, which keep the discipline. -/
structure Calls (call : Probed.Call W) (call' : Call) : Prop where
  ties : ∀ {there : List SequenceId} {f : Value} {arguments : List Value} {position : Position},
    f.Under C.discipline → Value.AllUnder C.discipline arguments →
      C.Ties there (call f arguments position) (call' f arguments position)
  obeys : call'.Obeys C.discipline

/-- Probed readers are compared with readers, where the sequences are there. -/
structure Reads (reader : Probed.Reader W) (reader' : Reader) : Prop where
  atEnd : ∀ {there : List SequenceId} {id : SequenceId}, id ∈ there →
    C.Ties there (reader.atEnd id) (reader'.atEnd id)
  next : ∀ {there : List SequenceId} {id : SequenceId} (peek : Bool), id ∈ there →
    C.Ties there (reader.next id peek) (reader'.next id peek)
  obeys : reader'.Obeys C.discipline

/-- Whether a built-in function builds a generator that calls a function, calls one itself, reads a
sequence or ends the program, given the right arguments. -/
def notable : Native → List Value → Bool
  | .seq, _ | .iterate, _ | .tryOr, _ | .tryCatch, _ | .exit, _ => true
  | .map, [.vector _, _] | .filter, [.vector _, _] | .reduce, [.vector _, _, _] => true
  | .reduce, [.sequence _, _, _] | .skip, [.sequence _, _] => true
  | .collect, [.sequence _] | .next, [.sequence _] | .peek, [.sequence _]
  | .hasNext, [.sequence _] => true
  | _, _ => false

open Probed (idle sequencesOf)

/-- What is done where expressions are evaluated and functions of the program are called makes no
difference. -/
structure Tolerates (probe : Probe W) : Prop where
  expression : ∀ {e : Expr} {scope : ScopeId}, (C.discipline.orderly → e.WellFormed) →
    C.Harmless (probe.expression e scope)
  valueless : ¬ C.discipline.orderly → C.Harmless probe.valueless
  calling : ∀ {f : Value} {arguments : List Value} {position : Position},
    C.Harmless (probe.calling f arguments position)
  entering : ∀ {closure : Closure} {arguments : List Value} {position : Position},
    closure.Under C.discipline → closure.parameters.length = arguments.length →
      C.Harmless (probe.entering (.function closure) arguments position)

/-- The comparison goes through programs that are run with a probe; calls of built-in functions may be
vetted. -/
structure Through (probe : Probe W) (vetted : Bool) : Prop extends C.Tolerates probe where
  vets : vetted = true → C.discipline.misapplies
  /-- What comes after the sequences among the arguments have been found there may rely on that. -/
  vetting : ∀ {there : List SequenceId} {native : Native} {arguments : List Value}
    {position : Position} {x : Probed W Value} {y : Action Value},
    C.Ties (sequencesOf arguments) x y →
      C.Ties there (probe.entering (.native native) arguments position >>= fun _ => x)
        (do
          if vetted then Action.vet (sequencesOf arguments)
          y)
  /-- A call of `exit` is compared as a whole. -/
  exiting : ∀ {there : List SequenceId} {arguments : List Value} {position : Position},
    C.Ties there
      (do
        probe.calling (.native .exit) arguments position
        probe.entering (.native .exit) arguments position
        probe.exiting (Probed.quiet (Native.run idle position .exit arguments)))
      (do
        if vetted then Action.vet (sequencesOf arguments)
        Native.run idle position .exit arguments)
  natives : ∀ {there : List SequenceId} {native : Native} {arguments : List Value}
    {position : Position}, notable native arguments = false →
      (∀ q ∈ sequencesOf arguments, q ∈ there) →
        C.Ties there (Probed.quiet (native.run idle position arguments))
          (native.run idle position arguments)
  building : ∀ {there : List SequenceId} {origin : Origin} {position : Position},
    C.Ties there (Probed.build probe origin position)
      (Sequence.create (origin.generator [] origin.seeds.head?) position)
  asking : ∀ {there : List SequenceId} {rounds : Nat} {id : SequenceId} {x : Probed W Value}
    {y : Action Value}, C.Ties there x y → Sequence.Refuses rounds id y →
      C.Ties there (probe.asking rounds id x) y
  forget : ∀ {there : List SequenceId} (id : SequenceId),
    C.Ties there (Probed.quiet (modify (·.setPending id none) : Action PUnit))
      (modify (·.setPending id none) : Action PUnit)
  lookahead : ∀ {there : List SequenceId} {call : Probed.Call W} {call' : Call}
    {reader : Probed.Reader W} {reader' : Reader} {id : SequenceId} (fuel : Nat),
    C.Calls call call' → C.Reads reader reader' → id ∈ there →
      C.Ties there (Probed.lookahead probe call reader fuel id)
        (Sequence.lookahead call' reader' fuel id)
  advance : ∀ {there : List SequenceId} {call : Probed.Call W} {call' : Call}
    {reader : Probed.Reader W} {reader' : Reader} (id : SequenceId),
    C.Calls call call' → C.Reads reader reader' →
      C.Ties there (Probed.advance probe call reader id) (Sequence.advance call' reader' id)

/-! ## Reading -/

section Reading

variable {C} {call : Probed.Call W} {call' : Call} {reader : Probed.Reader W} {reader' : Reader}
  (hcall : C.Calls call call') (hreader : C.Reads reader reader')

include hcall

theorem Calls.transform {position : Position} {ts : List Transformer} {value : Value}
    (hts : ∀ t ∈ ts, t.Under C.discipline) (hvalue : value.Under C.discipline) :
    C.Ties there (Probed.transform call position ts value)
      (Sequence.transform call' position ts value) := by
  induction ts generalizing value with
  | nil => exact C.pure _
  | cons t rest ih =>
    obtain ⟨ht, hrest⟩ := List.forall_mem_cons.mp hts
    have harguments := Value.allUnder_singleton hvalue
    cases t with
    | map f =>
      exact C.bind (hcall.ties ht harguments) (hcall.obeys ht harguments (C.place position)) (ih hrest)
    | filter predicate =>
      refine C.bind (hcall.ties ht harguments) (hcall.obeys ht harguments (C.place position))
        fun {kept} _ => ?_
      cases kept with
      | boolean b =>
        cases b with
        | true => exact ih hrest hvalue
        | false => exact C.pure none
      | _ => exact C.fail

omit hcall

variable {probe : Probe W} {vetted : Bool} {id : SequenceId} (h : Through C probe vetted)

namespace Through

include h hcall hreader

theorem atEnd (fuel : Nat) (hid : id ∈ there) :
    C.Ties there (Probed.atEnd probe call reader fuel id) (Sequence.atEnd call' reader' fuel id) :=
  C.bind (h.lookahead fuel hcall hreader hid)
    (Sequence.lookahead_obeys hcall.obeys hreader.obeys fuel id) fun _ => C.pure _

theorem peek (fuel : Nat) (hid : id ∈ there) (position : Position) :
    C.Ties there (Probed.peek probe call reader fuel id position)
      (Sequence.peek call' reader' fuel id position) := by
  refine C.bind (h.lookahead fuel hcall hreader hid)
    (Sequence.lookahead_obeys hcall.obeys hreader.obeys fuel id) fun {found} _ => ?_
  cases found with
  | some value => exact C.pure value
  | none => exact C.fail

/-- What is taken has been looked at before, and is consumed then. -/
theorem next (fuel : Nat) (hid : id ∈ there) (position : Position) :
    C.Ties there (Probed.next probe call reader fuel id position)
      (Sequence.next call' reader' fuel id position) := by
  rw [Sequence.next_eq]
  refine C.bind (h.peek hcall hreader fuel hid position)
    (Sequence.peek_obeys hcall.obeys hreader.obeys fuel id (C.place position)) fun _ => ?_
  refine C.bind (h.advance id hcall hreader)
    (Sequence.advance_obeys hcall.obeys hreader.obeys id) fun _ => ?_
  exact C.bind (h.forget id) (Sequence.setPending_obeys fun _ h => nomatch h) fun _ => C.pure _

theorem skip (id : SequenceId) (count : Nat) :
    C.Ties there (Probed.skip probe call reader id count) (Sequence.skip call' reader' id count) := by
  induction count with
  | zero => exact C.pure _
  | succ count ih =>
    rw [Sequence.skip_succ]
    refine C.bind (h.advance id hcall hreader)
      (Sequence.advance_obeys hcall.obeys hreader.obeys id) fun {found} _ => ?_
    cases found with
    | some _ => exact ih
    | none => exact C.pure _

/-- Consuming a sequence is compared if each round is. -/
theorem foldAll {σ : Type} {P : σ → Prop} (hid : id ∈ there) (position : Position)
    {step : σ → Value → Probed W σ} {step' : σ → Value → Action σ}
    (hstep : ∀ {a v}, P a → v.Under C.discipline → C.Ties there (step a v) (step' a v))
    (hobeys : ∀ {a v}, P a → v.Under C.discipline → Obeys C.discipline (step' a v) P) (fuel : Nat)
    {state : σ} (hstate : P state) :
    C.Ties there (Probed.foldAll probe call reader id position step fuel state)
      (Sequence.foldAll call' reader' id position step' fuel state) := by
  induction fuel generalizing state with
  | zero => exact C.throw nofun
  | succ fuel ih =>
    refine C.bind (h.atEnd hcall hreader _ hid)
      (Sequence.atEnd_obeys hcall.obeys hreader.obeys _ id) fun {done} _ => ?_
    cases done with
    | true => exact C.pure state
    | false =>
      refine C.bind (h.next hcall hreader _ hid position)
        (Sequence.next_obeys hcall.obeys hreader.obeys _ id (C.place position)) fun hv => ?_
      exact C.bind (hstep hstate hv) (hobeys hstate hv) ih

theorem collect (fuel : Nat) (hid : id ∈ there) :
    C.Ties there (Probed.collect probe call reader fuel id)
      (Sequence.collect call' reader' fuel id) := by
  refine C.bind (P := Whatever) (C.position id) (.view fun _ => trivial) fun {position} _ => ?_
  have hpure : ∀ {items : List Value} {item : Value}, Whatever items → item.Under C.discipline →
      Obeys C.discipline (Pure.pure (item :: items)) Whatever := fun _ _ => .pure trivial
  exact C.bind (h.foldAll hcall hreader hid position (fun _ _ => C.pure _) hpure fuel trivial)
    (Sequence.foldAll_obeys hcall.obeys hreader.obeys id (C.place _) fuel trivial hpure) fun _ => C.pure _

omit hreader in
/-- **Readers are compared with readers**, however deeply sequences draw on sequences. -/
theorem ofDepth (depth : Nat) :
    C.Reads (Probed.Reader.ofDepth probe call depth) (Reader.ofDepth call' depth) := by
  induction depth with
  | zero =>
    exact ⟨fun _ => C.throw nofun, fun _ _ => C.throw nofun, Reader.ofDepth_obeys hcall.obeys 0⟩
  | succ depth ih =>
    refine ⟨fun hid => h.atEnd hcall ih depth hid, fun {_ id} peek hid => ?_,
      Reader.ofDepth_obeys hcall.obeys (depth + 1)⟩
    cases peek with
    | true =>
      exact C.bind (P := Whatever) (C.position id) (.view fun _ => trivial)
        (g := fun position => Sequence.peek call' (.ofDepth call' depth) depth id position)
        fun {position} _ => h.peek hcall ih depth hid position
    | false =>
      exact C.bind (P := Whatever) (C.position id) (.view fun _ => trivial)
        (g := fun position => Sequence.next call' (.ofDepth call' depth) depth id position)
        fun {position} _ => h.next hcall ih depth hid position

end Through

end Reading

end Comparison

end Abacus
