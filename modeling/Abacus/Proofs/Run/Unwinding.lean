import Abacus.Proofs.Run.Exact
import Abacus.Proofs.Run.Trace

/-!
# Exits unwind everything

`exit` ends a program: no handler takes it, no function that is called back lives on after it, and
nothing that the program still had to do is done. And nothing else ends a program that way.

A watched run tells of an action if it does what the action does, and if of exits it has noted just
the one that the action ends in, at the very end. To tell of actions is an exact comparison
(`Traced.telling`, `Traced.exact_telling`): the only place where an exit is noted is the call that
ends in it.

**The laws** (`Traced.runScript_tells`, `Traced.exits_unwind_everything`): watched scripts tell of
scripts; so a call of `exit` that ends in an exit is the last thing that happens, and the source ends
in an exit with its code.
-/

namespace Abacus

open Discipline (lasting)

namespace Traced

open Abacus.Action (Obeys Whatever)
open Probed (idle)

/-! ## Telling -/

/-- No exit is noted. -/
def Silent (events : List Event) : Prop := ∀ code : Int, Event.exit code ∉ events

theorem silent_nil : Silent [] := fun _ h => nomatch h

/-- What is noted before and what is noted after hold no exit together. -/
theorem Silent.append {before after : List Event} (h : Silent before) (h' : Silent after) :
    Silent (before ++ after) := fun code hmem =>
  (List.mem_append.mp hmem).elim (h code) (h' code)

/-- The events of a call that ends in an exit: the call of `exit`, and the exit that it is. -/
def exitEvents (code : Int64) (position : Position) : List Event :=
  [.call (.native .exit) [.number (.integer code)] position, .exit code.toInt]

/-- The watched outcome is the outcome. No exit has been noted unless the outcome is one; then it is
the one that has been noted last, and it is that of a call of `exit`. -/
inductive Told {α : Type} (w : Watched) :
    EStateM.Result Interruption Watched α → EStateM.Result Interruption Store α → Prop
  | value {a : α} {s : Store} {events : List Event} : Silent events →
    Told w (.ok a ⟨s, w.events ++ events⟩) (.ok a s)
  | exit {code : Int64} {position : Position} {s : Store} {events : List Event} : Silent events →
    Told w (.error (.exit code.toInt) ⟨s, w.events ++ events ++ exitEvents code position⟩)
      (.error (.exit code.toInt) s)
  | other {e : Interruption} {s : Store} {events : List Event} : (∀ code, e ≠ .exit code) →
    Silent events → Told w (.error e ⟨s, w.events ++ events⟩) (.error e s)

/-- A value before which nothing has been noted. -/
theorem Told.plain {α : Type} {w : Watched} {a : α} {s : Store} :
    Told w (.ok a { w with store := s }) (.ok a s) := by
  have h : Told w (.ok a ⟨s, w.events ++ []⟩) (.ok a s) := .value silent_nil
  rwa [List.append_nil] at h

/-- An interruption that is no exit, and before which nothing has been noted. -/
theorem Told.interrupted {α : Type} {w : Watched} {e : Interruption} {s : Store}
    (he : ∀ code, e ≠ .exit code) :
    Told (α := α) w (.error e { w with store := s }) (.error e s) := by
  have h : Told (α := α) w (.error e ⟨s, w.events ++ []⟩) (.error e s) := .other he silent_nil
  rwa [List.append_nil] at h

/-- What has been noted before changes nothing if there is no exit in it. -/
theorem Told.after {α : Type} {w : Watched} {events : List Event} {s : Store}
    {seen : EStateM.Result Interruption Watched α} {outcome : EStateM.Result Interruption Store α}
    (h : Told ⟨s, w.events ++ events⟩ seen outcome) (hsilent : Silent events) :
    Told w seen outcome := by
  cases h with
  | value h =>
    rw [List.append_assoc]
    exact .value (hsilent.append h)
  | exit h =>
    rw [List.append_assoc w.events]
    exact .exit (hsilent.append h)
  | other he h =>
    rw [List.append_assoc]
    exact .other he (hsilent.append h)

/-- The watched action tells of the action. -/
def Tells {α : Type} (x : Traced α) (y : Action α) : Prop := ∀ w : Watched, Told w (x w) (y w.store)

namespace Tells

variable {α β : Type} {P : α → Prop}

/-- **What is made of actions that are told of is told of.** -/
theorem bind {x : Traced α} {y : Action α} {f : α → Traced β} {g : α → Action β} (h : Tells x y)
    (hy : Obeys .any y P) (hf : ∀ {a}, P a → Tells (f a) (g a)) : Tells (x >>= f) (y >>= g) := by
  intro w
  have hx := h w
  have hgood := hy w.store w.store.under_any
  show Told w (EStateM.bind x f w) (EStateM.bind y g w.store)
  unfold EStateM.bind
  revert hx hgood
  generalize x w = seen
  generalize y w.store = outcome
  intro hx hgood
  cases hx with
  | value hsilent =>
    cases hgood with
    | value _ ha => exact (hf ha _).after hsilent
  | exit hsilent => exact .exit hsilent
  | other he hsilent => exact .other he hsilent

/-- Of an action that does not end in an exit nothing has to be noted. -/
theorem lasting {x : Action α} (h : Obeys lasting x P) : Tells (Probed.quiet x) x := by
  intro w
  have hx := h w.store w.store.under_lasting
  rw [quiet_apply]
  cases hresult : x w.store with
  | ok a s => exact .plain
  | error e s =>
    rw [hresult] at hx
    cases hx with
    | interruption _ he => exact .interrupted (by rintro code rfl; exact he)

/-- What is noted before an action and is no exit changes nothing. -/
theorem note {event : Event} {x : Traced α} {y : Action α} (hevent : ∀ code, event ≠ .exit code)
    (h : Tells x y) : Tells (Traced.note event >>= fun _ => x) y :=
  fun w => (h ⟨w.store, w.events ++ [event]⟩).after fun code hmem =>
    hevent code (List.mem_singleton.mp hmem).symm

/-- A fault is handled, and an exit is not. -/
theorem recover {x : Traced α} {y : Action α} {handler : Fault → Traced α}
    {handler' : Fault → Action α} (h : Tells x y)
    (hhandler : ∀ fault, Tells (handler fault) (handler' fault)) :
    Tells (Probed.recover x handler) (Action.recover y handler') := by
  intro w
  have hx := h w
  unfold Probed.recover Action.recover
  revert hx
  generalize x w = seen
  generalize y w.store = outcome
  intro hx
  cases hx with
  | value hsilent => exact .value hsilent
  | exit hsilent => exact .exit hsilent
  | @other e s events he hsilent =>
    cases e with
    | fault error => exact (hhandler error.fault ⟨s, w.events ++ events⟩).after hsilent
    | exit code => exact absurd rfl (he code)
    | _ => exact .other he hsilent

/-- A source is opened again after an exit as after everything else. -/
theorem holding {x : Traced α} {y : Action α} {id : SourceId} (h : Tells x y) :
    Tells (Probed.holding id x) (Sequence.holding id y) := by
  intro w
  have hx := h ⟨w.store.modifySource id ({ · with busy := true }), w.events⟩
  rw [holding_apply]
  unfold Sequence.holding
  revert hx
  generalize x _ = seen
  generalize y _ = outcome
  intro hx
  cases hx with
  | value hsilent => exact .value hsilent
  | exit hsilent => exact .exit hsilent
  | other he hsilent => exact .other he hsilent

end Tells

/-- To tell of actions is to compare with them. -/
def telling : Comparison Watched where
  discipline := .any
  place _ := trivial
  exits := trivial
  Ties _ x y := Tells x y
  pure _ := fun _ => .plain
  throw he := fun _ => .interrupted he
  bind h hy hf := h.bind hy hf
  recover h _ hhandler := h.recover hhandler
  quiet hblind := .lasting hblind.obeys_lasting
  position _ := .lasting (P := Whatever) (.view fun _ => trivial)

/-! ## Exits -/

/-- Where there is no exit, none is noted. -/
theorem exiting_tells {α : Type} {P : α → Prop} {x : Action α} (h : Obeys lasting x P) :
    Tells (exiting (Probed.quiet x)) x := by
  intro w
  have hx := Tells.lasting h w
  have hlasts := h w.store w.store.under_lasting
  unfold exiting
  revert hx hlasts
  generalize Probed.quiet x w = seen
  generalize x w.store = outcome
  intro hx hlasts
  cases hx with
  | value hsilent => exact .value hsilent
  | exit hsilent =>
    cases hlasts with
    | interruption _ he => exact he.elim
  | @other e s events he hsilent =>
    cases e with
    | exit code => exact absurd rfl (he code)
    | _ => exact .other he hsilent

/-- A call of `exit` that ends in an exit is noted together with it. -/
theorem run_exit_tells (position : Position) (arguments : List Value) :
    Tells (note (.call (.native .exit) arguments position) >>= fun _ =>
        exiting (Probed.quiet (Native.run idle position .exit arguments)))
      (Native.run idle position .exit arguments) := by
  rcases Action.Blind.exit_cases position arguments with ⟨code, rfl, hrun⟩ | hblind
  · intro w
    rw [hrun]
    have h : Told (α := Value) w
        (.error (.exit code.toInt) ⟨w.store, w.events ++ [] ++ exitEvents code position⟩)
        (.error (.exit code.toInt) w.store) := .exit silent_nil
    rwa [List.append_nil, exitEvents, List.append_cons] at h
  · exact .note (by simp) (exiting_tells hblind.obeys_lasting)

/-- What is noted and is no exit makes no difference. -/
theorem harmless_note {event : Event} (hevent : ∀ code, event ≠ .exit code) :
    telling.Harmless (note event) := fun h => Tells.note hevent h

/-- **Telling is an exact comparison**: expressions and calls are noted, and neither is an exit. -/
theorem exact_telling : telling.Exact probe where
  expression _ := harmless_note (by simp)
  valueless _ := telling.harmless_pure
  calling := harmless_note (by simp)
  entering _ _ := telling.harmless_pure
  anywhere h := h
  lasting h := .lasting h
  holding h := Tells.holding h
  running := telling.harmless_pure
  exiting := run_exit_tells _ _
  building := telling.harmless_pure
  element _ := telling.harmless_pure
  applying h := h
  giving := telling.harmless_pure
  asking h := h

/-! ## Sources -/

/-- **Watched scripts tell of scripts.** -/
theorem runScript_tells (fuel : Nat) (script : Script) (here : ScopeId) (w : Watched) :
    let seen := Probed.runScript probe fuel script here w
    outcome seen = script.run fuel here w.store ∧ ∃ events, Silent events ∧
      ((∃ (code : Int64) (position : Position) (s : Store),
          outcome seen = .error (.run (.exit code.toInt)) s ∧
          noted seen = w.events ++ events ++ exitEvents code position) ∨
        (∀ code s, outcome seen ≠ .error (.run (.exit code)) s) ∧
          noted seen = w.events ++ events) := by
  have hthrough := exact_telling.through
  have h : telling.Ties [] (Probed.runEntries probe (Probed.apply probe fuel) here script.entries none)
      (Script.evaluate (Action.apply fuel) here script.entries none) :=
    Action.applyVetted_false fuel ▸
      hthrough.runEntries (hthrough.apply fuel) here none fun ho => ho.elim
  replace h : Told w _ _ := h w
  unfold Probed.runScript Script.run
  revert h
  generalize Probed.runEntries _ _ _ _ _ w = seen
  generalize Script.evaluate _ _ _ _ w.store = result
  intro h
  cases h with
  | exit hsilent => exact ⟨rfl, _, hsilent, .inl ⟨_, _, _, rfl, rfl⟩⟩
  | other he hsilent =>
    refine ⟨rfl, _, hsilent, .inr ⟨fun code s h => ?_, rfl⟩⟩
    cases h
    exact he code rfl
  | value hsilent =>
    -- the statements have run: there may still be one that could not be read
    cases script.fault with
    | none => exact ⟨rfl, _, hsilent, .inr ⟨fun _ _ h => (nomatch h), rfl⟩⟩
    | some e => exact ⟨rfl, _, hsilent, .inr ⟨fun _ _ h => (nomatch h), rfl⟩⟩

/-- **Exits unwind everything.** A source that is watched from its beginning does what it does
otherwise. If a call of `exit` ends in an exit, the source ends in an exit with that code. And if a
source ends in an exit, the code is the one with which `exit` has been called; this call is the last
thing that has happened, and none before it has ended in an exit. -/
theorem exits_unwind_everything (source : String) (here : ScopeId) (s : Store) :
    let seen := runSource source here ⟨s, []⟩
    outcome seen = Abacus.runSource source here s ∧
      (∀ code : Int, .exit code ∈ noted seen → ∃ s', outcome seen = .error (.run (.exit code)) s') ∧
      ∀ (code : Int) (s' : Store), outcome seen = .error (.run (.exit code)) s' →
        ∃ (before : List Event) (given : Int64) (position : Position),
          given.toInt = code ∧ Silent before ∧ noted seen = before ++ exitEvents given position := by
  intro seen
  obtain ⟨houtcome, events, hsilent, ⟨given, position, s', hexit, hnoted⟩ | ⟨hlasts, hnoted⟩⟩ :=
    runScript_tells Action.plenty (Script.read source.toList .start) here ⟨s, []⟩
  · have hnoted : noted seen = events ++ exitEvents given position := hnoted
    refine ⟨houtcome, fun code hmem => ⟨s', ?_⟩, fun code s'' h => ?_⟩
    · rw [hnoted, List.mem_append] at hmem
      obtain rfl : code = given.toInt := by simpa [exitEvents, hsilent code] using hmem
      exact hexit
    · cases hexit.symm.trans h
      exact ⟨events, given, position, rfl, hsilent, hnoted⟩
  · have hnoted : noted seen = events := hnoted
    refine ⟨houtcome, fun code hmem => ?_, fun code s' h => absurd h (hlasts code s')⟩
    exact absurd (hnoted ▸ hmem) (hsilent code)

open Store (outermost initial) in
/-- A callback ends the program, although it runs under a handler and statements follow. -/
theorem exits_unwind_callback :
    let source := "try_or(|| map([1, 2], |x| exit(x + 2)), 0); n = 1"
    let seen := runSource source outermost ⟨initial.2, []⟩
    ∃ (s : Store) (before : List Event) (position : Position),
      Abacus.runSource source outermost initial.2 = .error (.run (.exit 3)) s ∧
      noted seen = before ++ [.call (.native .exit) [.number (.integer 3)] position, .exit 3] ∧
      Silent before := by
  intro source seen
  obtain ⟨houtcome, hexit, hlast⟩ := exits_unwind_everything source outermost initial.2
  have hmem : Event.exit 3 ∈ noted seen := by
    have hcodes : (noted seen).filterMap Event.exitCode? = [3] := by decide +kernel
    obtain ⟨event, hmem, hcode⟩ := List.mem_filterMap.mp (hcodes ▸ List.mem_singleton_self 3)
    cases event with
    | exit code =>
      cases hcode
      exact hmem
    | _ => cases hcode
  obtain ⟨s, hs⟩ := hexit 3 hmem
  obtain ⟨before, given, position, hgiven, hsilent, hnoted⟩ := hlast 3 s hs
  obtain rfl : given = 3 := Int64.toInt.inj hgiven
  exact ⟨s, before, position, houtcome ▸ hs, hnoted, hsilent⟩

end Traced

end Abacus
