import Abacus.Proofs.Run.Probed
import Abacus.Proofs.Sequence.Refusing

/-!
# Recorded runs

A run that is recorded does what the run does and notes what becomes of the generators that call
functions: which of them are built, which calls they make and how these end, and which elements are
consumed. It also knows of which generators the functions are running, and notes how sequences answer
that are asked then for elements of such a generator.

There are two kinds of recorded runs. One does what the run does. The strict one does not even ask a
sequence over a generator whose function is running, but fails at once.

`Recorded.runSource` records a source. What the records of programs have in common, and that recorded
runs end as the runs that they record, is proved beside the laws about applications and about
re-entrant use.
-/

namespace Abacus

/-- What is noted. -/
inductive Entry where
  /-- A source is built whose generator calls a function. -/
  | built (id : SourceId) (origin : Origin)
  /-- The generator of a source calls its function. -/
  | called (id : SourceId) (f argument : Value)
  /-- That call ends. -/
  | ended (id : SourceId) (argument : Value) (result : Except Interruption Value)
  /-- An element of a generator that calls a function is consumed. -/
  | consumed (id : SourceId) (element : Value)
  /-- A sequence at this position was asked while the function of its source was running: the source
  before and after, and the answer. -/
  | reentered (position : Position) (before after : Source) (answer : Except Interruption Value)
  /-- A built-in function was given a sequence that is not there, and the run was given up. -/
  | strayed

/-- The source whose generator an entry tells of. -/
def Entry.about? : Entry → Option SourceId
  | .built id _ | .called id _ _ | .ended id _ _ | .consumed id _ => some id
  | .reentered .. | .strayed => none

/-- A store with what has been noted so far. -/
structure Noted where
  store : Store
  entries : List Entry
  /-- The sources whose functions are running, the innermost first. -/
  running : List SourceId

instance : Carries Noted :=
  ⟨Noted.store, fun w store => { w with store }, fun _ => rfl, fun _ _ => rfl, fun _ _ _ => rfl⟩

abbrev Recorded := Probed Noted

namespace Recorded

open Probed (quiet sequencesOf)

def note (entry : Entry) : Recorded Unit := modify fun w => { w with entries := w.entries ++ [entry] }

/-- Notes how an action ends. -/
def noting (entry : Noted → Except Interruption Value → Entry) (x : Recorded Value) :
    Recorded Value := fun w =>
  match x w with
  | .ok a w' => .ok a { w' with entries := w'.entries ++ [entry w' (.ok a)] }
  | .error e w' => .error e { w' with entries := w'.entries ++ [entry w' (.error e)] }

/-- Runs an action while the function of a source counts as running, however the action ends. -/
def during {α : Type} (id : SourceId) (x : Recorded α) : Recorded α := fun w =>
  match x { w with running := id :: w.running } with
  | .ok a w' => .ok a { w' with running := w.running }
  | .error e w' => .error e { w' with running := w.running }

/-- Notes a source that is about to be built. -/
def building (origin : Origin) : Recorded Unit := do
  note (.built ⟨(← get).store.sources.size⟩ origin)

/-- The generator of a source calls its function. -/
def applying (id : SourceId) (f argument : Value) (x : Recorded Value) : Recorded Value := do
  note (.called id f argument)
  noting (fun _ => .ended id argument) (during id x)

/-- Notes an element that is consumed of a generator that calls a function. -/
def giving (peek : Bool) (id : SourceId) (generator : Generator) (value : Value) : Recorded Unit :=
  if !peek && generator.applies then note (.consumed id value) else pure ()

/-- Gives up if a sequence is not there. -/
def vet (arguments : List Value) : Recorded Unit := do
  let s := (← get).store
  if ∃ id ∈ sequencesOf arguments, s.sequences.size ≤ id.index then
    note .strayed
    throw .misapplied

/-- Asks a sequence. While the function of its source is running, the answer is noted, or the sequence
is not asked. Where there are no rounds to go, nobody asks. -/
def asking (strict : Bool) (rounds : Nat) (id : SequenceId) (x : Recorded Value) :
    Recorded Value := do
  let w ← get
  let sequence := w.store.sequence id
  if sequence.source ∈ w.running ∧ rounds ≠ 0 then
    if strict then quiet (Action.fail .reentrantSequence sequence.position)
    else noting (fun w' => .reentered sequence.position (w.store.source sequence.source)
      (w'.store.source sequence.source)) x
  else x

/-- Notes what becomes of generators that call functions, and gives up where a built-in function is
given a sequence that is not there. -/
def probe (strict : Bool) : Probe Noted where
  entering
    | .native _, arguments, _ => vet arguments
    | _, _, _ => pure ()
  building := building
  applying := applying
  giving := giving
  asking := asking strict

/-- Runs a source in a scope and records what it does. -/
def runSource (strict : Bool) (source : String) (scope : ScopeId) :
    EStateM SourceError Noted (Option Value) :=
  Probed.runSource (probe strict) source scope

/-- What is there, and has been noted, when a recorded run ends. -/
def notedAfter {ε α : Type} : EStateM.Result ε Noted α → Noted
  | .ok _ w => w
  | .error _ w => w

/-- The record of sources that run one after the other in a scope, from a store. -/
def afterSources (strict : Bool) (s : Store) (scope : ScopeId) (sources : List String) : Noted :=
  sources.foldl (fun w source => notedAfter (runSource strict source scope w)) ⟨s, [], []⟩

end Recorded

end Abacus
