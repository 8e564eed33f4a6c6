import Abacus.Sequence.Generator

/-!
# Reading sequences

A sequence looks ahead before it consumes: it asks its source for the next raw element without
taking it, passes it through the transformers, and takes it only when its own next element is asked
for. Raw elements that a filter rejects are taken on the way. So an element that one sequence has
looked at is still there for all others that share the source.

While a generator is at work, its source refuses to be read; a function that reads the very sequence
that is calling it gets a fault.
-/

namespace Abacus.Sequence

/-- A sequence of all elements of a generator. -/
def create (generator : Generator) (position : Position) : Action Value := do
  let source ← Action.create (·.addSource generator)
  return .sequence (← Action.create (·.addSequence ⟨source, [], none, position⟩))

/-- A sequence with one transformer more, which shares the source. -/
def derive (id : SequenceId) (transformer : Transformer) : Action Value := do
  let base ← Action.view (·.sequence id)
  return .sequence (← Action.create (·.addSequence
    ⟨base.source, base.transformers ++ [transformer], none, base.position⟩))

/-! ## Raw elements -/

/-- Runs an action while a source refuses to be read, however the action ends. -/
def holding {α : Type} (id : SourceId) (action : Action α) : Action α := fun s =>
  match action (s.modifySource id ({ · with busy := true })) with
  | .ok value s => .ok value (s.modifySource id ({ · with busy := false }))
  | .error e s => .error e (s.modifySource id ({ · with busy := false }))

/-- The next raw element of a source, looked at or consumed; none at the end. -/
def raw (call : Call) (reader : Reader) (peek : Bool) (id : SourceId) (position : Position) :
    Action (Option Value) := do
  let source ← Action.view (·.source id)
  if source.busy then Action.fail .reentrantSequence position
  holding id do
    if ← source.generator.atEnd reader then return none
    let (value, generator) ← source.generator.next call reader peek
    modify (·.modifySource id fun source =>
      { source with generator, advanced := if peek then source.advanced else source.advanced + 1 })
    return some value

/-! ## Transformed elements -/

/-- Passes an element through transformers; none if a filter rejects it. -/
def transform (call : Call) (position : Position) : List Transformer → Value → Action (Option Value)
  | [], value => pure (some value)
  | .map f :: rest, value => do transform call position rest (← call f [value] position)
  | .filter predicate :: rest, value => do
    match ← call predicate [value] position with
    | .boolean true => transform call position rest value
    | .boolean false => return none
    | other => Action.fail (.predicate other.typeTag) position

/-- Looks for the next element that survives, and consumes those before it. -/
def seek (call : Call) (reader : Reader) (id : SequenceId) (sequence : Sequence) :
    (fuel : Nat) → Action (Option Value)
  | 0 => throw .outOfFuel
  | fuel + 1 => do
    let stamp ← Action.view fun s => (s.source sequence.source).advanced
    match ← raw call reader true sequence.source sequence.position with
    | none => return none
    | some element =>
      match ← transform call sequence.position sequence.transformers element with
      | some value =>
        modify (·.setPending id (some (stamp, value)))
        return some value
      | none =>
        let _ ← raw call reader false sequence.source sequence.position
        seek call reader id sequence fuel

/-- The next element, left in place; none at the end. -/
def lookahead (call : Call) (reader : Reader) (fuel : Nat) (id : SequenceId) :
    Action (Option Value) := do
  let sequence ← Action.view (·.sequence id)
  let advanced ← Action.view fun s => (s.source sequence.source).advanced
  match sequence.pending with
  | some (stamp, value) =>
    if stamp = advanced then return some value
    modify (·.setPending id none)
    seek call reader id sequence fuel
  | none => seek call reader id sequence fuel

def atEnd (call : Call) (reader : Reader) (fuel : Nat) (id : SequenceId) : Action Bool := do
  return (← lookahead call reader fuel id).isNone

/-- The next element, left in place. -/
def peek (call : Call) (reader : Reader) (fuel : Nat) (id : SequenceId) (position : Position) :
    Action Value := do
  match ← lookahead call reader fuel id with
  | some value => return value
  | none => Action.fail .exhausted position

/-- The next element, consumed. -/
def next (call : Call) (reader : Reader) (fuel : Nat) (id : SequenceId) (position : Position) :
    Action Value := do
  let value ← peek call reader fuel id position
  let sequence ← Action.view (·.sequence id)
  let _ ← raw call reader false sequence.source sequence.position
  modify (·.setPending id none)
  return value

/-- Consumes up to `count` raw elements, whatever the transformers would make of them. -/
def skip (call : Call) (reader : Reader) (id : SequenceId) : (count : Nat) → Action Unit
  | 0 => pure ()
  | count + 1 => do
    let sequence ← Action.view (·.sequence id)
    match ← raw call reader false sequence.source sequence.position with
    | some _ => skip call reader id count
    | none => return

/-- Consumes all elements with an action for each; a sequence without end never comes to one. -/
def foldAll {σ : Type} (call : Call) (reader : Reader) (id : SequenceId) (position : Position)
    (step : σ → Value → Action σ) : (fuel : Nat) → σ → Action σ
  | 0, _ => throw .outOfFuel
  | fuel + 1, state => do
    if ← atEnd call reader (fuel + 1) id then return state
    foldAll call reader id position step fuel
      (← step state (← next call reader (fuel + 1) id position))

/-- All remaining elements. -/
def collect (call : Call) (reader : Reader) (fuel : Nat) (id : SequenceId) :
    Action (List Value) := do
  let position ← Action.view fun s => (s.sequence id).position
  let reversed ← foldAll call reader id position (fun items item => pure (item :: items)) fuel []
  return reversed.reverse

end Abacus.Sequence

namespace Abacus.Reader

/-- Sequences that take from sequences that take from sequences, down to a depth. -/
def ofDepth (call : Call) : (depth : Nat) → Reader
  | 0 => ⟨fun _ => throw .outOfFuel, fun _ _ => throw .outOfFuel⟩
  | depth + 1 =>
    { atEnd := fun id s => Sequence.atEnd call (ofDepth call depth) depth id s
      next := fun id peek s =>
        let position := (s.sequence id).position
        if peek then Sequence.peek call (ofDepth call depth) depth id position s
        else Sequence.next call (ofDepth call depth) depth id position s }

end Abacus.Reader
