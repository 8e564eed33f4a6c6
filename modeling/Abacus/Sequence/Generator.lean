import Abacus.Run.Action

/-!
# Generators

A generator says whether it has another element and gives it, either to look at or for good. An
element that is only looked at stays the next one. A generator whose next element cannot be had stays
as it was.

Generators that take from sequences ask them through `Reader`, which is all that they know of
sequences.
-/

namespace Abacus

/-- What a generator may ask of the sequences that it takes from. -/
structure Reader where
  atEnd : SequenceId → Action Bool
  /-- The next element, left in place if the flag is set. -/
  next : SequenceId → (peek : Bool) → Action Value

namespace Generator

/-- Numbers in equal steps from `start`, of which `stop` is excluded. -/
def ofRange (start stop step : Number) (position : Position) : Except RuntimeError Generator :=
  if step.isZero then .error ⟨.zeroStep, position⟩ else .ok (.range start stop step position)

/-- Whether a range has come to its end: at the excluded number, beyond it in the direction of the
step, or where there is no order. -/
def rangeAtEnd (current stop step : Number) : Except Number.Failure Bool := do
  let ascending := (← step.compare (.integer 0)) == some .gt
  return match ← current.compare stop with
    | some .lt => !ascending
    | some .gt => ascending
    | some .eq | none => true

/-- Whether there is no further element. -/
def atEnd (reader : Reader) : Generator → Action Bool
  | .index _ place limit _ _ =>
    pure (match limit with
      | some limit => decide (limit ≤ (place : Int))
      | none => false)
  | .iterate .. => pure false
  | .range current stop step position => Action.ofNumeric (rangeAtEnd current stop step) position
  | .vector items place _ => do return (← Action.view (·.vector items)).size ≤ place
  | .zip left right => do
    if ← reader.atEnd left then return true
    reader.atEnd right
  | .take sequence remaining =>
    -- a sequence from which nothing more is taken is not touched
    if remaining = 0 then pure true else reader.atEnd sequence

/-- The next element, and the generator after it; if the element is only looked at, it stays the
next one. -/
def next (call : Call) (reader : Reader) (peek : Bool) : Generator → Action (Value × Generator)
  | .index f place limit cached position => do
    if ← atEnd reader (.index f place limit cached position) then
      Action.fail .exhausted position
    let value ← match cached with
      | some value => pure value
      | none => call f [.ofNat place] position
    return (value,
      if peek then .index f place limit (some value) position
      else .index f (place + 1) limit none position)
  | .iterate f upcoming previous position => do
    let value ← match upcoming, previous with
      | some value, _ => pure value
      | none, some previous => call f [previous] position
      | none, none => Action.fail .exhausted position
    return (value,
      if peek then .iterate f (some value) previous position
      else .iterate f none (some value) position)
  | .range current stop step position => do
    if ← atEnd reader (.range current stop step position) then
      Action.fail .exhausted position
    return (.number current,
      .range (if peek then current else current.add step) stop step position)
  | .vector items place position => do
    match (← Action.view (·.vector items))[place]? with
    | some value => return (value, .vector items (if peek then place else place + 1) position)
    | none => Action.fail .exhausted position
  | .zip left right => do
    let a ← reader.next left peek
    let b ← reader.next right peek
    return (← Action.newVector [a, b], .zip left right)
  | .take sequence remaining => do
    if remaining = 0 then
      Action.fail .exhausted (← Action.view fun s => (s.sequence sequence).position)
    let value ← reader.next sequence peek
    return (value, .take sequence (if peek then remaining else remaining - 1))

end Generator

end Abacus
