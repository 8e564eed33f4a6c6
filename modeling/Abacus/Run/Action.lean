import Abacus.Store.Scopes
import Abacus.Store.Vectors

/-!
# Actions

An action works on the store and ends in a value or in an interruption. The store as it was left
survives both: what a program has done before a fault stays done.
-/

namespace Abacus

/-- Why an action ends without a value. -/
inductive Interruption where
  | fault (error : RuntimeError)
  /-- The program asked to end with this code. -/
  | exit (code : Int)
  /-- The budget of steps is used up. -/
  | outOfFuel
  /-- A built-in function was run with arguments that its arity refuses. -/
  | misapplied
deriving DecidableEq

abbrev Action := EStateM Interruption Store

/-- The way in which an action calls functions: with arguments, at the position of the call. -/
abbrev Call := Value → List Value → Position → Action Value

namespace Action

/-- Ends in a fault. -/
def fail {α : Type} (fault : Fault) (position : Position) : Action α :=
  throw (.fault ⟨fault, position⟩)

/-- A look at the store. -/
def view {α : Type} (f : Store → α) : Action α := do return f (← get)

/-- A new part of the store. -/
def create {α : Type} (f : Store → α × Store) : Action α := fun s =>
  let made := f s
  .ok made.1 made.2

/-- What a name is looked up for, or the fault of that name. -/
def ofName {α : Type} (find : Store → Except NameFault α) (position : Position) : Action α := fun s =>
  match find s with
  | .ok found => .ok found s
  | .error e => .error (.fault ⟨e.toFault, position⟩) s

/-- Binds a name in the scope that is found for it. -/
def bindName (place : Store → Except NameFault ScopeId) (name : String) (value : Value)
    (position : Position) : Action Unit := do
  let scope ← ofName place position
  modify (·.bindName scope name value)

/-- The answer of an operation on numbers. -/
def ofNumeric {α : Type} (answer : Except Number.Failure α) (position : Position) : Action α :=
  match answer with
  | .ok value => pure value
  | .error failure => fail (.number failure) position

/-- A new vector. -/
def newVector (items : List Value) : Action Value := do
  return .vector (← create (·.addVector items.toArray))

/-- The elements of a vector as they are now. -/
def items (id : VectorId) : Action (List Value) := view (·.items id)

/-- Goes on with a handler after a fault, and after nothing else. -/
def recover {α : Type} (action : Action α) (handler : Fault → Action α) : Action α := fun s =>
  match action s with
  | .error (.fault error) s => handler error.fault s
  | result => result

end Action

end Abacus
