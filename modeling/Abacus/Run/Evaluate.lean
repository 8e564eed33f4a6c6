import Abacus.Run.Natives

/-!
# Evaluating expressions

An expression is evaluated in a scope, from left to right: a callee before its arguments, a left
operand before the right one. Blocks and calls open a scope of their own. `&` and `|` look at their
right operand only if the left one does not decide.

Expressions shrink as they are evaluated; only calls need a budget, which bounds how deeply they
nest (`Action.apply`).
-/

namespace Abacus

namespace Action

/-- Opens a scope inside another. -/
def enclose (scope : ScopeId) : Action ScopeId := create (·.enclose scope)

/-- The value of a name, or the fault that there is none. -/
def lookup (scope : ScopeId) (name : String) (position : Position) : Action Value :=
  ofName (·.lookup scope name) position

/-- Fails for names that nobody may bind. -/
def checkAssignable (scope : ScopeId) (name : String) (position : Position) : Action Unit :=
  ofName (·.checkAssignable scope name) position

/-- The Boolean that `&` and `|` need. -/
def expectBoolean (op : BinaryOp) (position : Position) : Value → Action Bool
  | .boolean b => pure b
  | other => fail (.booleanOperand op other.typeTag) position

/-- The Boolean that a condition needs. -/
def expectCondition (position : Position) : Value → Action Bool
  | .boolean b => pure b
  | other => fail (.condition other.typeTag) position

/-- The value of `&` and `|` that the left operand may decide alone. -/
def decisive? : BinaryOp → Option Bool
  | .and => some false
  | .or => some true
  | _ => none

mutual

/-- The value of an expression in a scope. -/
def evaluate (call : Call) : Expr → ScopeId → Action Value
  | .literal (.number n) _, _ => pure (.number n)
  | .literal (.boolean b) _, _ => pure (.boolean b)
  | .literal (.quoted body) _, _ => newVector (body.toList.map fun c => .ofNat c.toNat)
  | .identifier name position, scope => lookup scope name position
  | .vector elements _, scope => do newVector (← evaluateAll call elements scope)
  | .block body position, scope => do
    match ← evaluateBody call body (← enclose scope) none with
    | some value => return value
    | none => fail .emptyBlock position
  | .conditional branches otherwise _, scope => do
    match ← evaluateBranches call branches scope with
    | some value => return value
    | none => evaluate call otherwise scope
  | .function parameters body _, scope =>
    create fun s => (.function ⟨s.closures, parameters, body, scope⟩,
      { s with closures := s.closures + 1 })
  | .call callee arguments position, scope => do
    let f ← evaluate call callee scope
    let values ← evaluateAll call arguments scope
    call f values position
  | .assign name value isLocal position, scope => do
    -- a reserved name fails before the value is computed
    checkAssignable scope name position
    let v ← evaluate call value scope
    bindName (·.assignPlace scope name isLocal) name v position
    return v
  | .binary op left right position, scope => do
    match decisive? op with
    | some decided =>
      let a ← evaluate call left scope
      if (← expectBoolean op left.position a) = decided then return .boolean decided
      let b ← evaluate call right scope
      return .boolean (← expectBoolean op right.position b)
    | none =>
      let a ← evaluate call left scope
      let b ← evaluate call right scope
      binary op a b position
  | .unary op operand position, scope => do
    let value ← evaluate call operand scope
    unary op value position

/-- The values of expressions from left to right. -/
def evaluateAll (call : Call) : List Expr → ScopeId → Action (List Value)
  | [], _ => pure []
  | e :: rest, scope => do
    let value ← evaluate call e scope
    return value :: (← evaluateAll call rest scope)

/-- The value of the last statement of a body, if it has any. -/
def evaluateBody (call : Call) : List Expr → ScopeId → Option Value → Action (Option Value)
  | [], _, last => pure last
  | e :: rest, scope, _ => do
    let value ← evaluate call e scope
    evaluateBody call rest scope (some value)

/-- The value of the first branch whose condition holds, if one does. -/
def evaluateBranches (call : Call) : List (Expr × Expr) → ScopeId → Action (Option Value)
  | [], _ => pure none
  | (condition, body) :: rest, scope => do
    let c ← evaluate call condition scope
    if ← expectCondition condition.position c then
      return some (← evaluate call body scope)
    evaluateBranches call rest scope

end

/-- Binds parameters to arguments in a scope. -/
def bindAll (scope : ScopeId) (position : Position) : List String → List Value → Action Unit
  | name :: names, value :: values => do
    bindName (·.definePlace scope name) name value position
    bindAll scope position names values
  | _, _ => pure ()

/-- Calls a value. Every nested call takes one step of the budget. -/
def apply : (fuel : Nat) → Call
  | 0, _, _, _ => throw .outOfFuel
  | fuel + 1, callee, arguments, position =>
    match callee with
    | .function closure => do
      if closure.parameters.length != arguments.length then
        fail (.argumentCount closure.parameters.length arguments.length) position
      let scope ← enclose closure.scope
      bindAll scope position closure.parameters arguments
      evaluate (apply fuel) closure.body scope
    | .native native => do
      if !native.arity.accepts arguments.length then
        fail (.nativeArgumentCount native arguments.length) position
      native.run ⟨apply fuel, .ofDepth (apply fuel) fuel, fuel⟩ position arguments
    | .type tag => Native.convert tag arguments position
    | other => fail (.callee other.typeTag) position

/-- The budget of a run: more calls than can nest, and more rounds than can be waited for. -/
def plenty : Nat := 1000000000000000

end Action

end Abacus
