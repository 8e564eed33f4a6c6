import Abacus.Run.Action

/-!
# Operators on values

Numbers are computed with; sums, differences and negations of vectors go element by element; the
product of two vectors is the sum of the products of their elements; a vector is scaled by a number
from either side and divided by one. The results are new vectors. Every two values can be compared
for equality.
-/

namespace Abacus

/-- An operation on two numbers. Where there is no order, no comparison holds. -/
def BinaryOp.onNumbers (op : BinaryOp) (a b : Number) : Except Fault Value :=
  let value (answer : Except Number.Failure Number) : Except Fault Value :=
    (answer.map Value.number).mapError Fault.number
  let comparison (holds : Ordering → Bool) : Except Fault Value :=
    ((a.compare b).map fun order => Value.boolean ((order.map holds).getD false)).mapError Fault.number
  match op with
  | .add => .ok (.number (a.add b))
  | .sub => .ok (.number (a.sub b))
  | .mul => .ok (.number (a.mul b))
  | .div => value (a.div b)
  | .rem => value (a.rem b)
  | .pow => .ok (.number (a.pow b))
  | .eq => .ok (.boolean (a.equals b))
  | .notEq => .ok (.boolean (!a.equals b))
  | .less => comparison (· == .lt)
  | .lessEq => comparison (· != .gt)
  | .greater => comparison (· == .gt)
  | .greaterEq => comparison (· != .lt)
  | .and | .or => .error (.booleanOperand op .number)

namespace Action

/-- An operation on two values, with vectors followed down to a depth. -/
def binaryTo (position : Position) : Nat → BinaryOp → Value → Value → Action Value
  | depth, op, left, right =>
    match op, left, right with
    | .eq, _, _ => do return .boolean (← view (·.equal left right))
    | .notEq, _, _ => do return .boolean (!(← view (·.equal left right)))
    | _, .number a, .number b =>
      match op.onNumbers a b with
      | .ok value => pure value
      | .error e => fail e position
    | _, .vector a, .vector b =>
      match depth with
      | 0 => throw .outOfFuel
      | depth + 1 =>
        match op with
        | .add | .sub => do
          let xs ← items a
          let ys ← items b
          if xs.length != ys.length then fail (.lengths op xs.length ys.length) position
          newVector (← (xs.zip ys).mapM fun pair => binaryTo position depth op pair.1 pair.2)
        | .mul => do
          let xs ← items a
          let ys ← items b
          if xs.length != ys.length then fail (.lengths op xs.length ys.length) position
          (xs.zip ys).foldlM (fun sum pair => do
            binaryTo position depth .add sum (← binaryTo position depth .mul pair.1 pair.2))
            (.integer 0)
        | _ => fail (.operands op left.typeTag right.typeTag) position
    | .mul, .number _, .vector v =>
      match depth with
      | 0 => throw .outOfFuel
      | depth + 1 => do
        newVector (← (← items v).mapM fun item => binaryTo position depth .mul left item)
    | .mul, .vector v, .number _ =>
      match depth with
      | 0 => throw .outOfFuel
      | depth + 1 => do
        newVector (← (← items v).mapM fun item => binaryTo position depth .mul item right)
    | .div, .vector v, .number _ =>
      match depth with
      | 0 => throw .outOfFuel
      | depth + 1 => do
        newVector (← (← items v).mapM fun item => binaryTo position depth .div item right)
    | _, _, _ => fail (.operands op left.typeTag right.typeTag) position

/-- An operation on two values. -/
def binary (op : BinaryOp) (left right : Value) (position : Position) : Action Value := do
  binaryTo position (← view Store.depth) op left right

/-- The negation of a value, with vectors followed down to a depth. -/
def negateTo (position : Position) : Nat → Value → Action Value
  | _, .number n => pure (.number n.neg)
  | 0, .vector _ => throw .outOfFuel
  | depth + 1, .vector v => do newVector (← (← items v).mapM (negateTo position depth))
  | _, other => fail (.negation other.typeTag) position

/-- A prefix operation on a value. -/
def unary (op : UnaryOp) (operand : Value) (position : Position) : Action Value := do
  match op, operand with
  | .neg, operand => negateTo position (← view Store.depth) operand
  | .not, .boolean b => return .boolean (!b)
  | .not, other => fail (.inversion other.typeTag) position

end Action

end Abacus
