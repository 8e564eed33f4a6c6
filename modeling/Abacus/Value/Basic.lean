import Abacus.Fault

/-!
# Values

What expressions evaluate to. Vectors and sequences have a state that every holder of the value
sees, so a value names them and the store holds them; a function is the expression of its body
together with the scope in which it was written.
-/

namespace Abacus

/-- The name of a scope in the store. -/
structure ScopeId where
  index : Nat
deriving DecidableEq

/-- The name of a vector in the store. -/
structure VectorId where
  index : Nat
deriving DecidableEq

/-- The name of a sequence in the store. -/
structure SequenceId where
  index : Nat
deriving DecidableEq

/-- The name of a source of raw elements in the store. -/
structure SourceId where
  index : Nat
deriving DecidableEq

/-- A function of the program. Two evaluations of one function literal give two functions, which
their number tells apart. -/
structure Closure where
  number : Nat
  parameters : List String
  body : Expr
  scope : ScopeId

inductive Value where
  | number (n : Number)
  | boolean (b : Bool)
  | vector (id : VectorId)
  | sequence (id : SequenceId)
  | function (closure : Closure)
  | native (native : Native)
  | type (tag : TypeTag)
  /-- What a handler learns of an error. -/
  | error (kind : ErrorKind)

namespace Value

instance : Inhabited Value := ⟨.boolean false⟩

def integer (n : Int64) : Value := .number (.integer n)

def ofNat (n : Nat) : Value := .integer (Int64.ofNat n)

/-- The most specific type of a value. -/
def typeTag : Value → TypeTag
  | .number (.integer _) => .integer
  | .number (.real _) => .real
  | .number (.complex _) => .complex
  | .boolean _ => .boolean
  | .vector _ => .vector
  | .sequence _ => .sequence
  | .function _ | .native _ => .function
  | .type _ => .type
  | .error _ => .error

/-- Functions can be called, and types, which convert. -/
def isCallable : Value → Bool
  | .function _ | .native _ | .type _ => true
  | _ => false

end Value

end Abacus
