/-!
# Types

The types of values form a tree: `Integer` below `Real` below `Complex` below `Number`, and `Number`
and all others directly below `Any`.
-/

namespace Abacus

inductive TypeTag where
  | any | number | integer | real | complex | boolean | vector | sequence | function | type | error
deriving DecidableEq

namespace TypeTag

def all : List TypeTag :=
  [.any, .number, .integer, .real, .complex, .boolean, .vector, .sequence, .function, .type, .error]

def name : TypeTag → String
  | .any => "Any"
  | .number => "Number"
  | .integer => "Integer"
  | .real => "Real"
  | .complex => "Complex"
  | .boolean => "Boolean"
  | .vector => "Vector"
  | .sequence => "Sequence"
  | .function => "Function"
  | .type => "Type"
  | .error => "Error"

/-- The type of this name. -/
def ofName? (name : String) : Option TypeTag := all.find? (·.name == name)

/-- The next type above. -/
def parent : TypeTag → Option TypeTag
  | .any => none
  | .integer => some .real
  | .real => some .complex
  | .complex => some .number
  | _ => some .any

/-- A type with all those above it, from the lowest. -/
def ancestors : TypeTag → List TypeTag
  | .any => [.any]
  | .number => [.number, .any]
  | .complex => [.complex, .number, .any]
  | .real => [.real, .complex, .number, .any]
  | .integer => [.integer, .real, .complex, .number, .any]
  | tag => [tag, .any]

theorem ancestors_eq (tag : TypeTag) :
    tag.ancestors = tag :: (tag.parent.map ancestors).getD [] := by
  cases tag <;> rfl

/-- Whether every value of a type is a value of another. -/
def isSubtypeOf (tag other : TypeTag) : Bool := tag.ancestors.contains other

end TypeTag

end Abacus
