import Abacus.Value.Native
import Abacus.Syntax.Script

/-!
# Faults

Everything that can go wrong has one of fifteen kinds, each of which belongs to one of three phases.
A fault of a running program says what happened; its kind and its message follow from that.
-/

namespace Abacus

inductive Phase where
  | lex
  | parse
  | runtime
deriving DecidableEq

def Phase.name : Phase → String
  | .lex => "Lex"
  | .parse => "Parse"
  | .runtime => "Runtime"

/-- The kinds of errors. The value that a handler is given is a kind, without message or position. -/
inductive ErrorKind where
  | incompleteInput | unexpectedCharacter | invalidNumberFormat
  | unexpectedToken | missingToken | invalidExpression
  | typeMismatch | invalidArgument | divisionByZero | undefinedVariable | reservedName
  | unsupportedOperation | arithmeticFailure | sequenceExhausted | assertionFailed
deriving DecidableEq

namespace ErrorKind

def phase : ErrorKind → Phase
  | .incompleteInput | .unexpectedCharacter | .invalidNumberFormat => .lex
  | .unexpectedToken | .missingToken | .invalidExpression => .parse
  | _ => .runtime

def name : ErrorKind → String
  | .incompleteInput => "IncompleteInput"
  | .unexpectedCharacter => "UnexpectedCharacter"
  | .invalidNumberFormat => "InvalidNumberFormat"
  | .unexpectedToken => "UnexpectedToken"
  | .missingToken => "MissingToken"
  | .invalidExpression => "InvalidExpression"
  | .typeMismatch => "TypeMismatch"
  | .invalidArgument => "InvalidArgument"
  | .divisionByZero => "DivisionByZero"
  | .undefinedVariable => "UndefinedVariable"
  | .reservedName => "ReservedName"
  | .unsupportedOperation => "UnsupportedOperation"
  | .arithmeticFailure => "ArithmeticFailure"
  | .sequenceExhausted => "SequenceExhausted"
  | .assertionFailed => "AssertionFailed"

end ErrorKind

def LexFault.kind : LexFault → ErrorKind
  | .incomplete => .incompleteInput
  | .unexpected _ => .unexpectedCharacter
  | .badNumber _ => .invalidNumberFormat

def ParseError.kind : ParseError → ErrorKind
  | .unexpected .. => .unexpectedToken
  | .missing .. => .missingToken
  | .invalid .. => .invalidExpression

def ReadError.kind : ReadError → ErrorKind
  | .lexical e => e.fault.kind
  | .grammatical e => e.kind

/-! ## Faults of running programs -/

/-- What an argument has to be. -/
inductive Wanted where
  | number
  | realBound
  | integer
  | function
  | type
  | vector
  | sequence
  | collection
deriving DecidableEq

def Wanted.text : Wanted → String
  | .number => "a Number"
  | .realBound => "real bounds"
  | .integer => "an Integer"
  | .function => "a function"
  | .type => "a Type"
  | .vector => "a Vector"
  | .sequence => "a Sequence"
  | .collection => "a Vector or Sequence"

inductive Fault where
  -- a value of the wrong type
  | condition (found : TypeTag)
  | booleanOperand (op : BinaryOp) (found : TypeTag)
  | callee (found : TypeTag)
  | operands (op : BinaryOp) (left right : TypeTag)
  | negation (found : TypeTag)
  | inversion (found : TypeTag)
  | argument (owner : String) (wanted : Wanted) (found : TypeTag)
  | predicate (found : TypeTag)
  -- a value of the right type that will not do
  | argumentCount (expected found : Nat)
  | nativeArgumentCount (native : Native) (found : Nat)
  | conversionArgumentCount (tag : TypeTag) (found : Nat)
  | lengths (op : BinaryOp) (left right : Nat)
  | emptyBlock
  | negativeCount (owner : String) (found : Int64)
  | outOfBounds (index length : Nat)
  | cyclicVector
  | zeroStep
  | notAThunk (owner : String)
  | notAscii (value : String)
  | exitCode (code : Int64)
  -- names
  | undefinedVariable (name : String)
  | reservedName (name : String)
  -- operations without an answer
  | number (failure : Number.Failure)
  | conversion (tag : TypeTag)
  | reentrantSequence
  | exhausted
  -- assertions
  | notTrue (value : String)
  | notEqual (left right : String)
deriving DecidableEq

namespace Fault

def kind : Fault → ErrorKind
  | .condition _ | .booleanOperand .. | .callee _ | .operands .. | .negation _ | .inversion _
  | .argument .. | .predicate _ => .typeMismatch
  | .argumentCount .. | .nativeArgumentCount .. | .conversionArgumentCount .. | .lengths ..
  | .emptyBlock | .negativeCount .. | .outOfBounds .. | .cyclicVector | .zeroStep | .notAThunk _
  | .notAscii _ | .exitCode _ => .invalidArgument
  | .undefinedVariable _ => .undefinedVariable
  | .reservedName _ => .reservedName
  | .number .divisionByZero => .divisionByZero
  | .number (.notAnInteger _) => .arithmeticFailure
  | .number _ | .conversion _ | .reentrantSequence => .unsupportedOperation
  | .exhausted => .sequenceExhausted
  | .notTrue _ | .notEqual .. => .assertionFailed

/-- What happened, in words. -/
def details : Fault → String
  | .condition found => "condition must be a Boolean, got " ++ found.name
  | .booleanOperand op found => "'" ++ op.symbol ++ "' needs Boolean operands, got " ++ found.name
  | .callee found => "cannot call a value of type " ++ found.name
  | .operands op left right =>
    "cannot apply '" ++ op.symbol ++ "' to " ++ left.name ++ " and " ++ right.name
  | .negation found => "cannot negate a " ++ found.name
  | .inversion found => "'!' needs a Boolean, got " ++ found.name
  | .argument owner wanted found =>
    "'" ++ owner ++ "' expects " ++ wanted.text ++ ", got " ++ found.name
  | .predicate found => "filter predicate returned " ++ found.name ++ ", not a Boolean"
  | .argumentCount expected found =>
    "function expects " ++ toString expected ++ " arguments, got " ++ toString found
  | .nativeArgumentCount f found =>
    "'" ++ f.name ++ "' expects " ++ f.arity.text ++ ", got " ++ toString found
  | .conversionArgumentCount tag found =>
    "'" ++ tag.name ++ "' conversion got " ++ toString found ++ " arguments"
  | .lengths op left right =>
    "'" ++ op.symbol ++ "' needs vectors of equal length, got " ++ toString left ++ " and " ++
      toString right
  | .emptyBlock => "empty block"
  | .negativeCount owner found =>
    "'" ++ owner ++ "' expects a non-negative integer, got " ++ toString found.toInt
  | .outOfBounds index length =>
    "index " ++ toString index ++ " out of bounds for length " ++ toString length
  | .cyclicVector => "a vector cannot contain itself"
  | .zeroStep => "range step must not be zero"
  | .notAThunk owner => "'" ++ owner ++ "' expects a function of no arguments"
  | .notAscii value => value ++ " is not an ASCII code"
  | .exitCode code => "exit code " ++ toString code.toInt ++ " out of range"
  | .undefinedVariable name => "undefined variable '" ++ name ++ "'"
  | .reservedName name => "'" ++ name ++ "' is a reserved name"
  | .number failure => failure.message
  | .conversion tag => "cannot convert to " ++ tag.name
  | .reentrantSequence => "a sequence was used from inside its own generator"
  | .exhausted => "sequence exhausted"
  | .notTrue value => "expected true, got " ++ value
  | .notEqual left right => left ++ " != " ++ right

/-- The heading that a kind's messages share, if they have one. -/
def heading : ErrorKind → String
  | .typeMismatch => "type mismatch: "
  | .invalidArgument => "invalid argument: "
  | .unsupportedOperation => "unsupported operation: "
  | .arithmeticFailure => "arithmetic failure: "
  | .assertionFailed => "assertion failed: "
  | _ => ""

def message (f : Fault) : String := heading f.kind ++ f.details

/-- Running programs raise runtime kinds only. -/
theorem phase_kind (f : Fault) : f.kind.phase = .runtime := by
  cases f with
  | number failure => cases failure <;> rfl
  | _ => rfl

end Fault

/-- A fault and where it was found. -/
structure RuntimeError where
  fault : Fault
  position : Position
deriving DecidableEq

end Abacus
