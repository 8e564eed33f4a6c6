import Abacus.Syntax.Expr

/-!
# Statements that the grammar refuses

A statement is refused at a token that fits nowhere, at its end if something is missing, or because
of what it says.
-/

namespace Abacus

/-- What may stand at a place. -/
inductive Expected where
  | expression
  | endOfStatement
  | endOfInput
  | openingRound
  | closingRound
  | commaOrClosingSquare
  | separatorOrClosingCurly
  | closingCurly
  | elifOrElse
  | elseWord
  | parameterName
  | commaOrBar
deriving DecidableEq

def Expected.text : Expected → String
  | .expression => "expression"
  | .endOfStatement => "end of statement"
  | .endOfInput => "end of input"
  | .openingRound => "'('"
  | .closingRound => "')'"
  | .commaOrClosingSquare => "',' or ']'"
  | .separatorOrClosingCurly => "newline, ';' or '\x7d'"
  | .closingCurly => "'\x7d'"
  | .elifOrElse => "'elif' or 'else'"
  | .elseWord => "'else'"
  | .parameterName => "parameter name"
  | .commaOrBar => "',' or '|'"

/-- What is wrong with a statement whose tokens fit. -/
inductive Misuse where
  | localWithoutAssignment
  | assignmentTo (target : Expr)
  | emptyBlock
  | duplicateParameter (name : String)

def Misuse.text : Misuse → String
  | .localWithoutAssignment => "'local' must be followed by an assignment"
  | .assignmentTo target => "cannot assign to '" ++ target.text ++ "'"
  | .emptyBlock => "a block needs at least one statement"
  | .duplicateParameter name => "duplicate parameter '" ++ name ++ "'"

inductive ParseError where
  | unexpected (found : TokenKind) (expected : Expected) (position : Position)
  | missing (expected : Expected) (position : Position)
  | invalid (misuse : Misuse) (position : Position)

namespace ParseError

def position : ParseError → Position
  | .unexpected _ _ p | .missing _ p | .invalid _ p => p

def message : ParseError → String
  | .unexpected found expected p =>
    "unexpected token '" ++ found.text ++ "' at " ++ p.text ++ ", expected " ++ expected.text
  | .missing expected p => "missing " ++ expected.text ++ " at " ++ p.text
  | .invalid misuse p => "invalid expression at " ++ p.text ++ ": " ++ misuse.text

/-- The refusal of a token. -/
def ofToken (found : Token) (expected : Expected) : ParseError :=
  .unexpected found.kind expected found.position

end ParseError

end Abacus
