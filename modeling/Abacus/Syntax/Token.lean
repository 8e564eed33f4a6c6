import Abacus.Number.Basic
import Abacus.Syntax.Operator
import Abacus.Text.Position

/-!
# Tokens

What a statement is made of. The sign `|` is one token whether it stands for the operator or bars
off parameters, and `-` one whether it is written before an operand or between two.
-/

namespace Abacus

inductive Keyword where
  | trueWord
  | falseWord
  | ifWord
  | elifWord
  | elseWord
  | localWord
deriving DecidableEq

def Keyword.text : Keyword → String
  | .trueWord => "true"
  | .falseWord => "false"
  | .ifWord => "if"
  | .elifWord => "elif"
  | .elseWord => "else"
  | .localWord => "local"

def Keyword.all : List Keyword :=
  [.ifWord, .elifWord, .elseWord, .localWord, .trueWord, .falseWord]

/-- The shapes of brackets. -/
inductive Bracket where
  | round
  | square
  | curly
deriving DecidableEq

def Bracket.opening : Bracket → String
  | .round => "("
  | .square => "["
  | .curly => "\x7b"

def Bracket.closing : Bracket → String
  | .round => ")"
  | .square => "]"
  | .curly => "\x7d"

inductive TokenKind where
  | number (value : Number)
  | identifier (name : String)
  /-- The characters between the quotes. -/
  | quoted (body : String)
  | keyword (word : Keyword)
  | opening (bracket : Bracket)
  | closing (bracket : Bracket)
  | operator (op : BinaryOp)
  | bang
  | assign
  | arrow
  | comma
  | semicolon
  | newline
deriving DecidableEq

namespace TokenKind

/-- The token as it is named in messages. -/
def text : TokenKind → String
  | .number value => value.text
  | .identifier name => name
  | .quoted body => "\"" ++ body ++ "\""
  | .keyword word => word.text
  | .opening bracket => bracket.opening
  | .closing bracket => bracket.closing
  | .operator op => op.symbol
  | .bang => "!"
  | .assign => "="
  | .arrow => "->"
  | .comma => ","
  | .semicolon => ";"
  | .newline => "newline"

/-- Whether the token may separate statements. -/
def isSeparator : TokenKind → Bool
  | .newline | .semicolon => true
  | _ => false

end TokenKind

/-- A token where it stands. -/
structure Token where
  kind : TokenKind
  position : Position
deriving DecidableEq

end Abacus
