import Abacus.Syntax.Grammar
import Abacus.Syntax.Statement

/-!
# Scripts

A script is the expressions of a source in order, and the fault that ends it if there is one. The
statements before the fault are read all the same: they run before it is reported.
-/

namespace Abacus

/-- Why a source cannot be read on. -/
inductive ReadError where
  | lexical (error : LexError)
  | grammatical (error : ParseError)

namespace ReadError

def position : ReadError → Position
  | .lexical e => e.position
  | .grammatical e => e.position

def message : ReadError → String
  | .lexical e => e.message
  | .grammatical e => e.message

/-- Whether more text could complete the statement. -/
def isIncomplete : ReadError → Bool
  | .lexical e => e.fault == .incomplete
  | .grammatical _ => false

end ReadError

/-- The expression of a statement. -/
def Statement.expr (s : Statement) : Except ReadError Expr :=
  (Expr.ofTokens s.tokens s.stop).mapError .grammatical

/-- An expression with the number of characters that were read for it. -/
structure ScriptEntry where
  expr : Expr
  taken : Nat

/-- The expressions of a source up to its end or its first fault. -/
structure Script where
  entries : List ScriptEntry
  fault : Option ReadError

namespace Script

/-- Reads a text that stands at an origin. -/
def read (text : List Char) (origin : Position) : Script :=
  match _h : Statement.first text origin with
  | .error e => ⟨[], some (.lexical e)⟩
  | .ok s =>
    if _ht : s.tokens = [] then ⟨[], none⟩
    else
      match s.expr with
      | .error e => ⟨[], some e⟩
      | .ok expr =>
        let more := read (text.drop s.taken) (origin.advance (text.take s.taken))
        ⟨⟨expr, s.taken⟩ :: more.entries, more.fault⟩
termination_by text.length
decreasing_by exact Statement.length_drop_lt _h _ht

end Script

/-- The expression of a text that holds exactly one statement. -/
def Expr.ofText (text : List Char) : Except ReadError Expr := do
  let s ← (Statement.first text .start).mapError .lexical
  if s.tokens.isEmpty then
    throw (.grammatical (.missing .expression (Position.start.advance text)))
  let expr ← s.expr
  let rest ← (Statement.first (text.drop s.taken) (Position.start.advance (text.take s.taken))).mapError
    .lexical
  match rest.tokens with
  | [] => return expr
  | token :: _ => throw (.grammatical (.ofToken token .endOfInput))

/-- The expression of the first statement without its last tokens. -/
def Expr.ofTextDropping (count : Nat) (text : List Char) : Except ReadError Expr := do
  let s ← (Statement.first text .start).mapError .lexical
  Statement.expr { s with tokens := s.tokens.take (s.tokens.length - count) }

end Abacus
