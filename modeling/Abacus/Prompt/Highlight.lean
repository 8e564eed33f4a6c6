import Abacus.Syntax.Lexeme
import Abacus.Text.Slice

/-!
# Colours of a line

A line at the prompt is shown with colours: one for numbers, one for quoted text, one for keywords,
one for what is no token, and one for the pair of brackets at the cursor. Colours come around the
tokens; what stands between two tokens, before the first one and after the last one is copied as it
is. All parts are cut out of the line at the byte offsets of the tokens.
-/

namespace Abacus.Highlight

/-- A token of a line, or a stretch that is none, with the bytes where it begins and ends. -/
structure Span where
  start : Nat
  stop : Nat
  kind : LexemeKind
deriving DecidableEq

/-- The lexemes that are not blanks or comments; the first lexeme begins at an offset. -/
def spansFrom (offset : Nat) : List Lexeme → List Span
  | [] => []
  | x :: rest =>
    let stop := offset + byteLength x.text
    match x.kind with
    | .space => spansFrom stop rest
    | kind => ⟨offset, stop, kind⟩ :: spansFrom stop rest

/-- What there is in a line besides blanks and comments. -/
def spans (line : List Char) : List Span := spansFrom 0 (Lexeme.stream line)

/-! ## Brackets -/

/-- Looks for the first closing bracket that belongs to the innermost open one where one of the two
is at the cursor. Closing brackets of another shape are passed over. -/
def findPair (cursor : Nat) : List Span → List (Bracket × Nat) → Option (Nat × Nat)
  | [], _ => none
  | span :: rest, opened =>
    match span.kind, opened with
    | .token (.opening bracket), _ => findPair cursor rest ((bracket, span.start) :: opened)
    | .token (.closing bracket), (innermost, start) :: outer =>
      if innermost = bracket then
        if start = cursor ∨ span.start = cursor then some (start, span.start)
        else findPair cursor rest outer
      else findPair cursor rest opened
    | _, _ => findPair cursor rest opened

/-- The offsets of the pair of brackets one of which ends at a byte position. -/
def matchingPair (line : List Char) : (position : Nat) → Option (Nat × Nat)
  | 0 => none
  | cursor + 1 => findPair cursor (spans line) []

/-! ## Colours -/

/-- Colours by their codes on a terminal. -/
inductive Colour where
  | number
  | quoted
  | keyword
  | bracket
  | fault
deriving DecidableEq

def Colour.code : Colour → String
  | .number => "36"
  | .quoted => "32"
  | .keyword => "35"
  | .bracket => "1;34"
  | .fault => "31"

/-- The colour of a span; `paired` says whether it begins where one of the brackets at the cursor
does. -/
def colour? (kind : LexemeKind) (paired : Bool) : Option Colour :=
  match kind with
  | .token (.number _) => some .number
  | .token (.quoted _) => some .quoted
  | .token (.keyword _) => some .keyword
  | .invalid _ => some (if paired then .bracket else .fault)
  | _ => if paired then some .bracket else none

/-- A piece of the line, plain or in a colour. -/
structure Piece where
  text : List Char
  colour : Option Colour
deriving DecidableEq

def Piece.render (piece : Piece) : List Char :=
  match piece.colour with
  | none => piece.text
  | some colour => "\x1b[".toList ++ colour.code.toList ++ 'm' :: piece.text ++ "\x1b[0m".toList

/-- The pieces of a line from a byte on: each span after what stands before it, and what stands after
the last one. There are none if a span is not cut between characters or not after the one before. -/
def piecesFrom? (line : List Char) (pair : Option (Nat × Nat)) (last : Nat) :
    List Span → Option (List Piece)
  | [] => return [⟨← after? last line, none⟩]
  | span :: rest => do
    let gap ← slice? last span.start line
    let text ← slice? span.start span.stop line
    let paired := pair.any fun (a, b) => a == span.start || b == span.start
    let more ← piecesFrom? line pair span.stop rest
    return ⟨gap, none⟩ :: ⟨text, colour? span.kind paired⟩ :: more

/-- The pieces of a line with the cursor at a byte position. -/
def pieces? (line : List Char) (position : Nat) : Option (List Piece) :=
  piecesFrom? line (matchingPair line position) 0 (spans line)

/-- A line with its colours. -/
def highlight (line : List Char) (position : Nat) : List Char :=
  ((pieces? line position).getD []).flatMap Piece.render

end Abacus.Highlight
