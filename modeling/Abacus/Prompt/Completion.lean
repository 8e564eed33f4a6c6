import Abacus.Store.Scopes
import Abacus.Text.Slice

/-!
# Completing names

The word before the cursor is completed to the visible names and keywords that begin with it. The
word begins one byte after the character before it; where that character is longer than a byte, this
is no place between characters, and there is no completion.
-/

namespace Abacus.Completion

def isWordChar (c : Char) : Bool := c.isAlphanum || c == '_'

/-- Where the word begins that ends a text: one byte after the place of the last character that is of
no word, or at the beginning. -/
def wordStart (text : List Char) : Nat :=
  ((lastIndex? (fun c => !isWordChar c) text).map (· + 1)).getD 0

/-- What can stand in place of the word before the cursor, and where the word begins. -/
structure Candidates where
  start : Nat
  names : List String
deriving DecidableEq

/-- The names and keywords that begin with a word, in order. -/
def candidates (names : List String) (word : String) : List String :=
  ((names ++ Keyword.all.map Keyword.text).filter fun name => word.isPrefixOf name).mergeSort
    (fun a b => !decide (b < a))

/-- The completion of a line at a byte position. -/
def complete (s : Store) (scope : ScopeId) (line : List Char) (position : Nat) : Option Candidates := do
  let start := wordStart (← before? position line)
  match ← slice? start position line with
  | [] => return ⟨position, []⟩
  | word@(first :: _) =>
    if first.isDigit then return ⟨position, []⟩
    return ⟨start, candidates (s.sortedNames scope) (String.ofList word)⟩

end Abacus.Completion
