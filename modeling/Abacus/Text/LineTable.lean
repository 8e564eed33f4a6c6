import Abacus.Text.Position

/-!
# Line tables

A line table answers where a byte of a text stands without reading the text up to it: it keeps the
offsets at which the lines begin, finds the last line that begins at or before the byte, and counts
only the characters of that line. Positions are relative to an origin, because a text may be the
rest of a longer one; the origin's column matters on the first line only.
-/

namespace Abacus

/-- The offsets at which the lines after the first begin, for a text whose first byte has the given
offset. -/
def lineStarts (offset : Nat) : List Char → List Nat
  | [] => []
  | c :: rest =>
    if c = '\n' then (offset + c.utf8Size) :: lineStarts (offset + c.utf8Size) rest
    else lineStarts (offset + c.utf8Size) rest

/-- How many characters of a text begin before a byte offset. -/
def charactersBefore (offset : Nat) : List Char → Nat
  | [] => 0
  | c :: rest => if offset = 0 then 0 else charactersBefore (offset - c.utf8Size) rest + 1

/-- A text with the places where its lines begin. -/
structure LineTable where
  /-- The position of the text's first character. -/
  origin : Position
  text : List Char
  /-- Where the second line and those after it begin. -/
  starts : List Nat

namespace LineTable

/-- The table of a text that stands at an origin. -/
def ofText (text : List Char) (origin : Position) : LineTable := ⟨origin, text, lineStarts 0 text⟩

/-- The position of the character that begins at a byte of the text. -/
def position (table : LineTable) (offset : Nat) : Position :=
  let passed := table.starts.takeWhile (· ≤ offset)
  let lineStart := passed.getLastD 0
  let column := charactersBefore offset table.text - charactersBefore lineStart table.text
  ⟨table.origin.offset + offset, table.origin.line + passed.length,
    if passed.isEmpty then table.origin.column + column else column + 1⟩

end LineTable

end Abacus
