import Abacus.Run.Source
import Abacus.Text.Blank
import Abacus.Text.Width

/-!
# Reports of errors

A report shows the line of an error with a mark under the character where it stands and the message
beside the mark. The mark is placed by the error's byte offset, which is then counted in characters:
under a line after one with longer characters it stands too far to the right.
-/

namespace Abacus

namespace Report

/-- The stretch of a text that a label marks: from the error's offset to the end of the character
there, or nothing at the end of the text. No label if the offset is inside a character. -/
def labelRange? (offset : Nat) : List Char → Option (Nat × Nat)
  | text =>
    let start := min offset (byteLength text)
    go start start text
where
  go (start left : Nat) : List Char → Option (Nat × Nat)
    | [] => some (start, start)
    | c :: rest =>
      if left = 0 then some (start, start + c.utf8Size)
      else if left < c.utf8Size then none
      else go start (left - c.utf8Size) rest

/-- Where a line begins, counted in characters, its number and its text. -/
structure Line where
  start : Nat
  number : Nat
  text : List Char

/-- The line of the character at an index: the last line that begins at or before it. -/
def lineAt (index : Nat) (text : List Char) : Line :=
  go ⟨0, 1, []⟩ 0 1 (lines text)
where
  go (found : Line) (start number : Nat) : List (List Char) → Line
    | [] => found
    | line :: rest =>
      if start ≤ index then go ⟨start, number, line⟩ (start + line.length) (number + 1) rest
      else found

/-- How many columns a character of a line takes; a tab reaches to the next multiple of four. -/
def width (index : Nat) (c : Char) : Nat :=
  if c = '\t' then 4 - index % 4
  else if isWhiteSpace c then 1
  else columns c

/-- A line as it is shown. -/
def shownLine (text : List Char) : List Char :=
  text.zipIdx.flatMap fun (c, i) =>
    if isWhiteSpace c then List.replicate (width i c) ' ' else [c]

/-- One cell of a row under a line: its first column and those after it. -/
structure Cell where
  glyph : Char
  tail : Char

/-- A row of cells under a line, each as wide as the character above it. -/
def row (text : List Char) (count : Nat) (cell : Nat → Cell) : List Char :=
  (List.range count).flatMap fun i =>
    match (text[i]?).map (width i) with
    | none => [(cell i).glyph]
    | some 0 => []
    | some (n + 1) => (cell i).glyph :: List.replicate n (cell i).tail

/-- The report's lines for a label, without the heading. -/
def body (name : String) (text : List Char) (range : Nat × Nat) (message : String) :
    List (List Char) :=
  let (start, stop) := range
  if text.length < start ∨ (start < stop ∧ text.length < stop - 1) then []
  else
    let line := lineAt start text
    let number := toString line.number
    let margin := List.replicate (number.length + 2) ' '
    let place := name ++ ":" ++ number ++ ":" ++ toString (start - line.start + 1)
    let shown := trimEnd line.text
    let first := start - line.start
    let last := stop - line.start
    let middle := (start + stop) / 2 - line.start
    let labelled (i : Nat) : Bool := first ≤ i && i < last
    let marks : Nat → Cell := fun i =>
      if i = middle then if labelled i then ⟨'┬', '─'⟩ else ⟨'│', ' '⟩
      else if labelled i then ⟨'─', '─'⟩ else ⟨' ', ' '⟩
    let arrow : Nat → Cell := fun i =>
      if i < middle then ⟨' ', ' '⟩ else if i = middle then ⟨'╰', '─'⟩ else ⟨'─', '─'⟩
    let gutter := margin ++ "│ ".toList
    let picture :=
      if line.text.length < last then [gutter]
      else
        [' ' :: number.toList ++ " │ ".toList ++ shownLine shown,
          gutter ++ row shown (last + 2) marks,
          gutter ++ row shown (last + 2) arrow ++ ' ' :: message.toList]
    [margin ++ "╭─[ ".toList ++ place.toList ++ " ]".toList, margin ++ ['│']] ++ picture ++
      [List.replicate (number.length + 2) '─' ++ ['╯']]

/-- The message beside the mark; a fault of characters is told without its place. -/
def label : SourceError → String
  | .read (.lexical e) => e.fault.message
  | e => e.message

end Report

/-- The report of an error in a source of this name. An exit is not reported; there is no report if
the error stands inside a character of the text. -/
def SourceError.report? (e : SourceError) (name : String) (source : String) : Option String :=
  match e.kind?, e.position? with
  | some kind, some position =>
    (Report.labelRange? position.offset source.toList).map fun range =>
      let heading := "Error: " ++ kind.name ++ " at " ++ position.text
      let lines := heading.toList :: Report.body name source.toList range (Report.label e)
      String.ofList (lines.flatMap fun line => line ++ ['\n'])
  | _, _ => some ""

end Abacus
