/-!
# Positions in a text

A position says where a character stands: how many bytes of UTF-8 come before it, on which line it
is, and in which column of that line. Lines and columns count from one; columns count characters,
not bytes; only a line feed ends a line.

**The law** (`Position.advance_append`): reading a text in two parts ends where reading it whole ends.
-/

namespace Abacus

/-- The number of bytes that a text takes in UTF-8. -/
def byteLength (text : List Char) : Nat := text.foldr (fun c n => c.utf8Size + n) 0

@[simp] theorem byteLength_nil : byteLength [] = 0 := rfl

@[simp] theorem byteLength_cons (c : Char) (text : List Char) :
    byteLength (c :: text) = c.utf8Size + byteLength text := rfl

@[simp] theorem byteLength_append (front back : List Char) :
    byteLength (front ++ back) = byteLength front + byteLength back := by
  induction front with
  | nil => simp
  | cons c rest ih => simp [ih, Nat.add_assoc]

theorem byteLength_pos {text : List Char} (h : text ≠ []) : 0 < byteLength text := by
  cases text with
  | nil => exact absurd rfl h
  | cons c rest => exact Nat.add_pos_left c.utf8Size_pos _

/-- A place in a text. -/
structure Position where
  /-- Bytes before the place. -/
  offset : Nat
  /-- The line, from one. -/
  line : Nat
  /-- The column in characters, from one. -/
  column : Nat
deriving DecidableEq

namespace Position

/-- Where every text begins. -/
def start : Position := ⟨0, 1, 1⟩

instance : Inhabited Position := ⟨start⟩

/-- The place after one more character. -/
def step (p : Position) (c : Char) : Position :=
  if c = '\n' then ⟨p.offset + c.utf8Size, p.line + 1, 1⟩
  else ⟨p.offset + c.utf8Size, p.line, p.column + 1⟩

/-- The place reached by reading a text from here. -/
def advance (p : Position) (text : List Char) : Position := text.foldl step p

/-- A position as a reader sees it: line, colon, column. -/
def text (p : Position) : String := toString p.line ++ ":" ++ toString p.column

/-- The bytes of the one-byte span that begins here. -/
def span (p : Position) : Nat × Nat := (p.offset, p.offset + 1)

@[simp] theorem advance_nil (p : Position) : p.advance [] = p := rfl

@[simp] theorem advance_cons (p : Position) (c : Char) (text : List Char) :
    p.advance (c :: text) = (p.step c).advance text := rfl

/-- Reading in two parts ends where reading the whole ends. -/
theorem advance_append (p : Position) (front back : List Char) :
    p.advance (front ++ back) = (p.advance front).advance back := by
  simp [advance]

/-- A reader moves on by as many bytes as it reads. -/
theorem offset_advance (p : Position) (text : List Char) :
    (p.advance text).offset = p.offset + byteLength text := by
  induction text generalizing p with
  | nil => simp
  | cons c rest ih =>
    have hstep : (p.step c).offset = p.offset + c.utf8Size := by
      unfold step; split <;> rfl
    simp [ih, hstep, Nat.add_assoc]

end Position

end Abacus
