import Abacus.Syntax.Numeral
import Abacus.Syntax.Token

/-!
# Lexemes

A text falls into lexemes: tokens, the blanks and comments between them, backslashes that join two
lines, and stretches that are no token at all. Each lexeme is the longest that some rule can read at
its place, and a character that no rule reads is a lexeme by itself; so the lexemes of a text, one
after the other, are the text (`Lexeme.flatten_stream`).
-/

namespace Abacus

/-- Why a stretch of text is no token. -/
inductive LexFault where
  /-- More text could still make it one. -/
  | incomplete
  | unexpected (c : Char)
  | badNumber (text : String)
deriving DecidableEq

def LexFault.message : LexFault → String
  | .incomplete => "incomplete input"
  | .unexpected c => "unexpected character '" ++ c.toString ++ "'"
  | .badNumber text => "invalid number format: '" ++ text ++ "'"

/-- What a stretch of text is. -/
inductive LexemeKind where
  | token (kind : TokenKind)
  /-- Blanks or a comment. -/
  | space
  /-- A backslash with what follows it on its line; joined if the line ends in a line feed. -/
  | continuation (joined : Bool)
  | invalid (fault : LexFault)
deriving DecidableEq

structure Lexeme where
  text : List Char
  kind : LexemeKind
deriving DecidableEq

namespace Lexeme

/-! ## Character classes -/

/-- Blanks do not end a line. -/
def isBlank (c : Char) : Bool := c == ' ' || c == '\t' || c == '\r' || c == '\x0c'

def isNameStart (c : Char) : Bool := c.isAlpha || c == '_'

def isNameChar (c : Char) : Bool := c.isAlphanum || c == '_'

def isAscii (c : Char) : Bool := c.toNat < 128

/-! ## Rules

A rule looks at the characters after the first one of a lexeme and says how many of them belong to
it, and what it is. -/

/-- A word is a keyword or a name. -/
def word (name : String) : TokenKind :=
  match Keyword.all.find? (·.text == name) with
  | some keyword => .keyword keyword
  | none => .identifier name

def numeral (text : List Char) : Nat × LexemeKind :=
  let n := Numeral.scan text
  (n.text.length - 1,
    match n.value? with
    | some value => .token (.number value)
    | none => .invalid (.badNumber (String.ofList n.text)))

/-- A quoted text ends at the next quote, and at the end of its line if there is none. -/
def quoted (rest : List Char) : Nat × LexemeKind :=
  let body := rest.takeWhile fun c => c != '"' && c != '\n'
  match (rest.drop body.length).head? with
  | some '"' =>
    (body.length + 1,
      match body.find? fun c => !isAscii c with
      | some c => .invalid (.unexpected c)
      | none => .token (.quoted (String.ofList body)))
  | _ => (body.length, .invalid .incomplete)

def comment (rest : List Char) : List Char := rest.takeWhile (· != '\n')

/-- A backslash reads the blanks and the comment after it, and the line feed if they end there. -/
def continuation (rest : List Char) : Nat × LexemeKind :=
  let blanks := rest.takeWhile fun c => c == ' ' || c == '\t' || c == '\r'
  let afterBlanks := rest.drop blanks.length
  let note := if afterBlanks.head? == some '#' then comment afterBlanks else []
  let joined := (afterBlanks.drop note.length).head? == some '\n'
  (blanks.length + note.length + joined.toNat, .continuation joined)

/-- A sign of two characters if the second one follows, or else of one. -/
def sign (second : Char) (two one : TokenKind) (rest : List Char) : Nat × LexemeKind :=
  if rest.head? == some second then (1, .token two) else (0, .token one)

/-- The rule for each first character. -/
def rule (c : Char) (rest : List Char) : Nat × LexemeKind :=
  if isBlank c then ((rest.takeWhile isBlank).length, .space)
  else if c.isDigit || (c == '.' && !(leadingDigits rest).isEmpty) then numeral (c :: rest)
  else if isNameStart c then
    let more := rest.takeWhile isNameChar
    (more.length, .token (word (String.ofList (c :: more))))
  else
    match c with
    | '#' => ((comment rest).length, .space)
    | '"' => quoted rest
    | '\\' => continuation rest
    | '\n' => (0, .token .newline)
    | ';' => (0, .token .semicolon)
    | ',' => (0, .token .comma)
    | '(' => (0, .token (.opening .round))
    | ')' => (0, .token (.closing .round))
    | '[' => (0, .token (.opening .square))
    | ']' => (0, .token (.closing .square))
    | '\x7b' => (0, .token (.opening .curly))
    | '\x7d' => (0, .token (.closing .curly))
    | '+' => (0, .token (.operator .add))
    | '*' => (0, .token (.operator .mul))
    | '/' => (0, .token (.operator .div))
    | '%' => (0, .token (.operator .rem))
    | '^' => (0, .token (.operator .pow))
    | '&' => (0, .token (.operator .and))
    | '|' => (0, .token (.operator .or))
    | '-' => sign '>' .arrow (.operator .sub) rest
    | '=' => sign '=' (.operator .eq) .assign rest
    | '!' => sign '=' (.operator .notEq) .bang rest
    | '<' => sign '=' (.operator .lessEq) (.operator .less) rest
    | '>' => sign '=' (.operator .greaterEq) (.operator .greater) rest
    | c => (0, .invalid (.unexpected c))

/-! ## The stream -/

/-- The first lexeme of a text that begins with `c`. -/
def first (c : Char) (rest : List Char) : Lexeme :=
  ⟨c :: rest.take (rule c rest).1, (rule c rest).2⟩

/-- What follows the first lexeme. -/
def after (c : Char) (rest : List Char) : List Char := rest.drop (rule c rest).1

theorem length_after_lt (c : Char) (rest : List Char) : (after c rest).length < (c :: rest).length := by
  rw [after, List.length_drop, List.length_cons]
  omega

/-- The first lexeme and what follows it are the text. -/
theorem first_append_after (c : Char) (rest : List Char) :
    (first c rest).text ++ after c rest = c :: rest := by
  simp [first, after]

/-- The lexemes of a text, in order. -/
def stream : List Char → List Lexeme
  | [] => []
  | c :: rest => first c rest :: stream (after c rest)
termination_by text => text.length
decreasing_by exact length_after_lt c rest

/-- **The lexemes of a text are the text.** -/
theorem flatten_stream (text : List Char) : (stream text).flatMap Lexeme.text = text := by
  fun_induction stream text with
  | case1 => rfl
  | case2 c rest ih => rw [List.flatMap_cons, ih, first_append_after]

/-- No lexeme is empty. -/
theorem text_ne_nil_of_mem_stream {text : List Char} {x : Lexeme} (h : x ∈ stream text) :
    x.text ≠ [] := by
  fun_induction stream text with
  | case1 => simp at h
  | case2 c rest ih =>
    rcases List.mem_cons.mp h with rfl | h
    · simp [first]
    · exact ih h

end Lexeme

end Abacus
