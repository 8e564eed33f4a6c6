import Abacus.Syntax.Lexeme
import Abacus.Text.LineTable

/-!
# Statements

A source falls into statements: a line feed or a semicolon that stands in no bracket ends one. Inside
round and square brackets line feeds mean nothing; inside curly ones they separate statements of
their own and are kept. A closing bracket of any shape closes the innermost open one, and which
shapes fit together is left to the grammar.
-/

namespace Abacus

/-- A text that has no tokens, and where. -/
structure LexError where
  fault : LexFault
  position : Position
deriving DecidableEq

def LexError.message (e : LexError) : String := e.fault.message ++ " at " ++ e.position.text

/-- The tokens of one statement. -/
structure Statement where
  tokens : List Token
  /-- How many characters of the text were read, the one that ends the statement included. -/
  taken : Nat
  /-- How many bytes these characters have. -/
  consumed : Nat
  /-- Where the statement ends; missing tokens are reported there. -/
  stop : Position
deriving DecidableEq

namespace Statement

/-- A bracket that is still open, and where. -/
abbrev Open := Bracket × Position

/-- What a lexeme means for the statement that is being read. -/
inductive Reaction where
  /-- It is no part of the statement. -/
  | skip
  /-- It is the statement's next token; after it these brackets are open. -/
  | keep (kind : TokenKind) (opened : List Open)
  /-- It ends the statement. -/
  | stop
  | fail (fault : LexFault)
deriving DecidableEq

/-- A separator ends the statement where no bracket is open, if the statement has begun; a line feed
is dropped in round and square brackets; any other separator is kept. -/
def reactToSeparator (kind : TokenKind) (begun : Bool) : List Open → Reaction
  | [] => if begun then .stop else .skip
  | (.curly, position) :: outer => .keep kind ((.curly, position) :: outer)
  | opened => if kind == .newline then .skip else .keep kind opened

/-- The reaction to a token at a position. -/
def reactToToken (kind : TokenKind) (position : Position) (begun : Bool) (opened : List Open) :
    Reaction :=
  match kind with
  | .opening bracket => .keep kind ((bracket, position) :: opened)
  | .closing _ => .keep kind opened.tail
  | .newline | .semicolon => reactToSeparator kind begun opened
  | _ => .keep kind opened

/-- The reaction to a lexeme; `last` says whether it ends the text. -/
def react (kind : LexemeKind) (last : Bool) (position : Position) (begun : Bool)
    (opened : List Open) : Reaction :=
  match kind with
  | .token kind => reactToToken kind position begun opened
  | .space | .continuation true => .skip
  | .continuation false => .fail (if last then .incomplete else .unexpected '\\')
  | .invalid fault => .fail fault

/-- Puts a token in front of a statement. -/
def cons (token : Token) (s : Statement) : Statement := { s with tokens := token :: s.tokens }

/-- Reads a statement. `begun` says whether it has a token yet, `opened` lists the brackets that are
open, innermost first, and `taken` and `offset` count the characters and bytes read so far. -/
def gather (table : LineTable) (begun : Bool) (opened : List Open) (taken offset : Nat) :
    List Char → Except LexError Statement
  | [] =>
    match opened with
    | [] => .ok ⟨[], taken, offset, table.position offset⟩
    | (_, position) :: _ => .error ⟨.incomplete, position⟩
  | c :: rest =>
    match react (Lexeme.first c rest).kind (Lexeme.after c rest).isEmpty (table.position offset)
        begun opened with
    | .skip =>
      gather table begun opened (taken + (Lexeme.first c rest).text.length)
        (offset + byteLength (Lexeme.first c rest).text) (Lexeme.after c rest)
    | .keep kind opened =>
      (gather table true opened (taken + (Lexeme.first c rest).text.length)
        (offset + byteLength (Lexeme.first c rest).text) (Lexeme.after c rest)).map
        (cons ⟨kind, table.position offset⟩)
    | .stop =>
      .ok ⟨[], taken + (Lexeme.first c rest).text.length,
        offset + byteLength (Lexeme.first c rest).text, table.position offset⟩
    | .fail fault => .error ⟨fault, table.position offset⟩
termination_by text => text.length
decreasing_by all_goals exact Lexeme.length_after_lt c rest

/-- The first statement of a text that stands at an origin; blank ones before it are skipped. At the
end of the text it has no tokens. -/
def first (text : List Char) (origin : Position) : Except LexError Statement :=
  gather (LineTable.ofText text origin) false [] 0 0 text

/-! ## Reading makes progress -/

theorem gather_taken {table : LineTable} {begun : Bool} {opened : List Open} {taken offset : Nat}
    {text : List Char} {s : Statement} (h : gather table begun opened taken offset text = .ok s) :
    taken ≤ s.taken ∧ (s.tokens ≠ [] → taken < s.taken) := by
  fun_induction gather table begun opened taken offset text generalizing s with
  | case1 => cases h; simp
  | case2 => cases h
  | case3 begun opened taken offset c rest hr ih =>
    have := ih h
    simp only [Lexeme.first, List.length_cons] at this
    omega
  | case4 begun opened taken offset c rest kind opened' hr ih =>
    cases hg : gather table true opened' (taken + (Lexeme.first c rest).text.length)
        (offset + byteLength (Lexeme.first c rest).text) (Lexeme.after c rest) with
    | error e => rw [hg] at h; cases h
    | ok s' =>
      rw [hg] at h
      cases h
      have := ih hg
      simp only [Lexeme.first, List.length_cons] at this
      simp only [cons]
      omega
  | case5 => cases h; simp
  | case6 => cases h

/-- A lexeme and some characters after it are so many characters of the text that begins with it. -/
theorem take_of_first {c : Char} {rest : List Char} {taken stop : Nat}
    (hle : taken + (Lexeme.first c rest).text.length ≤ stop) :
    (c :: rest).take (stop - taken) = (Lexeme.first c rest).text ++
      (Lexeme.after c rest).take (stop - (taken + (Lexeme.first c rest).text.length)) := by
  have hcount : stop - taken = (Lexeme.first c rest).text.length +
      (stop - (taken + (Lexeme.first c rest).text.length)) := by omega
  rw [hcount, ← Lexeme.first_append_after c rest, List.take_length_add_append]

/-- **The bytes that are counted are those of the characters that are counted.** -/
theorem gather_consumed {table : LineTable} {begun : Bool} {opened : List Open} {taken offset : Nat}
    {text : List Char} {s : Statement} (h : gather table begun opened taken offset text = .ok s) :
    s.consumed = offset + byteLength (text.take (s.taken - taken)) := by
  fun_induction gather table begun opened taken offset text generalizing s with
  | case1 => cases h; simp
  | case2 => cases h
  | case3 begun opened taken offset c rest hr ih =>
    rw [ih h, take_of_first (gather_taken h).1, byteLength_append, Nat.add_assoc]
  | case4 begun opened taken offset c rest kind opened' hr ih =>
    cases hg : gather table true opened' (taken + (Lexeme.first c rest).text.length)
        (offset + byteLength (Lexeme.first c rest).text) (Lexeme.after c rest) with
    | error e => rw [hg] at h; cases h
    | ok s' =>
      rw [hg] at h
      cases h
      simp only [cons]
      rw [ih hg, take_of_first (gather_taken hg).1, byteLength_append, Nat.add_assoc]
  | case5 begun opened taken offset c rest hr =>
    cases h
    simp only
    rw [take_of_first (Nat.le_refl _), Nat.sub_self, List.take_zero, List.append_nil]
  | case6 => cases h

/-- A statement takes as many bytes of its text as its characters have. -/
theorem first_consumed {text : List Char} {origin : Position} {s : Statement}
    (h : first text origin = .ok s) : s.consumed = byteLength (text.take s.taken) := by
  rw [gather_consumed h, Nat.zero_add, Nat.sub_zero]

theorem first_nil {origin : Position} {s : Statement} (h : first [] origin = .ok s) :
    s.tokens = [] := by
  simp only [first, gather] at h
  cases h
  rfl

/-- What is left after a statement that has tokens is shorter. -/
theorem length_drop_lt {text : List Char} {origin : Position} {s : Statement}
    (h : first text origin = .ok s) (ht : s.tokens ≠ []) :
    (text.drop s.taken).length < text.length := by
  cases text with
  | nil => exact absurd (first_nil h) ht
  | cons c rest =>
    have := (gather_taken h).2 ht
    simp only [List.length_drop, List.length_cons]
    omega

/-! ## All statements of a text -/

/-- The statements of a text one after the other, the last one without tokens, or up to the first
text that has no tokens. -/
def split (text : List Char) (origin : Position) : List Statement × Option LexError :=
  match _h : first text origin with
  | .error e => ([], some e)
  | .ok s =>
    if _ht : s.tokens = [] then ([s], none)
    else
      let more := split (text.drop s.taken) (origin.advance (text.take s.taken))
      (s :: more.1, more.2)
termination_by text.length
decreasing_by exact length_drop_lt _h _ht

end Statement

end Abacus
