import Abacus.Proofs.Text.LineTable
import Abacus.Syntax.Statement
import Mathlib.Algebra.Ring.Nat

/-!
# Statements by lexemes

A statement is read from the characters of a text with positions looked up in a table. Said without
characters and tables, it is read from the lexemes of the text, each of which stands where reading
those before it ends (`Statement.first_eq`).

**The law** (`Statement.split_tokens`): if a text falls into statements without a fault, then the
tokens of the statements, one after the other, are the tokens of the whole text but for separators
outside all brackets and line feeds in round and square ones, each where it stands; and the
statements take the whole text.
-/

namespace Abacus

namespace Lexeme

/-! ## Lexemes of a rest -/

/-- There are no lexemes of no text only. -/
theorem isEmpty_stream (text : List Char) : (stream text).isEmpty = text.isEmpty := by
  cases text with
  | nil => rw [stream]; rfl
  | cons c rest => rw [stream]; rfl

/-- A text goes on after some of its lexemes with the others. -/
theorem stream_drop {text : List Char} {xs ys : List Lexeme} (h : stream text = xs ++ ys) :
    stream (text.drop (xs.flatMap Lexeme.text).length) = ys := by
  induction xs generalizing text with
  | nil => simpa using h
  | cons x xs ih =>
    cases text with
    | nil => rw [stream] at h; cases h
    | cons c rest =>
      rw [stream, List.cons_append] at h
      injection h with hfirst hrest
      have hafter : (c :: rest).drop x.text.length = after c rest := by
        rw [← first_append_after c rest, hfirst, List.drop_left]
      rw [List.flatMap_cons, List.length_append, ← List.drop_drop, hafter]
      exact ih hrest

/-- As many characters as some of the first lexemes have are their text. -/
theorem take_flatMap {text : List Char} {xs ys : List Lexeme} (h : stream text = xs ++ ys) :
    text.take (xs.flatMap Lexeme.text).length = xs.flatMap Lexeme.text := by
  rw [← flatten_stream text, h, List.flatMap_append, List.take_left]

/-! ## The tokens of a whole text -/

/-- The shapes of the open brackets after one more lexeme: an opening bracket is put on top, and a
closing one of any shape takes off what is there. -/
def brackets (opened : List Bracket) (x : Lexeme) : List Bracket :=
  match x.kind with
  | .token (.opening bracket) => bracket :: opened
  | .token (.closing _) => opened.tail
  | _ => opened

/-- The shapes of the brackets that lexemes leave open, innermost first. -/
def openBrackets (before : List Lexeme) : List Bracket := before.foldl brackets []

/-- Whether a token means nothing inside brackets of these shapes: separators outside of all
brackets, and line feeds in round and square ones. -/
def isDropped (kind : TokenKind) (opened : List Bracket) : Bool :=
  match kind, opened with
  | .newline, [] | .semicolon, [] => true
  | .newline, .round :: _ | .newline, .square :: _ => true
  | _, _ => false

/-- The token that a lexeme is after those before it, if it is one that means something. -/
def keptAt (origin : Position) (before : List Lexeme) (x : Lexeme) : Option Token :=
  match x.kind with
  | .token kind =>
    if isDropped kind (openBrackets before) then none
    else some ⟨kind, origin.advance (before.flatMap Lexeme.text)⟩
  | _ => none

/-- The tokens that mean something in lexemes that stand after others. -/
def kept (origin : Position) (before : List Lexeme) : List Lexeme → List Token
  | [] => []
  | x :: rest => (keptAt origin before x).toList ++ kept origin (before ++ [x]) rest

/-- The tokens of two parts of a text are those of each, the second with the brackets that the first
leaves open. -/
theorem kept_append (origin : Position) (before xs ys : List Lexeme) :
    kept origin before (xs ++ ys) = kept origin before xs ++ kept origin (before ++ xs) ys := by
  induction xs generalizing before with
  | nil => simp [kept]
  | cons x xs ih => simp [kept, ih]

/-- One lexeme more opens or closes at most one bracket. -/
theorem openBrackets_append (before : List Lexeme) (x : Lexeme) :
    openBrackets (before ++ [x]) = brackets (openBrackets before) x := by
  simp [openBrackets]

/-- Whether a lexeme is no fault: a token, blanks or a comment, or a backslash that joins lines. -/
def isRead (x : Lexeme) : Bool :=
  match x.kind with
  | .token _ | .space | .continuation true => true
  | .continuation false | .invalid _ => false

end Lexeme

namespace Statement

open Lexeme

/-! ## A statement from lexemes -/

/-- Reads a statement from lexemes, the first of which stands at `p`. -/
def ofLexemes (p : Position) (begun : Bool) (opened : List Open) (taken consumed : Nat) :
    List Lexeme → Except LexError Statement
  | [] =>
    match opened with
    | [] => .ok ⟨[], taken, consumed, p⟩
    | (_, position) :: _ => .error ⟨.incomplete, position⟩
  | x :: rest =>
    match react x.kind rest.isEmpty p begun opened with
    | .skip =>
      ofLexemes (p.advance x.text) begun opened (taken + x.text.length)
        (consumed + byteLength x.text) rest
    | .keep kind opened =>
      (ofLexemes (p.advance x.text) true opened (taken + x.text.length)
        (consumed + byteLength x.text) rest).map (cons ⟨kind, p⟩)
    | .stop => .ok ⟨[], taken + x.text.length, consumed + byteLength x.text, p⟩
    | .fail fault => .error ⟨fault, p⟩

/-- Looking positions up in the table of a text is reading its lexemes. -/
theorem gather_eq (origin : Position) (front back : List Char) (begun : Bool) (opened : List Open)
    (taken : Nat) :
    gather (LineTable.ofText (front ++ back) origin) begun opened taken (byteLength front) back =
      ofLexemes (origin.advance front) begun opened taken (byteLength front) (stream back) := by
  induction back using Lexeme.stream.induct generalizing front begun opened taken with
  | case1 =>
    cases opened with
    | nil => rw [gather, stream, ofLexemes, LineTable.position_byteLength]
    | cons bracket outer => rw [gather, stream, ofLexemes]
  | case2 c rest ih =>
    -- the rest of the text stands behind the front part and the lexeme
    have hsplit : front ++ c :: rest = (front ++ (Lexeme.first c rest).text) ++ after c rest := by
      rw [List.append_assoc, first_append_after]
    have hnext := fun begun opened taken => ih (front ++ (Lexeme.first c rest).text) begun opened taken
    rw [← hsplit, byteLength_append, Position.advance_append] at hnext
    rw [gather, stream, ofLexemes, LineTable.position_byteLength, isEmpty_stream]
    cases react (Lexeme.first c rest).kind (after c rest).isEmpty (origin.advance front) begun
        opened with
    | skip => exact hnext begun opened _
    | keep kind opened' => exact congrArg (Except.map (cons ⟨kind, _⟩)) (hnext true opened' _)
    | stop => rfl
    | fail fault => rfl

/-- **A statement is read from the lexemes of its text.** -/
theorem first_eq (text : List Char) (origin : Position) :
    first text origin = ofLexemes origin false [] 0 0 (stream text) :=
  gather_eq origin [] text false [] 0

/-! ## What becomes of a lexeme -/

section React

variable {x : Lexeme} {last begun : Bool} {p : Position} {opened opened' : List Open}
  {kind kind' : TokenKind}

/-- The shapes of open brackets. -/
def shapes (opened : List Open) : List Bracket := opened.map Prod.fst

/-- A token that means nothing is skipped, unless it ends a statement that has begun. -/
theorem reactToToken_of_dropped (h : isDropped kind (shapes opened)) :
    reactToToken kind p begun opened = if opened.isEmpty && begun then .stop else .skip := by
  cases opened with
  | nil =>
    cases kind <;> first | (cases begun <;> rfl) | cases h
  | cons bracket outer =>
    obtain ⟨shape, q⟩ := bracket
    cases kind <;> cases shape <;> first | rfl | cases h

/-- A token that means something is kept, whatever the statement has before it. -/
theorem reactToToken_of_not_dropped (p : Position) (begun : Bool)
    (h : isDropped kind (shapes opened) = false) :
    ∃ opened', reactToToken kind p begun opened = .keep kind opened' ∧
      shapes opened' = brackets (shapes opened) ⟨[], .token kind⟩ := by
  cases opened with
  | nil => cases kind <;> first | exact ⟨_, rfl, rfl⟩ | cases h
  | cons bracket outer =>
    obtain ⟨shape, q⟩ := bracket
    cases kind <;> cases shape <;> first | exact ⟨_, rfl, rfl⟩ | cases h

/-- A token that means nothing opens and closes no bracket. -/
theorem brackets_of_dropped {shapes : List Bracket} (h : isDropped kind shapes) (text : List Char) :
    brackets shapes ⟨text, .token kind⟩ = shapes := by
  cases kind <;> first | rfl | (simp [isDropped] at h)

/-- What is skipped is blank, or it is a token that means nothing. -/
theorem of_react_skip (h : react x.kind last p begun opened = .skip) :
    (∀ kind, x.kind = .token kind → isDropped kind (shapes opened)) ∧
      brackets (shapes opened) x = shapes opened ∧ x.isRead := by
  obtain ⟨text, kind⟩ := x
  cases kind with
  | token kind =>
    have hdropped : isDropped kind (shapes opened) := by
      by_contra hkept
      obtain ⟨opened', hreact, -⟩ := reactToToken_of_not_dropped p begun
        (Bool.eq_false_iff.mpr hkept)
      rw [react, hreact] at h
      cases h
    refine ⟨fun kind hkind => ?_, brackets_of_dropped hdropped text, rfl⟩
    cases hkind
    exact hdropped
  | space => simp [brackets, isRead]
  | continuation joined =>
    cases joined with
    | true => simp [brackets, isRead]
    | false => cases h
  | invalid fault => cases h

/-- What is kept is a token that means something. -/
theorem of_react_keep (h : react x.kind last p begun opened = .keep kind opened') :
    x.kind = .token kind ∧ isDropped kind (shapes opened) = false ∧
      brackets (shapes opened) x = shapes opened' := by
  obtain ⟨text, kind'⟩ := x
  cases kind' with
  | token kind' =>
    by_cases hdropped : isDropped kind' (shapes opened)
    · rw [react, reactToToken_of_dropped hdropped] at h
      split at h <;> cases h
    · have hkept := Bool.eq_false_iff.mpr hdropped
      obtain ⟨after, hreact, hshapes⟩ := reactToToken_of_not_dropped p begun hkept
      rw [react, hreact] at h
      cases h
      exact ⟨rfl, hkept, hshapes.symm⟩
  | space => cases h
  | continuation joined => cases joined <;> cases h
  | invalid fault => cases h

/-- A statement that has begun ends at a separator outside of all brackets. -/
theorem of_react_stop (h : react x.kind last p begun opened = .stop) :
    ∃ kind, x.kind = .token kind ∧ isDropped kind [] ∧ opened = [] ∧ begun := by
  obtain ⟨text, kind⟩ := x
  cases kind with
  | token kind =>
    by_cases hdropped : isDropped kind (shapes opened)
    · rw [react, reactToToken_of_dropped hdropped] at h
      split at h
      · next hends =>
        rw [Bool.and_eq_true, List.isEmpty_iff] at hends
        obtain ⟨rfl, hbegun⟩ := hends
        exact ⟨kind, rfl, hdropped, rfl, hbegun⟩
      · cases h
    · obtain ⟨opened', hreact, -⟩ := reactToToken_of_not_dropped p begun
        (Bool.eq_false_iff.mpr hdropped)
      rw [react, hreact] at h
      cases h
  | space => cases h
  | continuation joined => cases joined <;> cases h
  | invalid fault => cases h

/-- A statement fails at what is no token, and at a backslash that joins no lines. -/
theorem of_react_fail {fault : LexFault} (h : react x.kind last p begun opened = .fail fault) :
    x.kind = .invalid fault ∨ x.kind = .continuation false ∧
      fault = if last then .incomplete else .unexpected '\\' := by
  obtain ⟨text, kind⟩ := x
  cases kind with
  | token kind =>
    by_cases hdropped : isDropped kind (shapes opened)
    · rw [react, reactToToken_of_dropped hdropped] at h
      split at h <;> cases h
    · obtain ⟨opened', hreact, -⟩ := reactToToken_of_not_dropped p begun
        (Bool.eq_false_iff.mpr hdropped)
      rw [react, hreact] at h
      cases h
  | space => cases h
  | continuation joined =>
    cases joined with
    | true => cases h
    | false => cases h; exact .inr ⟨rfl, rfl⟩
  | invalid fault => cases h; exact .inl rfl

end React

/-! ## The lexemes of a statement -/

/-- A statement with a token in front is one without it. -/
theorem of_map_cons {token : Token} {read : Except LexError Statement} {s : Statement}
    (h : read.map (cons token) = .ok s) : ∃ s', read = .ok s' ∧ s'.cons token = s := by
  cases read with
  | error e => cases h
  | ok s' =>
    cases h
    exact ⟨s', rfl, rfl⟩

/-- **A statement that is read takes some of the lexemes**: it has their tokens, it leaves no bracket
open, and it leaves lexemes over only if it has begun. -/
theorem exists_of_ofLexemes {origin : Position} {before xs : List Lexeme} {begun : Bool}
    {opened : List Open} {taken consumed : Nat} {s : Statement}
    (h : ofLexemes (origin.advance (before.flatMap Lexeme.text)) begun opened taken consumed xs = .ok s)
    (hopened : shapes opened = openBrackets before) :
    ∃ ys zs, xs = ys ++ zs ∧ s.taken = taken + (ys.flatMap Lexeme.text).length ∧
      s.tokens = kept origin before ys ∧ openBrackets (before ++ ys) = [] ∧ (∀ y ∈ ys, y.isRead) ∧
      (zs = [] ∨ begun ∨ s.tokens ≠ []) := by
  induction xs generalizing before begun opened taken consumed s with
  | nil =>
    cases opened with
    | nil =>
      cases h
      exact ⟨[], [], rfl, rfl, rfl, by rw [List.append_nil, ← hopened]; rfl, by simp, .inl rfl⟩
    | cons bracket outer => cases h
  | cons x rest ih =>
    have hnext : (origin.advance (before.flatMap Lexeme.text)).advance x.text =
        origin.advance ((before ++ [x]).flatMap Lexeme.text) := by
      rw [← Position.advance_append, List.flatMap_append, List.flatMap_singleton]
    rw [ofLexemes, hnext] at h
    cases hreact : react x.kind rest.isEmpty (origin.advance (before.flatMap Lexeme.text)) begun
        opened with
    | skip =>
      rw [hreact] at h
      obtain ⟨hdropped, hbrackets, hread⟩ := of_react_skip hreact
      obtain ⟨ys, zs, rfl, htaken, htokens, hclosed, hys, hleft⟩ := ih h (by
        rw [openBrackets_append, ← hopened, hbrackets])
      have hnone : keptAt origin before x = none := by
        unfold keptAt
        split
        · next kind hkind => rw [← hopened, if_pos (hdropped kind hkind)]
        · rfl
      refine ⟨x :: ys, zs, rfl, ?_, ?_, ?_, ?_, hleft⟩
      · rw [htaken, List.flatMap_cons, List.length_append, Nat.add_assoc]
      · rw [kept, hnone, htokens]
        rfl
      · simpa using hclosed
      · simpa [hread] using hys
    | keep kind opened' =>
      rw [hreact] at h
      obtain ⟨hkind, hkept, hbrackets⟩ := of_react_keep hreact
      obtain ⟨s', hs', rfl⟩ := of_map_cons h
      obtain ⟨ys, zs, rfl, htaken, htokens, hclosed, hys, -⟩ := ih hs' (by
        rw [openBrackets_append, ← hopened, hbrackets])
      have hsome : keptAt origin before x =
          some ⟨kind, origin.advance (before.flatMap Lexeme.text)⟩ := by
        simp [keptAt, hkind, ← hopened, hkept]
      refine ⟨x :: ys, zs, rfl, ?_, ?_, ?_, ?_, .inr (.inr (List.cons_ne_nil _ _))⟩
      · rw [cons, htaken, List.flatMap_cons, List.length_append, Nat.add_assoc]
      · rw [kept, hsome, cons, htokens]
        rfl
      · simpa using hclosed
      · simpa [isRead, hkind] using hys
    | stop =>
      rw [hreact] at h
      cases h
      obtain ⟨kind, hkind, hdropped, rfl, hbegun⟩ := of_react_stop hreact
      have hnone : keptAt origin before x = none := by
        simp [keptAt, hkind, ← hopened, shapes, hdropped]
      refine ⟨[x], rest, rfl, by simp, ?_, ?_, by simp [isRead, hkind], .inr (.inl hbegun)⟩
      · simp [kept, hnone]
      · rw [openBrackets_append, ← hopened]
        obtain ⟨text, kind'⟩ := x
        cases hkind
        exact brackets_of_dropped hdropped text
    | fail fault =>
      rw [hreact] at h
      cases h

/-- The first statement of a text takes some of its lexemes, and all of them if it has no tokens. -/
theorem exists_of_first {origin : Position} (before : List Lexeme) {text : List Char} {s : Statement}
    (h : first text (origin.advance (before.flatMap Lexeme.text)) = .ok s)
    (hclosed : openBrackets before = []) :
    ∃ ys zs, stream text = ys ++ zs ∧ s.taken = (ys.flatMap Lexeme.text).length ∧
      s.tokens = kept origin before ys ∧ openBrackets (before ++ ys) = [] ∧ (∀ y ∈ ys, y.isRead) ∧
      (s.tokens = [] → zs = []) := by
  rw [first_eq] at h
  obtain ⟨ys, zs, hstream, htaken, htokens, hopen, hread, hleft⟩ :=
    exists_of_ofLexemes h hclosed.symm
  refine ⟨ys, zs, hstream, by rw [htaken, Nat.zero_add], htokens, hopen, hread, fun hempty => ?_⟩
  rcases hleft with hzs | hbegun | hne
  · exact hzs
  · cases hbegun
  · exact absurd hempty hne

/-! ## All statements of a text -/

/-- The texts that statements take, one after the other. -/
def pieces : List Statement → List Char → List (List Char)
  | [], _ => []
  | s :: rest, text => text.take s.taken :: pieces rest (text.drop s.taken)

/-- Each statement has consumed the bytes of the text that it takes. -/
theorem map_consumed_split (text : List Char) (origin : Position) :
    (split text origin).1.map consumed = (pieces (split text origin).1 text).map byteLength := by
  fun_induction split text origin with
  | case1 text origin e hfirst => rfl
  | case2 text origin s hfirst hempty => simp [pieces, first_consumed hfirst]
  | case3 text origin s hfirst hne more ih => simp [pieces, first_consumed hfirst, more, ih]

/-- The statements of a text that stands after other lexemes. -/
theorem split_tokens_after {origin : Position} (before : List Lexeme) {text : List Char}
    (h : (split text (origin.advance (before.flatMap Lexeme.text))).2 = none)
    (hclosed : openBrackets before = []) :
    (split text (origin.advance (before.flatMap Lexeme.text))).1.flatMap tokens =
        kept origin before (stream text) ∧
      (pieces (split text (origin.advance (before.flatMap Lexeme.text))).1 text).flatten = text ∧
      ∀ x ∈ stream text, x.isRead := by
  generalize hp : origin.advance (before.flatMap Lexeme.text) = p at h ⊢
  fun_induction split text p generalizing before with
  | case1 text p e hfirst => cases h
  | case2 text p s hfirst hempty =>
    subst hp
    obtain ⟨ys, zs, hstream, htaken, htokens, -, hread, hall⟩ := exists_of_first before hfirst hclosed
    rw [hall hempty, List.append_nil] at hstream
    refine ⟨?_, ?_, by rwa [hstream]⟩
    · simp [htokens, hstream]
    · have hwhole : s.taken = text.length := by rw [htaken, ← hstream, flatten_stream]
      simp [pieces, hwhole]
  | case3 text p s hfirst hne more =>
    rename_i ih
    subst hp
    obtain ⟨ys, zs, hstream, htaken, htokens, hopen, hread, -⟩ := exists_of_first before hfirst hclosed
    have hrest : stream (text.drop s.taken) = zs := by rw [htaken, stream_drop hstream]
    have hposition : origin.advance ((before ++ ys).flatMap Lexeme.text) =
        (origin.advance (before.flatMap Lexeme.text)).advance (text.take s.taken) := by
      rw [htaken, take_flatMap hstream, ← Position.advance_append, List.flatMap_append]
    obtain ⟨hmore, hpieces, hreads⟩ := ih (before ++ ys) hopen hposition h
    refine ⟨?_, ?_, ?_⟩
    · rw [List.flatMap_cons, hmore, hrest, htokens, hstream, kept_append]
    · rw [pieces, List.flatten_cons, hpieces, List.take_append_drop]
    · intro x hx
      rw [hstream] at hx
      rcases List.mem_append.mp hx with hx | hx
      · exact hread x hx
      · exact hreads x (hrest ▸ hx)

/-- The lengths of parts add up to the length of the whole. -/
theorem sum_byteLength_flatten (texts : List (List Char)) :
    (texts.map byteLength).sum = byteLength texts.flatten := by
  induction texts with
  | nil => rfl
  | cons text texts ih => simp [ih]

/-- **Splitting a text into statements loses and invents nothing.** The statements have the tokens of the
whole text, and what they have consumed is the whole text. -/
theorem split_tokens {text : List Char} {origin : Position} (h : (split text origin).2 = none) :
    (split text origin).1.flatMap tokens = kept origin [] (stream text) ∧
      (∀ x ∈ stream text, x.isRead) ∧
      (split text origin).1.map consumed = (pieces (split text origin).1 text).map byteLength ∧
      ((pieces (split text origin).1 text).map byteLength).sum = byteLength text := by
  obtain ⟨htokens, hpieces, hread⟩ := split_tokens_after [] h rfl
  refine ⟨htokens, hread, map_consumed_split text origin, ?_⟩
  rw [sum_byteLength_flatten]
  exact congrArg byteLength hpieces

/-- A closing bracket too many, line feeds in a block and in the brackets inside it, and joined lines:
three statements of 3, 9 and 14 bytes, and nothing after them. -/
theorem split_closing_brackets :
    let text := "a)\n\x7b(b\n);\n\x7d; \\ # more\n[\nc]".toList
    (split text .start).2 = none ∧
      (split text .start).1.flatMap tokens = kept .start [] (stream text) ∧
      (∀ x ∈ stream text, x.isRead) ∧
      (split text .start).1.map consumed = (pieces (split text .start).1 text).map byteLength ∧
      ((pieces (split text .start).1 text).map byteLength).sum = byteLength text ∧
      (split text .start).1.map (·.tokens.map Token.kind) =
        [[.identifier "a", .closing .round],
          [.opening .curly, .opening .round, .identifier "b", .closing .round, .semicolon, .newline,
            .closing .curly],
          [.opening .square, .identifier "c", .closing .square], []] ∧
      (split text .start).1.map consumed = [3, 9, 14, 0] := by
  intro text
  have h : (split text .start).2 = none := by decide +kernel
  obtain ⟨htokens, hread, hconsumed, hsum⟩ := split_tokens h
  exact ⟨h, htokens, hread, hconsumed, hsum, by decide +kernel, by decide +kernel⟩

end Statement

end Abacus
