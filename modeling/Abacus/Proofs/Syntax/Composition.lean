import Abacus.Proofs.Syntax.Splitting
import Abacus.Proofs.Syntax.Stream
import Abacus.Syntax.Script

/-!
# Sources one after the other

A source that can be read to its end leaves nothing open: no token, no comment, no bracket and no
joined line reaches over the line feed after it.

**The law** (`Script.read_lineFeed`): if a text is read without a fault, then the text, a line feed
and another text are read as the first text and then the second one, which stands where the line
feed ends.
-/

namespace Abacus

open Lexeme

namespace Statement

/-- A statement of which more has been read. -/
def shift (more : List Char) (s : Statement) : Statement :=
  { s with taken := s.taken + more.length, consumed := s.consumed + byteLength more }

/-- How much has been read before decides nothing. -/
theorem ofLexemes_shift (more : List Char) (p : Position) (begun : Bool) (opened : List Open)
    (taken consumed : Nat) (xs : List Lexeme) :
    ofLexemes p begun opened (taken + more.length) (consumed + byteLength more) xs =
      (ofLexemes p begun opened taken consumed xs).map (shift more) := by
  induction xs generalizing p begun opened taken consumed with
  | nil => cases opened <;> rfl
  | cons x rest ih =>
    rw [ofLexemes, ofLexemes, Nat.add_right_comm taken, Nat.add_right_comm consumed]
    cases react x.kind rest.isEmpty p begun opened with
    | skip => exact ih ..
    | keep kind opened' =>
      simp only [ih]
      cases ofLexemes (p.advance x.text) true opened' (taken + x.text.length)
        (consumed + byteLength x.text) rest <;> rfl
    | stop => simp [Except.map, shift]
    | fail fault => rfl

/-- Only for a backslash that joins no lines it matters whether the text ends there. -/
theorem react_last {x : Lexeme} (h : x.isJoined) (last last' : Bool) (p : Position) (begun : Bool)
    (opened : List Open) : react x.kind last p begun opened = react x.kind last' p begun opened := by
  obtain ⟨text, kind⟩ := x
  cases kind with
  | continuation joined =>
    cases joined with
    | true => rfl
    | false => simp [isJoined] at h
  | _ => rfl

/-- A lexeme that is read is no backslash that joins nothing. -/
theorem isJoined_of_isRead {x : Lexeme} (h : x.isRead) : x.isJoined := by
  obtain ⟨text, kind⟩ := x
  cases kind with
  | continuation joined =>
    cases joined with
    | true => rfl
    | false => cases h
  | _ => rfl

/-- The line feed between two texts. -/
def lineFeed : Lexeme := ⟨['\n'], .token .newline⟩

/-- How a statement that is read from the lexemes of a text is read if a line feed and more lexemes
follow them. -/
inductive Resumes (p : Position) (begun : Bool) (opened : List Open) (taken consumed : Nat)
    (xs ys : List Lexeme) (s : Statement) : Prop
  /-- It has ended before. -/
  | inside : begun ∨ s.tokens ≠ [] → s.taken ≤ taken + (xs.flatMap Lexeme.text).length →
      ofLexemes p begun opened taken consumed (xs ++ lineFeed :: ys) = .ok s →
      Resumes p begun opened taken consumed xs ys s
  /-- The line feed ends it. -/
  | atEnd : begun ∨ s.tokens ≠ [] → s.taken = taken + (xs.flatMap Lexeme.text).length →
      ofLexemes p begun opened taken consumed (xs ++ lineFeed :: ys) = .ok (s.shift ['\n']) →
      Resumes p begun opened taken consumed xs ys s
  /-- It has not begun, and begins behind the line feed. -/
  | behind : begun = false → s.tokens = [] →
      ofLexemes p begun opened taken consumed (xs ++ lineFeed :: ys) =
        ofLexemes (p.advance (xs.flatMap Lexeme.text ++ ['\n'])) false []
          (taken + (xs.flatMap Lexeme.text ++ ['\n']).length)
          (consumed + byteLength (xs.flatMap Lexeme.text ++ ['\n'])) ys →
      Resumes p begun opened taken consumed xs ys s

/-- If no backslash joins nothing, a longer text has the same statement, or one that goes on where
this one had to end: by induction on the lexemes. -/
theorem resumes {p : Position} {begun : Bool} {opened : List Open} {taken consumed : Nat}
    {xs : List Lexeme} {s : Statement} (h : ofLexemes p begun opened taken consumed xs = .ok s)
    (hjoined : ∀ x ∈ xs, x.isJoined) (ys : List Lexeme) : Resumes p begun opened taken consumed xs ys s := by
  induction xs generalizing p begun opened taken consumed s with
  | nil =>
    cases opened with
    | nil =>
      cases h
      cases begun with
      | true => exact .atEnd (.inl rfl) rfl rfl
      | false => exact .behind rfl rfl rfl
    | cons bracket outer => cases h
  | cons x rest ih =>
    have hx : x.isJoined := hjoined x List.mem_cons_self
    have hrest : ∀ y ∈ rest, y.isJoined := fun y hy => hjoined y (List.mem_cons_of_mem x hy)
    have hlast := react_last hx rest.isEmpty (rest ++ lineFeed :: ys).isEmpty p begun opened
    have hlength : (xs : List Lexeme) → taken + ((x :: xs).flatMap Lexeme.text).length =
        taken + x.text.length + (xs.flatMap Lexeme.text).length := by
      intro xs
      rw [List.flatMap_cons, List.length_append, Nat.add_assoc]
    rw [ofLexemes] at h
    cases hreact : react x.kind rest.isEmpty p begun opened with
    | skip =>
      rw [hreact] at h
      have hcons : ofLexemes p begun opened taken consumed (x :: rest ++ lineFeed :: ys) =
          ofLexemes (p.advance x.text) begun opened (taken + x.text.length)
            (consumed + byteLength x.text) (rest ++ lineFeed :: ys) := by
        rw [List.cons_append, ofLexemes, ← hlast, hreact]
      cases ih h hrest with
      | inside hbegun hle hread => exact .inside hbegun (by rw [hlength]; exact hle) (hcons.trans hread)
      | atEnd hbegun htaken hread => exact .atEnd hbegun (by rw [hlength]; exact htaken) (hcons.trans hread)
      | behind hbegun hempty hread =>
        refine .behind hbegun hempty (hcons.trans (hread.trans ?_))
        rw [List.flatMap_cons, List.append_assoc, ← Position.advance_append,
          @List.length_append _ x.text, byteLength_append x.text, Nat.add_assoc, Nat.add_assoc]
    | keep kind opened' =>
      rw [hreact] at h
      obtain ⟨s', hs', rfl⟩ := of_map_cons h
      have hcons : ofLexemes p begun opened taken consumed (x :: rest ++ lineFeed :: ys) =
          (ofLexemes (p.advance x.text) true opened' (taken + x.text.length)
            (consumed + byteLength x.text) (rest ++ lineFeed :: ys)).map (cons ⟨kind, p⟩) := by
        rw [List.cons_append, ofLexemes, ← hlast, hreact]
      have hne : begun ∨ (s'.cons ⟨kind, p⟩).tokens ≠ [] := .inr (List.cons_ne_nil _ _)
      cases ih hs' hrest with
      | inside _ hle hread =>
        exact .inside hne (by rw [hlength]; exact hle) (by rw [hcons, hread]; rfl)
      | atEnd _ htaken hread =>
        exact .atEnd hne (by rw [hlength]; exact htaken) (by rw [hcons, hread]; rfl)
      | behind hbegun => cases hbegun
    | stop =>
      rw [hreact] at h
      cases h
      obtain ⟨-, -, -, rfl, hbegun⟩ := of_react_stop hreact
      refine .inside (.inl hbegun) ?_ ?_
      · rw [hlength]
        exact Nat.le_add_right _ _
      · rw [List.cons_append, ofLexemes, ← hlast, hreact]
    | fail fault =>
      rw [hreact] at h
      cases h

/-- How the first statement of a text is read if a line feed and another text follow it. -/
inductive FirstResumes (text : List Char) (origin : Position) (more : List Char) (s : Statement) : Prop
  | inside : s.tokens ≠ [] → s.taken ≤ text.length → first (text ++ '\n' :: more) origin = .ok s →
      FirstResumes text origin more s
  | atEnd : s.tokens ≠ [] → s.taken = text.length →
      first (text ++ '\n' :: more) origin = .ok (s.shift ['\n']) → FirstResumes text origin more s
  | behind : s.tokens = [] →
      first (text ++ '\n' :: more) origin =
        (first more (origin.advance (text ++ ['\n']))).map (shift (text ++ ['\n'])) →
      FirstResumes text origin more s

/-- The same for the first statement of a text. -/
theorem first_resumes {text : List Char} {origin : Position} {s : Statement}
    (h : first text origin = .ok s) (hjoined : ∀ x ∈ stream text, x.isJoined) (more : List Char) :
    FirstResumes text origin more s := by
  have hwhole : first (text ++ '\n' :: more) origin =
      ofLexemes origin false [] 0 0 (stream text ++ lineFeed :: stream more) := by
    rw [first_eq, stream_append_lineFeed text more hjoined, lineFeed]
  rw [first_eq] at h
  cases resumes h hjoined (stream more) with
  | inside hbegun hle hread =>
    rw [flatten_stream, Nat.zero_add] at hle
    exact .inside (by simpa using hbegun) hle (hwhole.trans hread)
  | atEnd hbegun htaken hread =>
    rw [flatten_stream, Nat.zero_add] at htaken
    exact .atEnd (by simpa using hbegun) htaken (hwhole.trans hread)
  | behind _ hempty hread =>
    refine .behind hempty (hwhole.trans (hread.trans ?_))
    rw [flatten_stream, ofLexemes_shift, first_eq]

end Statement

namespace Script

open Statement

/-- What a script says: its expressions, and the fault that ends it if there is one. -/
def content (script : Script) : List Expr × Option ReadError :=
  (script.entries.map ScriptEntry.expr, script.fault)

/-! ## Reading statement by statement -/

variable {text : List Char} {origin : Position} {s : Statement}

/-- The script that begins with a statement; `rest` is what is read behind it. -/
def begin (s : Statement) (rest : Script) : Script :=
  if s.tokens = [] then ⟨[], none⟩
  else
    match s.expr with
    | .error e => ⟨[], some e⟩
    | .ok expr => ⟨⟨expr, s.taken⟩ :: rest.entries, rest.fault⟩

/-- A text whose first statement has a lexical fault has no statements. -/
theorem read_of_error {e : LexError} (h : first text origin = .error e) :
    read text origin = ⟨[], some (.lexical e)⟩ := by
  rw [read]
  split
  · next e' h' => rw [h] at h'; cases h'; rfl
  · next s h' => rw [h] at h'; cases h'

/-- A script is its first statement and the script after it. -/
theorem read_of_first (h : first text origin = .ok s) :
    read text origin =
      begin s (read (text.drop s.taken) (origin.advance (text.take s.taken))) := by
  rw [read]
  split
  · next e h' => rw [h] at h'; cases h'
  · next s' h' =>
    rw [h] at h'
    cases h'
    rfl

/-- An empty text has no statements. -/
theorem read_nil (origin : Position) : read [] origin = ⟨[], none⟩ := by
  have h : first [] origin = .ok ⟨[], 0, 0, origin⟩ := by rw [first_eq, stream, ofLexemes]
  rw [read_of_first h, begin, if_pos rfl]

/-- How much a statement takes is not said. -/
theorem content_begin_shift (front : List Char) (s : Statement) (rest : Script) :
    (begin (s.shift front) rest).content = (begin s rest).content := by
  have hexpr : (s.shift front).expr = s.expr := rfl
  unfold begin
  rw [hexpr]
  by_cases hempty : s.tokens = []
  · simp [shift, hempty]
  · cases s.expr <;> simp [shift, hempty, content]

/-- A script without a fault begins with a statement without one. -/
theorem of_begin_fault {rest : Script} (h : (begin s rest).fault = none) (hne : s.tokens ≠ []) :
    ∃ expr, s.expr = .ok expr ∧ rest.fault = none := by
  rw [begin, if_neg hne] at h
  cases hexpr : s.expr with
  | error e => rw [hexpr] at h; cases h
  | ok expr => exact ⟨expr, rfl, by rw [hexpr] at h; exact h⟩

/-- A statement that is read as an expression adds it in front. -/
theorem content_begin {expr : Expr} (hne : s.tokens ≠ []) (hexpr : s.expr = .ok expr)
    (rest : Script) : (begin s rest).content = (expr :: rest.content.1, rest.content.2) := by
  rw [begin, if_neg hne, hexpr]
  rfl

/-- In a text that is read without a fault every backslash joins lines. -/
theorem isJoined_of_read (h : (read text origin).fault = none) : ∀ x ∈ stream text, x.isJoined := by
  induction text, origin using read.induct with
  | case1 text origin e hfirst =>
    rw [read_of_error hfirst] at h
    cases h
  | case2 text origin s hfirst hempty =>
    obtain ⟨ys, zs, hstream, -, -, -, hread, hall⟩ := exists_of_first [] hfirst rfl
    rw [hstream, hall hempty, List.append_nil]
    exact fun x hx => isJoined_of_isRead (hread x hx)
  | case3 text origin s hfirst hne e hexpr =>
    rw [read_of_first hfirst] at h
    obtain ⟨expr, hexpr', -⟩ := of_begin_fault h hne
    rw [hexpr] at hexpr'
    cases hexpr'
  | case4 text origin s hfirst hne expr hexpr ih =>
    rw [read_of_first hfirst] at h
    obtain ⟨-, -, hrest⟩ := of_begin_fault h hne
    obtain ⟨ys, zs, hstream, htaken, -, -, hread, -⟩ := exists_of_first [] hfirst rfl
    have hzs : stream (text.drop s.taken) = zs := by rw [htaken, stream_drop hstream]
    intro x hx
    rw [hstream] at hx
    rcases List.mem_append.mp hx with hx | hx
    · exact isJoined_of_isRead (hread x hx)
    · exact ih hrest x (hzs ▸ hx)

/-! ## Two texts -/

/-- If the first statement of a text lies behind its front part, then the front part says nothing. -/
theorem content_read_behind {front more : List Char} {origin : Position}
    (h : first (front ++ more) origin =
      (first more (origin.advance front)).map (shift front)) :
    (read (front ++ more) origin).content = (read more (origin.advance front)).content := by
  cases hmore : first more (origin.advance front) with
  | error e =>
    rw [hmore] at h
    rw [read_of_error h, read_of_error hmore]
  | ok s =>
    rw [hmore] at h
    have htaken : (s.shift front).taken = front.length + s.taken := Nat.add_comm ..
    rw [read_of_first h, read_of_first hmore, content_begin_shift, htaken,
      List.drop_length_add_append, List.take_length_add_append, Position.advance_append]

/-- **A text, a line feed and another text are read as the one text and then the other.** -/
theorem read_lineFeed {text : List Char} {origin : Position} (h : (read text origin).fault = none)
    (more : List Char) :
    (read (text ++ '\n' :: more) origin).content =
      ((read text origin).content.1 ++ (read more (origin.advance (text ++ ['\n']))).content.1,
        (read more (origin.advance (text ++ ['\n']))).content.2) := by
  induction text, origin using read.induct with
  | case1 text origin e hfirst =>
    rw [read_of_error hfirst] at h
    cases h
  | case2 text origin s hfirst hempty =>
    have hblank : (read text origin).content.1 = [] := by
      rw [read_of_first hfirst, begin, if_pos hempty]
      rfl
    rw [hblank, List.nil_append]
    cases first_resumes hfirst (isJoined_of_read h) more with
    | inside hne => exact absurd hempty hne
    | atEnd hne => exact absurd hempty hne
    | behind _ hread =>
      have hfront : text ++ '\n' :: more = (text ++ ['\n']) ++ more := by simp
      rw [hfront]
      refine content_read_behind ?_
      rw [← hfront, hread]
  | case3 text origin s hfirst hne e hexpr =>
    rw [read_of_first hfirst] at h
    obtain ⟨expr, hexpr', -⟩ := of_begin_fault h hne
    rw [hexpr] at hexpr'
    cases hexpr'
  | case4 text origin s hfirst hne expr hexpr ih =>
    have hread := read_of_first hfirst
    have hrest : (read (text.drop s.taken) (origin.advance (text.take s.taken))).fault = none := by
      rw [hread] at h
      obtain ⟨-, -, hrest⟩ := of_begin_fault h hne
      exact hrest
    have hstart : (origin.advance (text.take s.taken)).advance (text.drop s.taken ++ ['\n']) =
        origin.advance (text ++ ['\n']) := by
      rw [← Position.advance_append, ← List.append_assoc, List.take_append_drop]
    rw [hread, content_begin hne hexpr]
    cases first_resumes hfirst (isJoined_of_read h) more with
    | inside _ hle hmore =>
      -- the statement is the same, and the induction hypothesis speaks of what follows it
      rw [read_of_first hmore, content_begin hne hexpr, List.drop_append_of_le_length hle,
        List.take_append_of_le_length hle, ih hrest, hstart, List.cons_append]
    | atEnd _ htaken hmore =>
      -- nothing of the text is left, and the line feed belongs to the statement
      have hdrop : (text ++ '\n' :: more).drop (s.shift ['\n']).taken = more := by
        rw [shift, htaken, List.drop_length_add_append]
        rfl
      have htake : (text ++ '\n' :: more).take (s.shift ['\n']).taken = text ++ ['\n'] := by
        rw [shift, htaken, List.take_length_add_append]
        rfl
      have hnil : read (text.drop s.taken) (origin.advance (text.take s.taken)) = ⟨[], none⟩ := by
        rw [htaken, List.drop_length, read_nil]
      rw [read_of_first hmore, content_begin_shift, content_begin hne hexpr, hdrop, htake, hnil]
      rfl
    | behind hempty => exact absurd hempty hne

/-- A block over two lines and a comment, then a line that is not complete: the expressions of the two
one after the other, and the fault at the bracket that stays open on the fourth line. -/
theorem read_lineFeed_block :
    let block := "f = |x| \x7b\n x + 1\n\x7d # twice".toList
    let more := "f(1); [".toList
    (read block .start).fault = none ∧
      (read (block ++ '\n' :: more) .start).content =
        ((read block .start).content.1 ++ (read more ⟨27, 4, 1⟩).content.1,
          (read more ⟨27, 4, 1⟩).content.2) ∧
      (read block .start).content.1.map Expr.text = ["(f = |x| \x7b(x + 1)\x7d)"] ∧
      (read more ⟨27, 4, 1⟩).content.1.map Expr.text = ["f(1)"] ∧
      (read more ⟨27, 4, 1⟩).content.2.map ReadError.message = some "incomplete input at 4:7" := by
  intro block more
  have h : (read block .start).fault = none := Option.isNone_iff_eq_none.mp (by decide +kernel)
  have hstart : Position.start.advance (block ++ ['\n']) = ⟨27, 4, 1⟩ := by decide +kernel
  have hread := read_lineFeed h more
  rw [hstart] at hread
  exact ⟨h, hread, by decide +kernel, by decide +kernel, by decide +kernel⟩

end Script

end Abacus
