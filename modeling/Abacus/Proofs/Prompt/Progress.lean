import Abacus.Proofs.Prompt.Validation
import Abacus.Text.Slice

/-!
# Statement after statement

A script is read, and a text is checked, by a loop: the first statement is read, the characters that it
took are cut off, and the loop goes on with what is left. The loop trusts the number of characters that
it is told. It may: a statement takes a front part of its text, up to a place between two characters; its
tokens stand in that front part one behind the other; and a statement that has tokens takes some.

**The law** (`Prompt.statements_make_progress`): every statement that is read takes a front part of its
text that holds its tokens; and the loops that go from statement to statement come by no more statements
than the text has bytes.
-/

namespace Abacus

open Lexeme (stream kept keptAt)

/-! ## Tokens in their order -/

/-- The token is a lexeme of a text that stands at an origin: it takes the bytes of the text from the
offset `start` to the offset `stop`. -/
def Token.Takes (t : Token) (text : List Char) (origin : Position) (start stop : Nat) : Prop :=
  ∃ before x after, stream text = before ++ x :: after ∧ x.kind = .token t.kind ∧
    t.position = origin.advance (before.flatMap Lexeme.text) ∧
    start = byteLength (before.flatMap Lexeme.text) ∧ stop = start + byteLength x.text

section Kept

variable {origin : Position} {before xs : List Lexeme} {t : Token}

/-- Every token that is kept of some lexemes is one of them, where it stands. -/
theorem exists_of_mem_kept (h : t ∈ kept origin before xs) :
    ∃ front x back, xs = front ++ x :: back ∧ x.kind = .token t.kind ∧
      t.position = origin.advance ((before ++ front).flatMap Lexeme.text) := by
  induction xs generalizing before with
  | nil => cases h
  | cons x rest ih =>
    rw [kept] at h
    rcases List.mem_append.mp h with h | h
    · refine ⟨[], x, rest, rfl, ?_⟩
      rw [Option.mem_toList] at h
      unfold keptAt at h
      split at h
      · next kind hkind =>
        split at h
        · cases h
        · cases h
          exact ⟨hkind, by rw [List.append_nil]⟩
      · cases h
    · obtain ⟨front, y, back, rfl, hkind, hposition⟩ := ih h
      exact ⟨x :: front, y, back, rfl, hkind, by rw [hposition, List.append_assoc]; rfl⟩

/-- Tokens of lexemes stand where the lexemes begin, or later. -/
theorem le_offset_of_mem_kept (h : t ∈ kept origin before xs) :
    origin.offset + byteLength (before.flatMap Lexeme.text) ≤ t.position.offset := by
  obtain ⟨front, x, back, rfl, -, hposition⟩ := exists_of_mem_kept h
  rw [hposition, Position.offset_advance, List.flatMap_append, byteLength_append]
  omega

/-- **Tokens stand one behind the other**, because no lexeme is empty. -/
theorem kept_increasing (hne : ∀ x ∈ xs, x.text ≠ []) :
    (kept origin before xs).Pairwise fun t t' => t.position.offset < t'.position.offset := by
  induction xs generalizing before with
  | nil => exact .nil
  | cons x rest ih =>
    obtain ⟨hx, hrest⟩ := List.forall_mem_cons.mp hne
    rw [kept]
    refine List.pairwise_append.mpr ⟨?_, ih hrest, fun t ht t' ht' => ?_⟩
    · cases keptAt origin before x with
      | none => exact .nil
      | some token => exact List.pairwise_singleton _ token
    · have hfirst : t.position = origin.advance (before.flatMap Lexeme.text) := by
        have hmem : t ∈ kept origin before [x] := by simpa [kept] using ht
        obtain ⟨front, y, back, hsplit, -, hposition⟩ := exists_of_mem_kept hmem
        obtain rfl : front = [] := by
          cases front with
          | nil => rfl
          | cons z front => simp at hsplit
        rw [hposition, List.append_nil]
      have hlater := le_offset_of_mem_kept ht'
      have hpos := byteLength_pos hx
      rw [List.flatMap_append, byteLength_append, List.flatMap_singleton] at hlater
      rw [hfirst, Position.offset_advance]
      omega

end Kept

/-! ## One statement -/

namespace Statement

/-- What a statement takes is a front part of the text, with its tokens in it one behind the other. -/
structure Advances (text : List Char) (origin : Position) (s : Statement) : Prop where
  taken_le : s.taken ≤ text.length
  consumed_le : s.consumed ≤ byteLength text
  /-- The text can be cut where the statement ends. -/
  before : before? (s.consumed) text = some (text.take s.taken)
  after : after? (s.consumed) text = some (text.drop s.taken)
  increasing : s.tokens.Pairwise fun t t' => t.position.offset < t'.position.offset
  /-- All tokens, the last one too, end where the statement ends or before. -/
  within : ∀ t ∈ s.tokens, ∃ start stop, t.Takes text origin start stop ∧ start < stop ∧
    stop ≤ s.consumed
  positive : s.tokens ≠ [] → 0 < s.consumed

/-- **A statement that is read takes a front part of its text.** -/
theorem advances_of_first {text : List Char} {origin : Position} {s : Statement}
    (h : first text origin = .ok s) : s.Advances text origin := by
  obtain ⟨ys, zs, hstream, htaken, htokens, -, -, -⟩ := @exists_of_first origin [] text s h rfl
  have htake : text.take s.taken = ys.flatMap Lexeme.text := by
    rw [htaken, Lexeme.take_flatMap hstream]
  have hsplit : text.take s.taken ++ text.drop s.taken = text := List.take_append_drop _ _
  have hbefore := before?_byteLength (text.take s.taken) (text.drop s.taken)
  have hafter := after?_byteLength (text.take s.taken) (text.drop s.taken)
  have hlength := byteLength_append (text.take s.taken) (text.drop s.taken)
  rw [hsplit, ← first_consumed h] at hbefore hafter hlength
  have hne : ∀ x ∈ ys ++ zs, x.text ≠ [] := fun x hx =>
    Lexeme.text_ne_nil_of_mem_stream (hstream ▸ hx)
  have hwithin : ∀ t ∈ s.tokens, ∃ start stop, t.Takes text origin start stop ∧ start < stop ∧
      stop ≤ s.consumed := by
    intro t ht
    rw [htokens] at ht
    obtain ⟨front, x, back, rfl, hkind, hposition⟩ := exists_of_mem_kept ht
    refine ⟨_, _, ⟨front, x, back ++ zs, by simp [hstream], hkind, hposition, rfl, rfl⟩, ?_, ?_⟩
    · have hpos := byteLength_pos (hne x (by simp))
      omega
    · rw [first_consumed h, htake, List.flatMap_append, List.flatMap_cons, byteLength_append,
        byteLength_append]
      omega
  refine ⟨?_, ?_, hbefore, hafter, ?_, hwithin, fun htokens => ?_⟩
  · have hwhole := congrArg List.length (Lexeme.flatten_stream text)
    rw [hstream, List.flatMap_append, List.length_append] at hwhole
    omega
  · omega
  · rw [htokens]
    exact kept_increasing fun x hx => hne x (List.mem_append_left zs hx)
  · obtain ⟨t, ht⟩ := List.exists_mem_of_ne_nil _ htokens
    obtain ⟨start, stop, -, hlt, hle⟩ := hwithin t ht
    omega

end Statement

/-! ## All statements of a text -/

/-- The statements of a source that are read and handed to the grammar: those that it takes, and the one
that it refuses if there is one. -/
def Script.visited (script : Script) : Nat :=
  match script.fault with
  | some (.grammatical _) => script.entries.length + 1
  | _ => script.entries.length

namespace Prompt

open Statement (first)

/-- A loop over the statements of a text comes from a place, by some statements that have tokens, to
another place. -/
inductive Visits : Place → List Statement → Place → Prop
  | here (place : Place) : Visits place [] place
  | next {text : List Char} {origin : Position} {s : Statement} {statements : List Statement}
    {last : Place} : first text origin = .ok s → s.tokens ≠ [] →
    Visits (behind text origin s) statements last → Visits (text, origin) (s :: statements) last

variable {text : List Char} {origin : Position} {statements : List Statement} {last : Place}

/-- Behind some statements a loop has at least as many bytes behind it. -/
theorem Visits.exists_front {place : Place} (h : Visits place statements last) :
    ∃ front, place.1 = front ++ last.1 ∧ last.2 = place.2.advance front ∧
      statements.length ≤ byteLength front := by
  induction h with
  | here place => exact ⟨[], rfl, rfl, Nat.zero_le _⟩
  | @next text origin s statements last hfirst hne _ ih =>
    obtain ⟨front, hfront, hlast, hlength⟩ := ih
    refine ⟨text.take s.taken ++ front, ?_, ?_, ?_⟩
    · rw [List.append_assoc, ← hfront]
      exact (List.take_append_drop _ _).symm
    · rw [hlast, Position.advance_append]
      rfl
    · have hpos := (Statement.advances_of_first hfirst).positive hne
      rw [Statement.first_consumed hfirst] at hpos
      rw [List.length_cons, byteLength_append]
      omega

/-- **No loop comes by more statements than the text has bytes.** -/
theorem Visits.length_le {place : Place} (h : Visits place statements last) :
    statements.length ≤ byteLength place.1 := by
  obtain ⟨front, hfront, -, hlength⟩ := h.exists_front
  rw [hfront, byteLength_append]
  omega

/-- The check of a text goes from statement to statement, and its verdict is that of its last round. -/
theorem exists_visits_validate (text : List Char) (origin : Position) :
    ∃ statements last, Visits (text, origin) statements last ∧
      round last.1 last.2 = .inl (validate text origin) := by
  induction text, origin using validate.induct with
  | case1 text origin verdict hround =>
    refine ⟨[], (text, origin), .here _, ?_⟩
    rw [validate]
    split
    · next hround' => exact hround'
    · next hround' => rw [hround] at hround'; cases hround'
  | case2 text origin later hround ih =>
    have hgoes : Goes (text, origin) later := hround
    obtain ⟨s, hfirst, hne, rfl⟩ := of_goes hgoes
    obtain ⟨statements, last, hvisits, hverdict⟩ := ih
    refine ⟨s :: statements, last, .next hfirst hne hvisits, ?_⟩
    rw [hverdict, validate_of_goes hgoes]

/-- A script is read from statement to statement, each of which is cut off. -/
theorem exists_visits_read (text : List Char) (origin : Position) :
    ∃ statements last, Visits (text, origin) statements last ∧
      (Script.read text origin).entries.map ScriptEntry.taken <+: statements.map Statement.taken ∧
      (Script.read text origin).visited = statements.length := by
  induction text, origin using Script.read.induct with
  | case1 text origin e hfirst =>
    rw [Script.read_of_error hfirst]
    exact ⟨[], _, .here _, List.prefix_rfl, rfl⟩
  | case2 text origin s hfirst hempty =>
    rw [Script.read_of_first hfirst, Script.begin, if_pos hempty]
    exact ⟨[], _, .here _, List.prefix_rfl, rfl⟩
  | case3 text origin s hfirst hne e hexpr =>
    obtain ⟨error, rfl⟩ := expr_error hexpr
    rw [Script.read_of_first hfirst, Script.begin, if_neg hne, hexpr]
    exact ⟨[s], _, .next hfirst hne (.here _), List.nil_prefix, rfl⟩
  | case4 text origin s hfirst hne expr hexpr ih =>
    obtain ⟨statements, last, hvisits, htaken, hcount⟩ := ih
    rw [Script.read_of_first hfirst, Script.begin, if_neg hne, hexpr]
    refine ⟨s :: statements, last, .next hfirst hne hvisits, ?_, ?_⟩
    · exact List.prefix_cons_inj s.taken |>.mpr htaken
    · rw [List.length_cons, ← hcount]
      unfold Script.visited
      dsimp only
      split <;> rfl

/-- **Loops over statements make progress.** A statement that is read takes a front part of its text,
cut between two characters, and its tokens stand there one behind the other; if it has tokens, it takes
some bytes. So a loop that cuts statements off has what is left of the text where it comes to, and has
come by no more statements than the text has bytes. Such loops are the check of a text, which ends with
its verdict, and the reading of a script, which takes or refuses each statement. -/
theorem statements_make_progress (text : List Char) (origin : Position) :
    (∀ s, first text origin = .ok s → s.Advances text origin) ∧
    (∀ statements last, Visits (text, origin) statements last →
      statements.length ≤ byteLength text ∧
        ∃ front, text = front ++ last.1 ∧ last.2 = origin.advance front) ∧
    (∃ statements last, Visits (text, origin) statements last ∧
      round last.1 last.2 = .inl (validate text origin)) ∧
    ∃ statements last, Visits (text, origin) statements last ∧
      (Script.read text origin).entries.map ScriptEntry.taken <+: statements.map Statement.taken ∧
      (Script.read text origin).visited = statements.length := by
  refine ⟨fun s => Statement.advances_of_first, fun statements last h => ⟨h.length_le, ?_⟩,
    exists_visits_validate text origin, exists_visits_read text origin⟩
  obtain ⟨front, hfront, hlast, -⟩ := h.exists_front
  exact ⟨front, hfront, hlast⟩

/-- Blank statements and a comment with a letter of two bytes before the first statement, and a second
one that the grammar refuses. -/
theorem statements_make_progress_refused :
    let text := "\n; # é\na = [1,\n2]\n)".toList
    (∃ s, first text .start = .ok s ∧ s.Advances text .start ∧ s.consumed = 19) ∧
      (∃ statements last, Visits (text, .start) statements last ∧ statements.length = 2 ∧
        statements.length ≤ byteLength text) ∧
      (Script.read text .start).visited = 2 := by
  intro text
  obtain ⟨hadvances, hbound, -, statements, last, hvisits, -, hcount⟩ :=
    statements_make_progress text .start
  have hvisited : (Script.read text .start).visited = 2 := by decide +kernel
  have hconsumed : ((first text .start).toOption.map Statement.consumed) = some 19 := by
    decide +kernel
  obtain ⟨s, hs, hnumber⟩ := Option.map_eq_some_iff.mp hconsumed
  have hfirst : first text .start = .ok s := by
    cases hread : first text .start with
    | error e => rw [hread] at hs; cases hs
    | ok s' => rw [hread] at hs; cases hs; rfl
  exact ⟨⟨s, hfirst, hadvances s hfirst, hnumber⟩,
    ⟨statements, last, hvisits, hcount.symm.trans hvisited, (hbound _ _ hvisits).1⟩, hvisited⟩

end Prompt

end Abacus
