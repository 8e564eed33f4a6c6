import Abacus.Prompt.Highlight
import Abacus.Proofs.Report.Labels

/-!
# Colours change nothing in a line

The pieces of a line are cut out of it at the byte offsets of its spans, the gaps between the spans
as well as the spans themselves. A cut inside a character would be none, and one at a wrong place
would lose some of the line or show it twice.

**The law** (`Highlight.highlight_keeps_text`): every line has its pieces, whatever is or is not a
token in it and wherever the cursor stands; one after the other they are the line; and each is shown
as it is or between a code for a colour and the code for none.

The pieces are right for all spans that lie one behind the other with their ends between characters
(`Laid`), by whatever rules they are found; and those of a line do (`laid_spans`).
-/

namespace Abacus.Highlight

/-- The spans lie one behind the other, from a byte of the line on, and all ends are between
characters. -/
inductive Laid (line : List Char) : Nat → List Span → Prop
  | nil {last : Nat} : IsBoundary line last → Laid line last []
  | cons {last : Nat} {span : Span} {rest : List Span} : IsBoundary line last → last ≤ span.start →
      IsBoundary line span.start → span.start ≤ span.stop → Laid line span.stop rest →
      Laid line last (span :: rest)

variable {line : List Char} {last : Nat} {found : List Span}

/-- What has been laid out ends between two characters. -/
theorem Laid.boundary (h : Laid line last found) : IsBoundary line last := by
  cases h with
  | nil hlast => exact hlast
  | cons hlast => exact hlast

/-- From such a place on there is a rest of the line. -/
theorem exists_after_of_isBoundary {offset : Nat} (h : IsBoundary line offset) :
    ∃ back, after? offset line = some back := by
  obtain ⟨front, back, hline, hoffset⟩ := h
  exact ⟨back, after?_eq_some_iff.mpr ⟨front, hline, hoffset⟩⟩

/-! ## Pieces of spans -/

/-- **Spans one behind the other give pieces that are the line**, from where the first piece
begins. -/
theorem Laid.exists_pieces (h : Laid line last found) (pair : Option (Nat × Nat)) {back : List Char}
    (hback : after? last line = some back) :
    ∃ pieces, piecesFrom? line pair last found = some pieces ∧
      pieces.flatMap Piece.text = back := by
  induction h generalizing back with
  | nil => exact ⟨[⟨back, none⟩], by simp [piecesFrom?, hback], by simp⟩
  | @cons last span rest _ hlast hstart hle hrest ih =>
    obtain ⟨fromStart, hfromStart⟩ := exists_after_of_isBoundary hstart
    obtain ⟨fromStop, hfromStop⟩ := exists_after_of_isBoundary hrest.boundary
    obtain ⟨gap, hgap, rfl⟩ := exists_slice hback hfromStart hlast
    obtain ⟨text, htext, rfl⟩ := exists_slice hfromStart hfromStop hle
    obtain ⟨more, hmore, rfl⟩ := ih hfromStop
    exact ⟨_, by simp only [piecesFrom?, hgap, htext, hmore]; rfl, by simp⟩

/-! ## Spans of lexemes -/

/-- The spans of a line lie in it one behind the other. -/
theorem laid_spansFrom {front : List Char} {lexemes : List Lexeme}
    (hline : line = front ++ lexemes.flatMap Lexeme.text) (hlast : IsBoundary line last)
    (hle : last ≤ byteLength front) : Laid line last (spansFrom (byteLength front) lexemes) := by
  induction lexemes generalizing front last with
  | nil => exact .nil hlast
  | cons x rest ih =>
    have hnext : line = (front ++ x.text) ++ rest.flatMap Lexeme.text := by
      rw [hline, List.flatMap_cons, List.append_assoc]
    have hstop : byteLength front + byteLength x.text = byteLength (front ++ x.text) :=
      (byteLength_append front x.text).symm
    rw [spansFrom, hstop]
    split
    · exact ih hnext hlast (by omega)
    · have hstart : IsBoundary line (byteLength front) := ⟨front, _, hline, rfl⟩
      have hend : IsBoundary line (byteLength (front ++ x.text)) := ⟨front ++ x.text, _, hnext, rfl⟩
      have hlength : byteLength front ≤ byteLength (front ++ x.text) := by omega
      exact .cons hlast hle hstart hlength (ih hnext hend (Nat.le_refl _))

/-- The spans of a line lie one behind the other, and their ends are between characters. -/
theorem laid_spans (line : List Char) : Laid line 0 (spans line) := by
  have hline : line = [] ++ (Lexeme.stream line).flatMap Lexeme.text :=
    (Lexeme.flatten_stream line).symm
  exact laid_spansFrom hline ⟨[], line, rfl, rfl⟩ (Nat.le_refl 0)

/-! ## The law -/

/-- **A line with its colours is the line.** Any spans that lie one behind the other, with their ends
between characters, cut the line into pieces that one after the other are the line; the spans of the
line lie so. What is shown are its pieces in order, and each is shown as it is or with the code for a
colour before it and the code for none after it. -/
theorem highlight_keeps_text (line : List Char) (position : Nat) :
    (∀ found pair, Laid line 0 found → ∃ pieces, piecesFrom? line pair 0 found = some pieces ∧
      pieces.flatMap Piece.text = line) ∧
    Laid line 0 (spans line) ∧
    ∃ pieces, pieces? line position = some pieces ∧ pieces.flatMap Piece.text = line ∧
      highlight line position = pieces.flatMap Piece.render ∧
      ∀ piece ∈ pieces, piece.render = piece.text ∨ ∃ code : String,
        piece.render = "\x1b[".toList ++ code.toList ++ 'm' :: piece.text ++ "\x1b[0m".toList := by
  have hcovers : ∀ found pair, Laid line 0 found → ∃ pieces,
      piecesFrom? line pair 0 found = some pieces ∧ pieces.flatMap Piece.text = line := by
    intro found pair h
    exact h.exists_pieces pair (after?_byteLength [] line)
  refine ⟨hcovers, laid_spans line, ?_⟩
  obtain ⟨pieces, hpieces, htext⟩ := hcovers _ (matchingPair line position) (laid_spans line)
  refine ⟨pieces, hpieces, htext, ?_, ?_⟩
  · rw [highlight, pieces?, hpieces, Option.getD_some]
  · intro piece _
    cases hcolour : piece.colour with
    | none => exact .inl (by rw [Piece.render, hcolour])
    | some colour => exact .inr ⟨colour.code, by rw [Piece.render, hcolour]⟩

/-- A bracket at the cursor, a word, a letter that is no token and a text without its end; and only the
letter as a span. -/
theorem highlight_keeps_text_unclosed :
    let line := "(if é) \"ü".toList
    let letter : List Span := [⟨4, 6, .invalid (.unexpected 'é')⟩]
    Laid line 0 letter ∧ (∃ pieces, piecesFrom? line none 0 letter = some pieces ∧
      pieces.flatMap Piece.text = line) ∧
    ∃ pieces, pieces? line 1 = some pieces ∧ pieces.flatMap Piece.text = line ∧
      pieces.flatMap Piece.render = ("\x1b[1;34m(\x1b[0m\x1b[35mif\x1b[0m \x1b[31mé\x1b[0m" ++
        "\x1b[1;34m)\x1b[0m \x1b[31m\"ü\x1b[0m").toList := by
  intro line letter
  have hlaid : Laid line 0 letter :=
    .cons ⟨[], line, rfl, rfl⟩ (by decide) ⟨['(', 'i', 'f', ' '], _, rfl, rfl⟩ (by decide)
      (.nil ⟨['(', 'i', 'f', ' ', 'é'], _, rfl, rfl⟩)
  obtain ⟨hcovers, -, pieces, hpieces, htext, hshown, -⟩ := highlight_keeps_text line 1
  refine ⟨hlaid, hcovers letter none hlaid, pieces, hpieces, htext, hshown.symm.trans ?_⟩
  decide +kernel

end Abacus.Highlight
