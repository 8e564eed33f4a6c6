import Abacus.Proofs.Syntax.Levels
import Abacus.Proofs.Syntax.Scanning
import Abacus.Syntax.Script
import Mathlib.Control.Monad.Basic

/-!
# Printing and reading back

**The law** (`Expr.Plain.ofText_text`): a plain expression is read back from its printed form, up to
positions.
-/

namespace Abacus

namespace Expr

/-- The printed form of a plain expression is one statement with the expression's tokens. -/
theorem Plain.first_text {e : Expr} (plain : e.Plain) (origin : Position) :
    ∃ s, Statement.first e.text.toList origin = .ok s ∧ s.tokens.map Token.kind = e.kinds ∧
      s.taken = e.text.toList.length := by
  have hscans := plain.scanned.scans Lexeme.delimited_nil scans_nil
  rw [List.append_nil, List.append_nil] at hscans
  obtain ⟨s, hgather, hkinds, htaken⟩ :=
    hscans (LineTable.ofText e.text.toList origin) false [] 0 0 rfl
  exact ⟨s, hgather, hkinds, by rw [htaken, Nat.zero_add]⟩

/-- **A plain expression is read back from its printed form, up to positions.** -/
theorem Plain.ofText_text {e : Expr} (plain : e.Plain) :
    ∃ e', Expr.ofText e.text.toList = .ok e' ∧ e'.bare = e.bare := by
  obtain ⟨s, hfirst, hkinds, htaken⟩ := plain.first_text .start
  obtain ⟨e', hread, he'⟩ := plain.ofTokens hkinds s.stop
  have hnonempty : s.tokens.isEmpty = false := by
    have hpos := plain.length_pos
    rw [← hkinds, List.length_map] at hpos
    exact List.isEmpty_eq_false_iff.mpr (List.ne_nil_of_length_pos hpos)
  have hexpr : s.expr = .ok e' := by
    rw [Statement.expr, hread]
    rfl
  have hdrop : e.text.toList.drop s.taken = [] := by
    rw [htaken, List.drop_length]
  refine ⟨e', ?_, he'⟩
  unfold Expr.ofText
  rw [hfirst]
  simp only [Except.mapError, bind, Except.bind, hnonempty, hexpr, hdrop, Statement.first,
    Statement.gather]
  rfl

/-- A block with a function, a conditional whose body is a vector, and a call of what a call gives. -/
theorem ofText_block_text : ∃ e : Expr, e.Plain ∧
    e.text = "\x7b(f = |x, y| (x + (-y))); if (a < 3) [\"no\", true] else f(1)(2)\x7d" ∧
    ∃ e', Expr.ofText e.text.toList = .ok e' ∧ e'.bare = e.bare := by
  have name {x : String} (hx : IsName x) : (identifier x .start).Closed := .identifier hx
  have number {n : Int64} (hn : 0 ≤ n.toInt) : (literal (.number (.integer n)) .start).Closed :=
    .number hn
  have sum : (binary .add (identifier "x" .start) (unary .neg (identifier "y" .start) .start)
      .start).Closed :=
    .binary (name (by decide)) (.closed (.unary (.closed (name (by decide)))))
  have function : (function ["x", "y"] (binary .add (identifier "x" .start)
      (unary .neg (identifier "y" .start) .start) .start) .start).Plain :=
    .function (by decide) (by decide) (.closed sum)
  have condition : (binary .less (identifier "a" .start) (literal (.number (.integer 3)) .start)
      .start).Closed :=
    .binary (name (by decide)) (.closed (number (by decide)))
  have vector : (vector [literal (.quoted "no") .start, literal (.boolean true) .start]
      .start).Plain :=
    .closed (.vector (by simpa using ⟨.closed (.quoted (by decide)), .closed .boolean⟩))
  have call : (call (call (identifier "f" .start) [literal (.number (.integer 1)) .start] .start)
      [literal (.number (.integer 2)) .start] .start).Closed :=
    .call trivial (.call trivial (name (by decide)) (by simpa using .closed (number (by decide))))
      (by simpa using .closed (number (by decide)))
  have branch {l r b : Expr} (hc : (Expr.binary .less l r .start).Closed) (hbody : b.Plain) :
      (conditional [(.binary .less l r .start, b)] (.call (.call (identifier "f" .start)
        [literal (.number (.integer 1)) .start] .start)
        [literal (.number (.integer 2)) .start] .start) .start).Plain :=
    .conditional (List.cons_ne_nil _ _) (by simp [IsBracketed]) (by simpa using hc)
      (by simpa using hbody) (.closed call)
  have assigned {value : Expr} (hvalue : value.Plain) : (assign "f" value false .start).Plain :=
    .closed (.assign (by decide) hvalue)
  have both {e₁ e₂ : Expr} (h₁ : e₁.Plain) (h₂ : e₂.Plain) : (block [e₁, e₂] .start).Plain :=
    .closed (.block (List.cons_ne_nil _ _) (by simpa using ⟨h₁, h₂⟩))
  have plain := both (assigned function) (branch condition vector)
  exact ⟨_, plain, by decide, plain.ofText_text⟩

end Expr

end Abacus
