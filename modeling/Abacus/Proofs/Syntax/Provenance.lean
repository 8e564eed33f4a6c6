import Abacus.Proofs.Syntax.Finishing
import Abacus.Proofs.Syntax.Placement

/-!
# Where the positions of a statement come from

Every position in a tree or a refusal is copied: from a token of the statement, or from its end. The
call that a chain stands for has the position of what it calls or of the arrow, and a call that is
written out that of its callee; a token that is refused after a look past line feeds, or after it has
been taken, is one of the statement's all the same. Only what is missing is said to be missing at the
end, and then nothing is left but line feeds, in front of which a conditional may break off.

**The law** (`Expr.ofTokens_provenance`): all nodes of what is read stand at tokens; a token that is
refused is one of the statement's, of its kind and at its position; a misuse is that of a token; and
something is missing at the end of the statement, which is found only where no token is left but line
feeds. The last part is said of the grammar under watch, since a refusal does not show what is left.
-/

namespace Abacus

open Grammar

namespace Expr

/-- **All positions come from the tokens, or from the end of the statement if something is missing
there.** -/
theorem ofTokens_provenance (tokens : List Token) (stop : Position) :
    (∀ e, ofTokens tokens stop = .ok e → e.Placed fun p => ∃ token ∈ tokens, token.position = p) ∧
      (∀ found expected p, ofTokens tokens stop = .error (.unexpected found expected p) →
        ⟨found, p⟩ ∈ tokens) ∧
      (∀ misuse p, ofTokens tokens stop = .error (.invalid misuse p) →
        ∃ token ∈ tokens, token.position = p) ∧
      (∀ expected p, ofTokens tokens stop = .error (.missing expected p) → p = stop) ∧
      ∀ watch : Watch, watch.SilentWhere Site.Spent →
        Watched.ofTokens watch tokens stop = some (ofTokens tokens stop) := by
  obtain ⟨hread, hrefused⟩ := @ofTokens_known (· ∈ tokens) tokens stop fun _ htoken => htoken
  refine ⟨hread, fun _ _ _ h => hrefused _ h, fun _ _ h => hrefused _ h, fun _ _ h => hrefused _ h, ?_⟩
  intro watch hwatch
  exact ofTokens_under_watch (hwatch.mono fun _ _ hfine => hfine.1) stop

/-- A chain, a misuse, and two conditionals that break off: in front of a line feed and another
token, and in front of line feeds alone, where an alarm is not raised. -/
theorem ofTokens_provenance_broken_off :
    let placed (column : Nat) (kind : TokenKind) : Token := ⟨kind, ⟨column - 1, 1, column⟩⟩
    let chain := [placed 1 (.identifier "a"), placed 3 .arrow, placed 6 (.identifier "f"),
      placed 7 (.opening .round), placed 8 (.identifier "b"), placed 9 (.closing .round)]
    let misused := [placed 1 (.keyword .localWord), placed 7 (.identifier "a")]
    let spent := [placed 1 (.keyword .ifWord), placed 4 (.opening .round), placed 5 (.identifier "a"),
      placed 6 (.closing .round), placed 8 (.identifier "b"), placed 9 .newline]
    let refused := spent ++ [placed 10 (.identifier "c")]
    let stop : Position := ⟨20, 2, 11⟩
    let alarm := Watch.alarm Site.Spent
    (∃ e, ofTokens chain stop = .ok e ∧ e.Placed fun p => ∃ token ∈ chain, token.position = p) ∧
      (∃ p, ofTokens misused stop = .error (.invalid .localWithoutAssignment p) ∧
        ∃ token ∈ misused, token.position = p) ∧
      (∃ found p, ofTokens refused stop = .error (.unexpected found .elifOrElse p) ∧
        ⟨found, p⟩ ∈ refused) ∧
      ∃ p, ofTokens spent stop = .error (.missing .elseWord p) ∧ p = stop ∧
        alarm.SilentWhere Site.Spent ∧
          Watched.ofTokens alarm spent stop = some (ofTokens spent stop) := by
  intro placed chain misused spent refused stop alarm
  have hchain : ofTokens chain stop = .ok (.call (.identifier "f" ⟨5, 1, 6⟩)
      [.identifier "a" ⟨0, 1, 1⟩, .identifier "b" ⟨7, 1, 8⟩] ⟨5, 1, 6⟩) := rfl
  have hmisused : ofTokens misused stop =
      .error (.invalid .localWithoutAssignment ⟨0, 1, 1⟩) := rfl
  have hrefused : ofTokens refused stop =
      .error (.unexpected (.identifier "c") .elifOrElse ⟨9, 1, 10⟩) := rfl
  have hspent : ofTokens spent stop = .error (.missing .elseWord stop) := rfl
  have hsilent := Watch.silentWhere_alarm Site.Spent
  obtain ⟨-, -, -, hmissing, hwatch⟩ := ofTokens_provenance spent stop
  exact ⟨⟨_, hchain, (ofTokens_provenance chain stop).1 _ hchain⟩,
    ⟨_, hmisused, (ofTokens_provenance misused stop).2.2.1 _ _ hmisused⟩,
    ⟨_, _, hrefused, (ofTokens_provenance refused stop).2.1 _ _ _ hrefused⟩,
    _, hspent, hmissing _ _ hspent, hsilent, hwatch _ hsilent⟩

end Expr

end Abacus
