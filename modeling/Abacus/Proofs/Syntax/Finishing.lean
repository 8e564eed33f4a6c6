import Abacus.Proofs.Syntax.Rounds
import Abacus.Proofs.Syntax.Runs

/-!
# The grammar finishes inside the tokens

Tokens may come in any order: with brackets that are never closed, or in the middle of a statement.
Whatever they are, a reading comes to an end, moves on with every expression that it reads, and does
not look beyond the last token.

**The law** (`finishes_inside`): a budget of more than the number of tokens is never used up and makes
no difference to the outcome; what a rule of any level reads, from anywhere in some tokens, leaves off
further on and not beyond their end; and a watch that is silent where a look ahead is one at the last
of the tokens, and where a loop that goes into another round has taken a token, is silent throughout.
The second part follows from derivations, which are not empty, and holds with every budget. The others
follow from the agreement of readings (`agree_expression`).
-/

namespace Abacus

namespace Grammar

/-! ## What is read is not empty -/

/-- Tokens have to be taken to reach the goal. What may follow an operand, and may be absent, is no
such goal. -/
def Goal.Takes : Goal → Prop
  | .operations .. | .links .. | .callSuffix .. => False
  | _ => True

/-- A goal that takes something is not derived from nothing. -/
theorem Derives.ne_nil {goal : Goal} {us : List Use} {next : Option TokenKind}
    (h : Derives goal us next) (hgoal : goal.Takes) : us ≠ [] := by
  induction h with
  | assignment _ ih | noAssign _ _ ih | tightest _ ih | noPrefix _ ih | someParameters _ ih =>
    exact ih trivial
  | level _ _ ih _ | chain _ _ ih _ => exact List.append_ne_nil_of_left_ne_nil (ih trivial) _
  | noOperation _ | noLink _ | noCall _ => exact hgoal.elim
  | _ => simp

/-- From anywhere in some tokens, what the rule reads leaves off further on, and not beyond their
end. -/
def Rule.Advances {α : Type} (rule : Rule α) : Prop :=
  ∀ (stop : Position) (tokens : List Token) (current : Nat) (a : α) (rest : List Token),
    current ≤ tokens.length → rule stop (tokens.drop current) = .read a rest →
      ∃ later, current < later ∧ later ≤ tokens.length ∧ rest = tokens.drop later

/-- A rule with such goals takes a token. -/
theorem Rule.Derives.advances {α : Type} {rule : Rule α} {goal : α → Goal}
    (h : rule.Derives goal) (hgoal : ∀ a, (goal a).Takes) : rule.Advances := by
  intro stop tokens current a rest hcurrent hread
  obtain ⟨us, hus, hderives⟩ := h stop _ a rest hread
  have htaken : 0 < us.length := List.length_pos_iff.mpr (hderives.ne_nil (hgoal a))
  have hlength := congrArg List.length hus
  rw [List.length_drop, List.length_append, List.length_map] at hlength
  refine ⟨current + us.length, by omega, by omega, ?_⟩
  rw [← List.drop_drop, hus, ← List.length_map Use.token, List.drop_left]

/-- Every level of the grammar moves on when it reads, from assignments to primaries. -/
theorem advances_levels (budget : Nat) :
    (expression budget).Advances ∧
      (∀ isLocal rounds, (assignments (binaryOf budget BinaryOp.levels) isLocal rounds).Advances) ∧
      (∀ levels, (binaryOf budget levels).Advances) ∧
      (∀ rounds, (unary (primaryOf budget) rounds).Advances) ∧ (primaryOf budget).Advances := by
  have hprimary := derives_primary (derives_expression budget) (budget + 1)
  have hbinary := derives_binary (derives_chain hprimary (budget + 1)) (budget + 1)
  refine ⟨(derives_expression budget).advances fun _ => trivial, fun isLocal rounds => ?_,
    fun levels => (hbinary levels).advances fun _ => trivial, fun rounds => ?_,
    hprimary.advances fun _ => trivial⟩
  · exact (derives_assignments (hbinary BinaryOp.levels) isLocal rounds).advances fun _ => trivial
  · exact (derives_unary hprimary rounds).advances fun _ => trivial

/-! ## The law -/

/-- **Where all is fine, a watch that is silent there is not noticed at all.** -/
theorem ofTokens_under_watch {watch : Watch} {tokens : List Token}
    (hwatch : watch.SilentWhere (Site.Fine tokens)) (stop : Position) :
    Watched.ofTokens watch tokens stop = some (Expr.ofTokens tokens stop) := by
  have hagree := agree_expression hwatch (tokens.length + 1) (tokens.length + 1) stop
    List.suffix_rfl (by omega)
  unfold Watched.ofTokens Expr.ofTokens
  generalize expression (tokens.length + 1) stop tokens = o at hagree
  generalize Watched.expression watch (tokens.length + 1) stop tokens = o' at hagree
  cases hagree with
  | @read e rest =>
    cases rest with
    | nil => rfl
    | cons token rest => rfl
  | refused => rfl

/-- A budget of more than the number of tokens will do, and any such budget. -/
theorem expression_of_length_lt (tokens : List Token) (stop : Position) (budget : Nat)
    (hbudget : tokens.length < budget) :
    expression budget stop tokens = expression (tokens.length + 1) stop tokens ∧
      expression budget stop tokens ≠ .exhausted := by
  have hsilent : Watch.SilentWhere (fun _ => Rule.pure ()) (Site.Fine tokens) := fun _ _ _ _ => rfl
  -- both budgets are compared with the same one, under a watch that is silent everywhere
  have hgiven := agree_expression hsilent budget (tokens.length + 1) stop List.suffix_rfl (by omega)
  have hleast := agree_expression hsilent (tokens.length + 1) (tokens.length + 1) stop
    List.suffix_rfl (by omega)
  exact ⟨hgiven.eq.trans hleast.eq.symm, hgiven.ne_exhausted⟩

/-- **A reading ends, moves on with all that it reads, and stays inside the tokens.** -/
theorem finishes_inside (tokens : List Token) (stop : Position) :
    (∀ budget, tokens.length < budget →
      expression budget stop tokens = expression (tokens.length + 1) stop tokens ∧
        expression budget stop tokens ≠ .exhausted) ∧
      (∀ budget, (expression budget).Advances ∧
        (∀ isLocal rounds, (assignments (binaryOf budget BinaryOp.levels) isLocal rounds).Advances) ∧
        (∀ levels, (binaryOf budget levels).Advances) ∧
        (∀ rounds, (unary (primaryOf budget) rounds).Advances) ∧ (primaryOf budget).Advances) ∧
      ∀ watch : Watch, watch.SilentWhere (Site.Within tokens) →
        Watched.ofTokens watch tokens stop = some (Expr.ofTokens tokens stop) := by
  refine ⟨expression_of_length_lt tokens stop, advances_levels, fun watch hwatch => ?_⟩
  exact ofTokens_under_watch (hwatch.mono fun _ _ hfine => hfine.2) stop

/-- A bracket that is never closed, and a conditional that ends before its last branch. -/
theorem finishes_inside_truncated :
    let tokens : List Token :=
      [.opening .square, .identifier "a", .comma, .keyword .ifWord, .opening .round,
        .identifier "b", .closing .round, .identifier "f", .opening .round, .identifier "c",
        .closing .round, .newline].map fun kind => ⟨kind, .start⟩
    let stop : Position := ⟨20, 1, 21⟩
    let watch := Watch.alarm (Site.Within tokens)
    tokens.length < 20 ∧ expression 20 stop tokens = .refused (.missing .elseWord stop) ∧
      watch.SilentWhere (Site.Within tokens) ∧
      Watched.ofTokens watch tokens stop = some (.error (.missing .elseWord stop)) ∧
      ∃ e rest later, primaryOf 12 stop (tokens.drop 7) = .read e rest ∧
        7 < later ∧ later ≤ tokens.length ∧ rest = tokens.drop later := by
  intro tokens stop watch
  obtain ⟨hbudget, hadvances, hwatch⟩ := finishes_inside tokens stop
  have hlength : tokens.length < 20 := by decide
  have hleast : expression (tokens.length + 1) stop tokens = .refused (.missing .elseWord stop) := rfl
  have hread : Expr.ofTokens tokens stop = .error (.missing .elseWord stop) := rfl
  have hsilent := Watch.silentWhere_alarm (Site.Within tokens)
  have hprimary : primaryOf 12 stop (tokens.drop 7) = .read
      (.call (.identifier "f" .start) [.identifier "c" .start] .start) (tokens.drop 11) := rfl
  have hmoved := (hadvances 12).2.2.2.2 stop tokens 7 _ _ (by decide) hprimary
  obtain ⟨later, hlater⟩ := hmoved
  exact ⟨hlength, (hbudget 20 hlength).1.trans hleast, hsilent,
    (hwatch watch hsilent).trans (congrArg some hread), _, _, later, hprimary, hlater⟩

/-- The sites are there: a watch that ends the reading at them shows. -/
example :
    let tokens : List Token :=
      [.opening .round, .identifier "a", .arrow, .identifier "b", .newline].map fun kind =>
        ⟨kind, .start⟩
    let tokens' : List Token :=
      [.keyword .ifWord, .opening .round, .identifier "a", .closing .round, .identifier "b"].map
        fun kind => ⟨kind, .start⟩
    Watched.ofTokens (fun | .again _ => exhausted | _ => .pure ()) tokens .start = none ∧
      Watched.ofTokens (fun | .lookahead => exhausted | _ => .pure ()) tokens' .start = none ∧
      Watched.ofTokens (fun | .missing => exhausted | _ => .pure ()) tokens' .start = none :=
  ⟨rfl, rfl, rfl⟩

end Grammar

end Abacus
