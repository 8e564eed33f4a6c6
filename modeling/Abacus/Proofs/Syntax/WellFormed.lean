import Abacus.Proofs.Syntax.Derivations
import Abacus.Proofs.Syntax.Placement

/-!
# What trees never hold

The type of trees has blocks without statements, conditionals without branches and functions that
name one parameter twice. None of these can be written. A tree is well formed if none of its nodes is
one of them.

**The laws** (`Expr.wellFormed_ofTokens`, `Script.read_wellFormed`): the tree of every statement is
well formed, and so are all trees of a script. By induction on the derivation of the tree: a block
and a function are refused where they are read, and a conditional begins with a branch.
-/

namespace Abacus

namespace Expr

mutual

/-- Blocks have statements, conditionals have branches, and the parameters of a function are
different, in the tree and in all its parts. -/
def WellFormed : Expr → Prop
  | .literal _ _ | .identifier _ _ => True
  | .vector items _ => AllWellFormed items
  | .block body _ => body ≠ [] ∧ AllWellFormed body
  | .conditional branches otherwise _ =>
    branches ≠ [] ∧ BranchesWellFormed branches ∧ otherwise.WellFormed
  | .function parameters body _ => parameters.Nodup ∧ body.WellFormed
  | .call callee arguments _ => callee.WellFormed ∧ AllWellFormed arguments
  | .assign _ value _ _ => value.WellFormed
  | .binary _ left right _ => left.WellFormed ∧ right.WellFormed
  | .unary _ operand _ => operand.WellFormed

/-- All trees of a list are well formed. -/
def AllWellFormed : List Expr → Prop
  | [] => True
  | e :: rest => e.WellFormed ∧ AllWellFormed rest

/-- All conditions and bodies are well formed. -/
def BranchesWellFormed : List (Expr × Expr) → Prop
  | [] => True
  | (condition, body) :: rest =>
    condition.WellFormed ∧ body.WellFormed ∧ BranchesWellFormed rest

end

end Expr

namespace Grammar

/-- What is piped into something well formed is well formed. -/
theorem wellFormed_link {left right : Expr} (hleft : left.WellFormed) (hright : right.WellFormed)
    (arrow : Position) : (link left right arrow).WellFormed := by
  cases right with
  | call callee arguments p => exact ⟨hright.1, hleft, hright.2⟩
  | _ => exact ⟨hright, hleft, trivial⟩

/-- What is read is well formed, if what it goes on from is. -/
def Goal.WellFormed : Goal → Prop
  | .expression e | .assignments _ e | .binary _ e | .chain e | .unary e | .primary e => e.WellFormed
  | .operations _ left e | .links left e | .callSuffix left e => left.WellFormed → e.WellFormed
  | .items _ es | .blockBody es => Expr.AllWellFormed es
  | .branch c body => c.WellFormed ∧ body.WellFormed
  | .furtherBranches branches otherwise =>
    Expr.BranchesWellFormed branches ∧ otherwise.WellFormed
  | .parameters seen names => names.Nodup ∧ ∀ name ∈ names, name ∉ seen
  | .signature names => names.Nodup

/-- **What has a derivation is well formed.** -/
theorem Derives.wellFormed {goal : Goal} {us : List Use} {next : Option TokenKind}
    (h : Derives goal us next) : goal.WellFormed := by
  induction h with
  | localAssignment _ _ ih | assignment _ ih | noAssign _ _ ih | tightest _ ih | noPrefix _ ih
  | prefixed _ _ ih => exact ih
  | assign _ _ _ _ ihvalue => exact ihvalue
  | level _ _ ihleft ihrest | chain _ _ ihleft ihrest => exact ihrest ihleft
  | operation _ _ _ _ ihright ihrest => exact fun hleft => ihrest ⟨hleft, ihright⟩
  | noOperation | noLink | noCall => exact fun hleft => hleft
  | link _ _ _ ihright ihrest => exact fun hleft => ihrest (wellFormed_link hleft ihright _)
  | literal => trivial
  | name _ ih => exact ih trivial
  | group _ _ ihinner ihsuffix => exact ihsuffix ihinner
  | vector _ ih => exact ih
  | block _ _ hne ih => exact ⟨hne, ih⟩
  | conditional _ _ ihbranch ihmore =>
    exact ⟨List.cons_ne_nil _ _, ⟨ihbranch.1, ihbranch.2, ihmore.1⟩, ihmore.2⟩
  | function _ _ _ ihnames ihbody => exact ⟨ihnames, ihbody⟩
  | call _ _ iharguments ihrest => exact fun hcallee => ihrest ⟨hcallee, iharguments⟩
  | noItem | noStatement => trivial
  | item _ _ ihitem ihitems => exact ⟨ihitem, ihitems⟩
  | lastItem _ ih | lastStatement _ ih => exact ⟨ih, trivial⟩
  | statement _ _ _ ihstatement ihmore => exact ⟨ihstatement, ihmore⟩
  | branch _ _ _ ihcondition ihbody => exact ⟨ihcondition, ihbody⟩
  | elifBranch _ _ _ ihbranch ihmore =>
    exact ⟨⟨ihbranch.1, ihbranch.2, ihmore.1⟩, ihmore.2⟩
  | elseBranch _ _ _ ih => exact ⟨trivial, ih⟩
  | parameter hnew _ ih =>
    obtain ⟨hnodup, hseen⟩ := ih
    refine ⟨List.nodup_cons.mpr ⟨fun hmem => hseen _ hmem List.mem_cons_self, hnodup⟩, ?_⟩
    rintro other (_ | ⟨_, hmem⟩)
    · exact hnew
    · exact fun hold => hseen other hmem (List.mem_cons_of_mem _ hold)
  | lastParameter hnew =>
    refine ⟨List.nodup_cons.mpr ⟨List.not_mem_nil, List.nodup_nil⟩, ?_⟩
    intro other hmem
    rwa [List.mem_singleton.mp hmem]
  | noParameters => exact List.nodup_nil
  | someParameters _ ih => exact ih.1

end Grammar

/-- **The tree of a statement is well formed.** -/
theorem Expr.wellFormed_ofTokens {tokens : List Token} {stop : Position} {e : Expr}
    (h : Expr.ofTokens tokens stop = .ok e) : e.WellFormed := by
  obtain ⟨_, -, hderives⟩ := Grammar.derives_of_ofTokens h
  exact hderives.wellFormed

/-- What a statement is read as is well formed. -/
theorem Statement.wellFormed_expr {s : Statement} {e : Expr} (h : s.expr = .ok e) : e.WellFormed := by
  unfold Statement.expr at h
  cases hread : Expr.ofTokens s.tokens s.stop with
  | ok tree =>
    rw [hread] at h
    cases h
    exact Expr.wellFormed_ofTokens hread
  | error error =>
    rw [hread] at h
    cases h

/-- **The trees of a script are well formed**, also those before a fault. -/
theorem Script.read_wellFormed (text : List Char) (origin : Position) :
    ∀ entry ∈ (read text origin).entries, entry.expr.WellFormed := by
  induction text, origin using read.induct with
  | case1 text origin e hfirst =>
    rw [read_of_error hfirst]
    exact fun _ hentry => absurd hentry List.not_mem_nil
  | case2 text origin s hfirst hempty =>
    rw [read_of_first hfirst, begin, if_pos hempty]
    exact fun _ hentry => absurd hentry List.not_mem_nil
  | case3 text origin s hfirst hne e hexpr =>
    rw [read_of_first hfirst, begin, if_neg hne, hexpr]
    exact fun _ hentry => absurd hentry List.not_mem_nil
  | case4 text origin s hfirst hne expr hexpr ih =>
    rw [read_of_first hfirst, begin, if_neg hne, hexpr]
    exact List.forall_mem_cons.mpr ⟨Statement.wellFormed_expr hexpr, ih⟩

end Abacus
