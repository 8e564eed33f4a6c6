import Abacus.Proofs.Store.Reserved

/-!
# The word `local`

The grammar takes the word `local` before it knows what follows, reads an expression with it in mind,
and then looks whether the outcome is an assignment. Every level of the grammar but the first hands on
an assignment only if it stands in brackets, and what stands in brackets is read anew, with no `local`
in mind. So `local (x = 2)` passes the test and is an assignment like any other.

**The law** (`Expr.local_binds`): what is read after `local` is an assignment; it is a local one, or
the brackets that follow the word hold it; and a local one binds its name in the scope where it
stands, and changes no other scope once its value is there.
-/

namespace Abacus

namespace Grammar

variable {α β : Type} {stop : Position} {ts : List Token}

/-! ## What a rule gives -/

/-- Whatever the rule reads from these tokens, and what it leaves of them, is so. -/
def Rule.Gives (rule : Rule α) (stop : Position) (ts : List Token) (good : α → List Token → Prop) :
    Prop :=
  ∀ a rest, rule stop ts = .read a rest → good a rest

namespace Rule.Gives

variable {rule : Rule α} {good good' : α → List Token → Prop}

/-- What a rule reads is what it reads. -/
theorem self : rule.Gives stop ts fun a rest => rule stop ts = .read a rest :=
  fun _ _ h => h

/-- Nothing is said of what is read. -/
theorem any : rule.Gives stop ts fun _ _ => True := fun _ _ _ => trivial

/-- What is read may be said more weakly. -/
theorem imp (h : rule.Gives stop ts good) (himp : ∀ a rest, good a rest → good' a rest) :
    rule.Gives stop ts good' :=
  fun a rest hread => himp a rest (h a rest hread)

/-- To give a value leaves the tokens. -/
theorem pure {a : α} (h : good a ts) : Rule.Gives (Pure.pure a) stop ts good := by
  intro a' rest hread
  cases hread
  exact h

/-- **What two rules give one after the other.** -/
theorem bind {next : α → Rule β} {fine : β → List Token → Prop} (h : rule.Gives stop ts good)
    (hnext : ∀ a rest, good a rest → (next a).Gives stop rest fine) :
    (rule >>= next).Gives stop ts fine := by
  intro b rest' hread
  change Rule.bind rule next stop ts = _ at hread
  unfold Rule.bind at hread
  cases hfirst : rule stop ts with
  | read a rest =>
    rw [hfirst] at hread
    exact hnext a rest (h a rest hfirst) b rest' hread
  | refused error =>
    rw [hfirst] at hread
    cases hread
  | exhausted =>
    rw [hfirst] at hread
    cases hread

/-- A refusal reads nothing, so that anything may be said of it. -/
theorem refuse {error : ParseError} : (Grammar.refuse error : Rule α).Gives stop ts good :=
  fun _ _ h => nomatch h

/-- Nothing comes after a refusal. -/
theorem refuse_bind {error : ParseError} {rest : β → Rule α} :
    (Grammar.refuse error >>= rest).Gives stop ts good :=
  fun _ _ h => nomatch h

/-- Nor is anything read where something is missing. -/
theorem missing {expected : Expected} : (Grammar.missing expected : Rule α).Gives stop ts good :=
  fun _ _ h => nomatch h

/-- Nor without budget. -/
theorem exhausted : (Grammar.exhausted : Rule α).Gives stop ts good :=
  fun _ _ h => nomatch h

end Rule.Gives

open Rule (Gives)

/-- A token of the kind is taken if it is next, and only then. -/
theorem gives_accept {kind : TokenKind} : (accept kind).Gives stop ts fun found rest =>
    (∃ token, found = some token ∧ token.kind = kind ∧ ts = token :: rest) ∨
      found = none ∧ rest = ts ∧ ts.head?.map Token.kind ≠ some kind := by
  intro found rest hread
  unfold accept at hread
  split at hread
  · next token more =>
    split at hread
    · next hkind =>
      cases hread
      exact .inl ⟨token, rfl, hkind, rfl⟩
    · next hkind =>
      cases hread
      exact .inr ⟨rfl, rfl, fun hhead => hkind (Option.some.inj hhead)⟩
  · cases hread
    exact .inr ⟨rfl, rfl, fun hhead => nomatch hhead⟩

/-- A token that is expected was next. -/
theorem gives_expect {kind : TokenKind} {expected : Expected} :
    (expect kind expected).Gives stop ts fun _ rest =>
      ∃ token, token.kind = kind ∧ ts = token :: rest := by
  refine gives_accept.bind fun found rest hfound => ?_
  rcases hfound with ⟨token, rfl, hkind, hts⟩ | ⟨rfl, -, -⟩
  · exact .pure ⟨token, hkind, hts⟩
  · refine Gives.any.bind fun found _ _ => ?_
    cases found with
    | some token => exact .refuse
    | none => exact .missing

/-- To look at the next token leaves it. -/
theorem gives_peek : peek.Gives stop ts fun found rest => found = ts.head? ∧ rest = ts := by
  intro found rest hread
  cases hread
  exact ⟨rfl, rfl⟩

/-- To take it leaves the others. -/
theorem gives_next : next.Gives stop ts fun found rest => found = ts.head? ∧ rest = ts.tail := by
  intro found rest hread
  cases hread
  exact ⟨rfl, rfl⟩

/-! ## Where an assignment is read -/

section Levels

variable {part operand : Rule Expr} {left callee : Expr} {levels : Nat}

/-- An assignment that the rule reads is the one that it was given, with no token read. -/
def Rule.Hands (rule : Expr → Rule Expr) : Prop :=
  ∀ (left : Expr) (stop : Position) (ts : List Token),
    (rule left).Gives stop ts fun e rest => isAssignment e → e = left ∧ rest = ts

/-- Argument lists make calls. -/
theorem hands_callSuffix (budget : Nat) : Rule.Hands (callSuffix part budget) := by
  induction budget with
  | zero => exact fun _ _ _ => .exhausted
  | succ budget ih =>
    intro callee stop ts
    refine gives_accept.bind fun found rest hfound => ?_
    rcases hfound with ⟨token, rfl, -, -⟩ | ⟨rfl, rfl, -⟩
    · refine Gives.any.bind fun arguments rest _ => ?_
      refine (ih (.call callee arguments callee.position) stop rest).imp fun e _ h he => ?_
      obtain ⟨rfl, -⟩ := h he
      cases he
    · exact .pure fun _ => ⟨rfl, rfl⟩

/-- What is piped is no assignment. -/
theorem isAssignment_link (left right : Expr) (arrow : Position) :
    isAssignment (link left right arrow) = false := by
  cases right <;> rfl

/-- Chains make calls. -/
theorem hands_links (budget : Nat) : Rule.Hands (links operand budget) := by
  induction budget with
  | zero => exact fun _ _ _ => .exhausted
  | succ budget ih =>
    intro left stop ts
    refine gives_accept.bind fun found rest hfound => ?_
    rcases hfound with ⟨token, rfl, -, -⟩ | ⟨rfl, rfl, -⟩
    · refine Gives.any.bind fun _ _ _ => Gives.any.bind fun right rest _ => ?_
      refine (ih (link left right token.position) stop rest).imp fun e _ h he => ?_
      obtain ⟨rfl, -⟩ := h he
      rw [isAssignment_link] at he
      cases he
    · exact .pure fun _ => ⟨rfl, rfl⟩

/-- Binary operators make binary nodes. -/
theorem hands_operations (level budget : Nat) : Rule.Hands (operations operand level budget) := by
  induction budget with
  | zero => exact fun _ _ _ => .exhausted
  | succ budget ih =>
    intro left stop ts
    refine gives_peek.bind fun found rest hfound => ?_
    obtain ⟨-, rfl⟩ := hfound
    cases found with
    | none => exact .pure fun _ => ⟨rfl, rfl⟩
    | some token =>
      dsimp only
      split
      · next op _ =>
        refine Gives.any.bind fun _ _ _ => Gives.any.bind fun _ _ _ => ?_
        refine Gives.any.bind fun right rest _ => ?_
        refine (ih (.binary op left right token.position) stop rest).imp fun e _ h he => ?_
        obtain ⟨rfl, -⟩ := h he
        cases he
      · exact .pure fun _ => ⟨rfl, rfl⟩

/-- A rule that reads an assignment only where the inner rule reads it. -/
def Rule.Within (outer inner : Rule Expr) : Prop :=
  ∀ (stop : Position) (ts : List Token),
    outer.Gives stop ts fun e rest => isAssignment e → inner stop ts = .read e rest

/-- A rule that reads further from what another has read keeps within what that one keeps within. -/
theorem Rule.Hands.within {rule : Expr → Rule Expr} {first inner : Rule Expr}
    (hrule : Rule.Hands rule) (hfirst : first.Within inner) : (first >>= rule).Within inner := by
  intro stop ts
  refine (hfirst stop ts).bind fun left rest hleft => ?_
  refine (hrule left stop rest).imp fun e rest' h he => ?_
  obtain ⟨rfl, rfl⟩ := h he
  exact hleft he

/-- The levels of operators hand a single operand on as it is. -/
theorem within_binary (budget : Nat) : ∀ levels, (binary operand budget levels).Within operand
  | 0 => fun _ _ _ _ hread _ => hread
  | levels + 1 => (hands_operations _ budget).within (within_binary budget levels)

/-- An operand without prefixes is handed on as it is. -/
theorem within_unary : ∀ budget, (unary operand budget).Within operand
  | 0 => fun _ _ => .exhausted
  | budget + 1 => by
    intro stop ts
    refine gives_peek.bind fun found rest hfound => ?_
    obtain ⟨-, rfl⟩ := hfound
    cases found with
    | none => exact Gives.self.imp fun _ _ hread _ => hread
    | some token =>
      dsimp only
      split
      · refine Gives.any.bind fun _ _ _ => Gives.any.bind fun _ _ _ => .pure fun he => ?_
        cases he
      · exact Gives.self.imp fun _ _ hread _ => hread

/-- So is one without links. -/
theorem within_chain (budget : Nat) : (chain operand budget).Within operand :=
  (hands_links budget).within (within_unary budget)

/-- The tokens before the rest are an expression in brackets. -/
def Bracketed (part : Rule Expr) (stop : Position) (ts : List Token) (e : Expr)
    (rest : List Token) : Prop :=
  ∃ opening inner closing, opening.kind = .opening .round ∧ closing.kind = .closing .round ∧
    ts = opening :: inner ∧ part stop inner = .read e (closing :: rest)

/-- The nodes that keyword and bracket rules make are no assignments. -/
def Rule.Plain (rule : Rule Expr) : Prop :=
  ∀ (stop : Position) (ts : List Token), rule.Gives stop ts fun e _ => isAssignment e = false

/-- A block is no assignment. -/
theorem plain_block (budget : Nat) (p : Position) : (block part budget p).Plain := by
  intro stop ts
  refine Gives.any.bind fun _ _ _ => Gives.any.bind fun body _ _ => ?_
  dsimp only
  split
  · exact .refuse_bind
  · exact .pure rfl

/-- Nor is a conditional. -/
theorem plain_conditional (budget : Nat) (p : Position) : (conditional part budget p).Plain :=
  fun _ _ => Gives.any.bind fun _ _ _ => Gives.any.bind fun _ _ _ =>
    Gives.any.bind fun _ _ _ => .pure rfl

/-- Nor is a function. -/
theorem plain_function (budget : Nat) (p : Position) : (function part budget p).Plain := by
  have hbody : ∀ names : List String, (do
      skipNewlines
      return .function names (← part) p : Rule Expr).Plain :=
    fun _ _ _ => Gives.any.bind fun _ _ _ => Gives.any.bind fun _ _ _ => .pure rfl
  intro stop ts
  refine Gives.any.bind fun found rest _ => ?_
  dsimp only
  split
  · exact hbody [] stop rest
  · exact Gives.any.bind fun names rest _ => hbody names stop rest

/-- **A primary that is an assignment stands in brackets.** -/
theorem gives_primary (part : Rule Expr) (budget : Nat) (stop : Position) (ts : List Token) :
    (primary part budget).Gives stop ts fun e rest =>
      isAssignment e → Bracketed part stop ts e rest := by
  have other : ∀ {e : Expr} {rest : List Token}, isAssignment e = false →
      isAssignment e → Bracketed part stop ts e rest :=
    fun hno he => Bool.noConfusion (hno.symm.trans he)
  refine gives_next.bind fun found rest hfound => ?_
  obtain ⟨hhead, rfl⟩ := hfound
  cases ts with
  | nil =>
    subst hhead
    exact .missing
  | cons token inner =>
    subst hhead
    dsimp only [List.head?_cons, List.tail_cons]
    split
    · exact .pure (other rfl)
    · exact .pure (other rfl)
    · exact .pure (other rfl)
    · exact .pure (other rfl)
    · next name _ =>
      refine (hands_callSuffix budget (.identifier name token.position) stop inner).imp ?_
      intro e _ h he
      obtain ⟨rfl, -⟩ := h he
      cases he
    · next hround =>
      refine Gives.self.bind fun e rest hread => gives_expect.bind fun _ rest' hexpect => ?_
      obtain ⟨closing, hclosing, rfl⟩ := hexpect
      refine (hands_callSuffix budget e stop rest').imp fun e' rest'' h he => ?_
      obtain ⟨rfl, rfl⟩ := h he
      exact ⟨token, inner, closing, hround, hclosing, rfl, hread⟩
    · exact Gives.any.bind fun _ _ _ => .pure (other rfl)
    · exact (plain_block budget _ stop inner).imp fun _ _ => other
    · exact (plain_conditional budget _ stop inner).imp fun _ _ => other
    · exact (plain_function budget _ stop inner).imp fun _ _ => other
    · exact .refuse

/-- An assignment is made of a name and a sign, or it is what the operands' rule reads. -/
theorem gives_assignments (isLocal : Bool) (budget : Nat) (stop : Position) (ts : List Token) :
    (assignments operand isLocal budget).Gives stop ts fun e rest =>
      (∃ name value p, e = .assign name value isLocal p) ∨ operand stop ts = .read e rest := by
  cases budget with
  | zero => exact .exhausted
  | succ budget =>
    refine Gives.self.bind fun target rest htarget => gives_accept.bind fun found rest' hfound => ?_
    rcases hfound with ⟨token, rfl, -, -⟩ | ⟨rfl, rfl, -⟩
    · refine Gives.any.bind fun _ _ _ => ?_
      cases target with
      | identifier name p => exact Gives.any.bind fun value _ _ => .pure (.inl ⟨name, value, p, rfl⟩)
      | _ => exact .refuse
    · exact .pure (.inr htarget)

/-- **What is read after `local`** is a local assignment, or an assignment in the brackets that
follow the word. -/
theorem gives_local (part : Rule Expr) (budget : Nat) {word : Token}
    (hword : word.kind = .keyword .localWord) :
    (assignment (binary (chain (primary part budget) budget) budget levels) budget).Gives stop
      (word :: ts) fun e rest => ∃ name value isLocal p, e = .assign name value isLocal p ∧
        (isLocal = true ∨ Bracketed part stop ts e rest) := by
  unfold assignment
  refine gives_accept.bind fun found rest hfound => ?_
  rcases hfound with ⟨token, rfl, -, hts⟩ | ⟨-, -, hhead⟩
  · cases hts
    refine (gives_assignments true _ stop ts).bind fun e rest he => ?_
    split
    · next hassignment =>
      refine .pure ?_
      rcases he with ⟨name, value, p, rfl⟩ | hread
      · exact ⟨name, value, true, p, rfl, .inl rfl⟩
      · have hprimary := within_chain _ stop ts e rest
          (within_binary _ _ stop ts e rest hread hassignment) hassignment
        have hbracketed := gives_primary _ _ stop ts e rest hprimary hassignment
        cases e with
        | assign name value isLocal p => exact ⟨name, value, isLocal, p, rfl, .inr hbracketed⟩
        | _ => cases hassignment
    · exact .refuse
  · exact absurd (congrArg some hword) hhead

end Levels

end Grammar

/-! ## What a local assignment does -/

namespace Action

variable {s s' : Store} {here : ScopeId} {name : String} {value : Expr} {p : Position} {v : Value}

/-- A name that is not reserved may be assigned to, and the check changes nothing. -/
theorem checkAssignable_ok (h : s.isReserved here name = false) :
    checkAssignable here name p s = .ok () s := by
  simp [checkAssignable, ofName, Store.checkAssignable, h]

/-- A name that passes the check is not reserved. -/
theorem of_checkAssignable {u : Unit} (h : checkAssignable here name p s = .ok u s') :
    s.isReserved here name = false ∧ s' = s := by
  unfold checkAssignable ofName Store.checkAssignable at h
  by_cases hreserved : s.isReserved here name
  · simp [hreserved] at h
  · simp only [hreserved, Bool.false_eq_true, if_false, EStateM.Result.ok.injEq] at h
    exact ⟨Bool.eq_false_iff.mpr hreserved, h.2.symm⟩

/-- A local assignment binds its name in the scope where it stands. -/
theorem bindName_local (h : s.isReserved here name = false) :
    bindName (·.assignPlace here name true) name v p s = .ok ⟨⟩ (s.bindName here name v) := by
  have hplace : ofName (·.assignPlace here name true) p s = .ok here s := by
    simp [ofName, Store.assignPlace, Store.checkAssignable, h, bind, Except.bind, pure, Except.pure]
  rw [bindName, bind_ok hplace]
  rfl

/-- An evaluation opens scopes and binds names, but it changes no list of reserved names. -/
theorem isReserved_evaluate (hs : s.Reached) (hhere : here.index < s.scopes.size) {fuel : Nat}
    (h : evaluate (apply fuel) value here s = .ok v s') :
    here.index < s'.scopes.size ∧ ∀ name, s'.isReserved here name = s.isReserved here name := by
  have hgrown := (hs.ready.path_evaluate ⟨trivial, hhere⟩ fuel value).grown
  have hreached := hs.evaluate hhere fuel value
  rw [h] at hgrown hreached
  have hlt : here.index < s'.scopes.size := Nat.lt_of_lt_of_le hhere hgrown.scopes
  have hreserved : (s'.scope here).reserved = (s.scope here).reserved :=
    (hreached.guarded.reserved hlt).trans (hs.guarded.reserved hhere).symm
  exact ⟨hlt, fun name => by rw [Store.isReserved, hreserved]; rfl⟩

/-- **A local assignment has a value** exactly if its name is free and its right side has that value,
and all that it does after that is to bind the name where it stands. -/
theorem evaluate_local_iff (hs : s.Reached) (hhere : here.index < s.scopes.size) (fuel : Nat) :
    evaluate (apply fuel) (.assign name value true p) here s = .ok v s' ↔
      s.isReserved here name = false ∧
        ∃ s₁, evaluate (apply fuel) value here s = .ok v s₁ ∧ s' = s₁.bindName here name v := by
  rw [evaluate]
  constructor
  · intro h
    obtain ⟨_, s₀, hcheck, hrest⟩ := of_bind_ok h
    obtain ⟨hfree, rfl⟩ := of_checkAssignable hcheck
    obtain ⟨w, s₁, hvalue, hbind⟩ := of_bind_ok hrest
    obtain ⟨-, hreserved⟩ := isReserved_evaluate hs hhere hvalue
    rw [bind_ok (bindName_local ((hreserved name).trans hfree))] at hbind
    cases hbind
    exact ⟨hfree, s₁, hvalue, rfl⟩
  · rintro ⟨hfree, s₁, hvalue, rfl⟩
    obtain ⟨-, hreserved⟩ := isReserved_evaluate hs hhere hvalue
    rw [bind_ok (checkAssignable_ok hfree), bind_ok hvalue,
      bind_ok (bindName_local ((hreserved name).trans hfree))]
    rfl

end Action

namespace Expr

open Abacus.Action

/-- **What is read after `local` is an assignment**, and it is a local one unless brackets that follow
the word hold all of it. A local one has the value of its right side if its name is free; it binds the
name to that in the scope where it stands, and changes nothing else in any scope. -/
theorem local_binds {word : Token} {ts : List Token} {stop : Position} {e : Expr}
    (hword : word.kind = .keyword .localWord) (h : ofTokens (word :: ts) stop = .ok e) :
    ∃ name value isLocal p, e = .assign name value isLocal p ∧
      (isLocal = true ∨ Grammar.Bracketed (Grammar.expression (ts.length + 1)) stop ts e []) ∧
      (isLocal = true → ∀ (fuel : Nat) {s : Store} {here : ScopeId}, s.Reached →
        here.index < s.scopes.size →
        (∀ {v s₁}, s.isReserved here name = false →
          evaluate (apply fuel) value here s = .ok v s₁ →
            ∃ s', evaluate (apply fuel) e here s = .ok v s') ∧
        ∀ {v s'}, evaluate (apply fuel) e here s = .ok v s' →
          ∃ s₁, evaluate (apply fuel) value here s = .ok v s₁ ∧
            (s'.scope here).get? name = some v ∧
            (∀ other ≠ name, (s'.scope here).get? other = (s₁.scope here).get? other) ∧
            ∀ id ≠ here, s'.scope id = s₁.scope id) := by
  obtain ⟨name, value, isLocal, p, rfl, hwhere⟩ :
      ∃ name value isLocal p, e = .assign name value isLocal p ∧
        (isLocal = true ∨ Grammar.Bracketed (Grammar.expression (ts.length + 1)) stop ts e []) := by
    unfold ofTokens at h
    split at h
    · next read hread =>
      cases h
      exact Grammar.gives_local (Grammar.expression (ts.length + 1)) _ hword e [] hread
    · cases h
    · cases h
    · cases h
  refine ⟨name, value, isLocal, p, rfl, hwhere, ?_⟩
  rintro rfl fuel s here hs hhere
  refine ⟨fun hfree hvalue => ?_, fun {v s'} hrun => ?_⟩
  · exact ⟨_, (evaluate_local_iff hs hhere fuel).mpr ⟨hfree, _, hvalue, rfl⟩⟩
  · obtain ⟨-, s₁, hvalue, rfl⟩ := (evaluate_local_iff hs hhere fuel).mp hrun
    obtain ⟨hlt, -⟩ := isReserved_evaluate hs hhere hvalue
    have hbound : (s₁.bindName here name v).scope here = (s₁.scope here).put name v :=
      Store.scope_bindName_self hlt
    refine ⟨s₁, hvalue, ?_, fun other hne => ?_, fun id hne => Store.scope_bindName_of_ne hne⟩
    · rw [hbound, Scope.get?_put_self]
    · rw [hbound, Scope.get?_put_of_ne hne]

/-- In a scope that a call has opened, `local x = 2` binds `x` there and leaves the outer `x`. -/
theorem local_binds_inside_call :
    let s := Store.initial.2.afterSources Store.outermost ["x = 1; f = |y| y; f(1)"]
    let ts : List Token := [.identifier "x", .assign, .number (.integer 2)].map (⟨·, .start⟩)
    ∃ e s', ofTokens (⟨.keyword .localWord, .start⟩ :: ts) .start = .ok e ∧
      evaluate (apply 0) e ⟨1⟩ s = .ok (.number (.integer 2)) s' ∧
      (s'.scope ⟨1⟩).get? "x" = some (.number (.integer 2)) ∧
      (s.scope Store.outermost).binds "x" = true ∧
      s'.scope Store.outermost = s.scope Store.outermost := by
  intro s ts
  obtain ⟨hsize, hfree, hbinds⟩ : 1 < s.scopes.size ∧ s.isReserved ⟨1⟩ "x" = false ∧
      (s.scope Store.outermost).binds "x" = true := by decide +kernel
  have hread : ofTokens (⟨.keyword .localWord, .start⟩ :: ts) .start =
      .ok (.assign "x" (.literal (.number (.integer 2)) .start) true .start) := rfl
  obtain ⟨name, value, isLocal, p, he, -, hlocal⟩ := local_binds rfl hread
  cases he
  obtain ⟨hvalue, heffect⟩ := hlocal rfl 0 (Store.reached_afterSources _) hsize
  obtain ⟨s', hrun⟩ := hvalue (v := .number (.integer 2)) hfree rfl
  obtain ⟨s₁, hright, hhere, -, hothers⟩ := heffect hrun
  cases hright
  exact ⟨_, s', rfl, hrun, hhere, hbinds, hothers _ (by decide)⟩

/-- The word is lost on an assignment in brackets, which then writes to the outer scope. -/
theorem local_lost_on_brackets :
    ofTokens ([.keyword .localWord, .opening .round, .identifier "x", .assign,
        .number (.integer 2), .closing .round].map (⟨·, .start⟩)) .start =
      .ok (.assign "x" (.literal (.number (.integer 2)) .start) false .start) ∧
    let s := Store.initial.2.afterSources Store.outermost ["x = 1", "\x7b local (x = 2) \x7d"]
    ((s.scope Store.outermost).get? "x").map s.text = some "2" :=
  ⟨rfl, by decide +kernel⟩

end Expr

end Abacus
