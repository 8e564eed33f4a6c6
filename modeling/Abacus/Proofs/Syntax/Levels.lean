import Abacus.Proofs.Syntax.Reads

/-!
# From primaries to expressions

A printed operand is a primary: the rules of all levels above hand it on as it is, because what
follows it is none of their signs. Only between brackets does one of them act, and it acts once.

**The law** (`ready_expression`): the rule of expressions reads every plain expression that is
shorter than its budget.
-/

namespace Abacus

namespace Expr

/-- Every branch has a token. -/
theorem length_le_branchKinds : ∀ (keyword : Keyword) (branches : List (Expr × Expr)),
    branches.length ≤ (branchKinds keyword branches).length
  | _, [] => Nat.le_refl 0
  | keyword, (condition, body) :: branches => by
    have ih := length_le_branchKinds .elifWord branches
    simp only [branchKinds, List.length_cons, List.length_append]
    omega

/-- Every parameter has a token. -/
theorem length_le_nameKinds : ∀ names : List String, names.length ≤ (nameKinds names).length
  | [] => Nat.le_refl 0
  | [_] => Nat.le_refl 1
  | _ :: name :: names => by
    have ih := length_le_nameKinds (name :: names)
    simp only [nameKinds, List.length_cons] at ih ⊢
    omega

end Expr

namespace Grammar

open Abacus.Expr

/-! ## Primaries -/

section Primaries

variable {part : Rule Expr} {m : Nat}

/-- A callee in brackets is read by the rule between them. -/
theorem reads_bracketed_callee (ready : Ready part m) {ks ks' : List TokenKind} {good : Expr → Prop}
    {e : Expr} (closed : e.Closed) (hb : e.IsBracketed) (hsize : e.kinds.length ≤ m)
    (hnext : ∀ e' budget, e'.bare = e.bare → m + 1 ≤ budget + e.kinds.length →
      (callSuffix part budget e').Reads ks ks' good) :
    (primary part (m + 1)).Reads (e.kinds ++ ks) ks' good := by
  unfold primary
  rw [closed.kinds_eq hb, List.cons_append, List.append_assoc, List.singleton_append]
  refine reads_next.bind fun o ho => ?_
  obtain ⟨q, rfl⟩ := ho
  refine (ready.inner closed hb hsize ks).bind fun e' he' => ?_
  refine reads_expect.bind fun _ _ => ?_
  exact hnext _ _ he' (Nat.le_add_right _ _)

/-- After a callee the reading goes on with the argument lists, and enough of the budget is left for
them. -/
theorem reads_callee (ready : Ready part m) {ks ks' : List TokenKind} {good : Expr → Prop}
    {e : Expr} (closed : e.Closed) (hc : e.IsCallee) (hsize : e.kinds.length ≤ m)
    (hnext : ∀ e' budget, e'.bare = e.bare → m + 1 ≤ budget + e.kinds.length →
      (callSuffix part budget e').Reads ks ks' good) :
    (primary part (m + 1)).Reads (e.kinds ++ ks) ks' good := by
  -- what is called in a callee that is a call itself has fewer tokens
  induction hlength : e.kinds.length using Nat.strongRecOn generalizing e ks with
  | ind n ih =>
    subst hlength
    cases e with
    | identifier name p =>
      unfold primary
      refine reads_next.bind fun o ho => ?_
      obtain ⟨q, rfl⟩ := ho
      exact hnext _ _ rfl (Nat.le_add_right _ _)
    | call callee arguments p =>
      cases closed with
      | call hcallee closed plain =>
        have hshort := length_le_listKinds .comma plain
        simp only [kinds, List.length_append, List.length_cons, List.length_nil] at ih hsize hnext
        rw [kinds, List.append_assoc]
        refine ih callee.kinds.length (by omega) closed hcallee (by omega)
          (fun e' budget he' hbudget => ?_) rfl
        obtain ⟨budget, rfl⟩ : ∃ b, budget = b + 1 := ⟨budget - 1, by omega⟩
        rw [List.cons_append, List.append_assoc, List.singleton_append]
        refine reads_callSuffix ready plain (by omega) (by omega) fun es' hes' => ?_
        exact hnext _ _ (by simp only [bare, he', hes']) (by omega)
    | assign name value isLocal p => exact reads_bracketed_callee ready closed hc hsize hnext
    | binary op left right p => exact reads_bracketed_callee ready closed hc hsize hnext
    | unary op operand p => exact reads_bracketed_callee ready closed hc hsize hnext
    | _ => exact hc.elim

/-- **A primary reads a closed expression whatever follows, unless that is an argument list.** -/
theorem reads_primary_closed (ready : Ready part m) {e : Expr} {ks : List TokenKind}
    (closed : e.Closed) (hsize : e.kinds.length ≤ m) (hks : ks.head? ≠ some (.opening .round)) :
    (primary part (m + 1)).Reads (e.kinds ++ ks) ks fun e' => e'.bare = e.bare := by
  have callee (hc : e.IsCallee) :
      (primary part (m + 1)).Reads (e.kinds ++ ks) ks fun e' => e'.bare = e.bare := by
    refine reads_callee ready closed hc hsize fun e' budget he' hbudget => ?_
    obtain ⟨budget, rfl⟩ : ∃ b, budget = b + 1 := ⟨budget - 1, by omega⟩
    exact (reads_callSuffix_end hks).imp fun e'' he'' => by rw [he'', he']
  cases closed with
  | number | quoted =>
    unfold primary
    refine reads_next.bind fun o ho => ?_
    obtain ⟨q, rfl⟩ := ho
    exact .pure rfl
  | @boolean b =>
    unfold primary
    cases b <;>
    · refine reads_next.bind fun o ho => ?_
      obtain ⟨q, rfl⟩ := ho
      exact .pure rfl
  | @vector items p plain =>
    have hlength := length_le_listKinds .comma plain
    simp only [kinds, List.length_cons, List.length_append, List.length_nil] at hsize
    unfold primary
    rw [kinds, List.cons_append, List.append_assoc, List.singleton_append]
    refine reads_next.bind fun o ho => ?_
    obtain ⟨q, rfl⟩ := ho
    refine (reads_items ready plain (by omega) (by omega)).bind fun es' hes' => .pure ?_
    simp only [bare, hes']
  | @block body p hne plain =>
    have hlength := length_le_listKinds .semicolon plain
    simp only [kinds, List.length_cons, List.length_append, List.length_nil] at hsize
    unfold primary
    rw [kinds, List.cons_append, List.append_assoc, List.singleton_append]
    refine reads_next.bind fun o ho => ?_
    obtain ⟨q, rfl⟩ := ho
    exact reads_block ready plain hne (by omega) (by omega)
  | identifier | assign | binary | unary => exact callee trivial
  | call => exact callee trivial

/-- Nothing that goes on with an expression follows where it has ended. -/
theorem Ended.head_ne {ks : List TokenKind} (h : Ended ks) {k : TokenKind}
    (hk : k = .opening .round ∨ k = .arrow ∨ k = .assign ∨ ∃ op, k = .operator op) :
    ks.head? ≠ some k := by
  intro hhead
  rcases h k hhead with ⟨b, rfl⟩ | rfl | rfl | rfl | rfl <;> simp at hk

/-- **A primary reads a plain expression up to the end of its part.** -/
theorem reads_primary (ready : Ready part m) {e : Expr} {ks : List TokenKind} (plain : e.Plain)
    (hsize : e.kinds.length ≤ m) (hks : Ended ks) :
    (primary part (m + 1)).Reads (e.kinds ++ ks) ks fun e' => e'.bare = e.bare := by
  cases plain with
  | closed closed => exact reads_primary_closed ready closed hsize (hks.head_ne (.inl rfl))
  | @function parameters body p names nodup hbody =>
    have hlength := length_le_nameKinds parameters
    simp only [kinds, List.length_cons, List.length_append] at hsize
    unfold primary
    rw [kinds, List.cons_append, List.append_assoc, List.cons_append]
    refine reads_next.bind fun o ho => ?_
    obtain ⟨q, rfl⟩ := ho
    exact reads_function ready nodup hbody hks (by omega) (by omega)
  | @conditional branches otherwise p hne bracketed closed plain hotherwise =>
    have hlength := length_le_branchKinds .ifWord branches
    simp only [kinds, List.length_cons, List.length_append] at hsize
    unfold primary
    rw [kinds, List.append_assoc, List.cons_append]
    cases branches with
    | nil => exact absurd rfl hne
    | cons b branches =>
      refine reads_next.bind fun o ho => ?_
      obtain ⟨q, rfl⟩ := ho
      exact reads_conditional ready hne bracketed closed plain hotherwise hks (by omega) (by omega)

end Primaries

/-! ## Levels that hand on -/

section Levels

variable {operand : Rule Expr} {k : TokenKind} {ks ks' ks'' : List TokenKind} {budget levels : Nat}
  {good good' : Expr → Prop}

/-- An operand that no prefix operator begins has no prefix. -/
theorem reads_unary (h : operand.Reads (k :: ks) ks' good) (hk : prefixOp? k = none) :
    (unary operand (budget + 1)).Reads (k :: ks) ks' good := by
  unfold unary
  refine reads_peek.bind fun o ho => ?_
  obtain ⟨p, rfl⟩ := ho
  simp only [hk]
  exact h

/-- There are no links where no arrow is next. -/
theorem reads_links_end {left : Expr} (hks : ks.head? ≠ some .arrow) :
    (links operand (budget + 1) left).Reads ks ks (· = left) := by
  unfold links
  refine (reads_accept_none hks).bind fun o ho => ?_
  subst ho
  exact .pure rfl

/-- A pipeline without links is its operand. -/
theorem reads_chain (h : (unary operand budget).Reads ks ks' good) (hbudget : 0 < budget)
    (hks : ks'.head? ≠ some .arrow) : (chain operand budget).Reads ks ks' good := by
  obtain ⟨budget, rfl⟩ : ∃ b, budget = b + 1 := ⟨budget - 1, by omega⟩
  unfold chain
  exact h.bind fun e he => (reads_links_end hks).imp fun e' he' => he' ▸ he

/-- No operator of the tightest `levels` levels comes next. -/
def Looser (levels : Nat) (ks : List TokenKind) : Prop :=
  ∀ op, ks.head? = some (.operator op) → op.level < BinaryOp.levels - levels

/-- Where an expression has ended, no operator of the tightest levels follows. -/
theorem Ended.looser (h : Ended ks) (levels : Nat) : Looser levels ks :=
  fun op hop => absurd hop (h.head_ne (.inr (.inr (.inr ⟨op, rfl⟩))))

/-- Nor does an operator of fewer of them. -/
theorem Looser.pred (h : Looser (levels + 1) ks) : Looser levels ks :=
  fun op hop => Nat.lt_of_lt_of_le (h op hop) (by omega)

/-- There are no operations of a level where no operator of it is next. -/
theorem reads_operations_end {left : Expr} (hks : Looser (levels + 1) ks) :
    (operations operand (BinaryOp.levels - (levels + 1)) (budget + 1) left).Reads ks ks
      (· = left) := by
  unfold operations
  cases ks with
  | nil =>
    refine reads_peek_nil.bind fun o ho => ?_
    subst ho
    exact .pure rfl
  | cons k ks =>
    have hk : binaryOp? (BinaryOp.levels - (levels + 1)) k = none := by
      unfold binaryOp?
      split
      · next op => exact if_neg (Nat.ne_of_lt (hks op rfl))
      · rfl
    refine reads_peek.bind fun o ho => ?_
    obtain ⟨p, rfl⟩ := ho
    simp only [hk]
    exact .pure rfl

/-- Levels hand on what is followed by none of their operators. -/
theorem reads_binary_end (h : operand.Reads ks ks' good) :
    ∀ {levels : Nat}, Looser levels ks' → (binary operand (budget + 1) levels).Reads ks ks' good
  | 0, _ => h
  | _ + 1, hks => by
    unfold binary
    refine (reads_binary_end h hks.pred).bind fun e he => ?_
    exact (reads_operations_end hks).imp fun e' he' => he' ▸ he

/-- **Two operands with an operator between them are read at the operator's level.** -/
theorem reads_binary {op : BinaryOp} (hleft : operand.Reads ks (.operator op :: ks') good)
    (hright : operand.Reads ks' ks'' good') (hks' : ks'.head? ≠ some .newline)
    (hks'' : Ended ks'') : ∀ {levels : Nat}, levels ≤ BinaryOp.levels →
      BinaryOp.levels - levels ≤ op.level → (binary operand (budget + 2) levels).Reads ks ks''
        fun e => ∃ l r p, good l ∧ good' r ∧ e = .binary op l r p
  | 0, _, hlevel => absurd op.level_lt (Nat.not_lt_of_le hlevel)
  | levels + 1, hlevels, hlevel => by
    unfold binary
    by_cases hop : op.level = BinaryOp.levels - (levels + 1)
    · have hlooser : Looser levels (.operator op :: ks') := by
        intro op' hop'
        cases hop'
        omega
      have hfound : binaryOp? (BinaryOp.levels - (levels + 1)) (.operator op) = some op := by
        rw [binaryOp?, if_pos hop]
      refine (reads_binary_end hleft hlooser).bind fun l hl => ?_
      unfold operations
      refine reads_peek.bind fun o ho => ?_
      obtain ⟨p, rfl⟩ := ho
      simp only [hfound]
      refine reads_next.bind fun _ _ => ?_
      refine (reads_skipNewlines hks').bind fun _ _ => ?_
      refine (reads_binary_end hright (hks''.looser levels)).bind fun r hr => ?_
      refine (reads_operations_end (hks''.looser _)).imp fun e he => ?_
      exact ⟨l, r, p, hl, hr, he⟩
    · have ih := reads_binary hleft hright hks' hks'' (Nat.le_of_succ_le hlevels) (by omega)
      refine ih.bind fun e he => ?_
      exact (reads_operations_end (hks''.looser _)).imp fun e' he' => he' ▸ he

/-- What no sign `=` follows is no assignment. -/
theorem reads_assignments (h : operand.Reads ks ks' good) (hks : ks'.head? ≠ some .assign) :
    (assignments operand false (budget + 1)).Reads ks ks' good := by
  unfold assignments
  refine h.bind fun e he => ?_
  refine (reads_accept_none hks).bind fun o ho => ?_
  subst ho
  exact .pure he

/-- What does not begin with the word `local` is read without it. -/
theorem reads_assignment (h : (assignments operand false budget).Reads ks ks' good)
    (hks : ks.head? ≠ some (.keyword .localWord)) :
    (assignment operand budget).Reads ks ks' good := by
  unfold assignment
  refine (reads_accept_none hks).bind fun o ho => ?_
  subst ho
  exact h

end Levels

/-! ## Expressions -/

/-- Expressions in brackets, names and literals begin with no prefix operator. -/
theorem prefixOp?_of_begins {k : TokenKind} (hk : k.begins) : prefixOp? k = none := by
  unfold prefixOp?
  split
  · cases hk
  · cases hk
  · rfl

/-- The token of a prefix operator stands for it. -/
theorem prefixOp?_kind (op : UnaryOp) : prefixOp? op.kind = some op := by
  cases op <;> rfl

section Expressions

variable {part : Rule Expr} {m budget : Nat} {ks ks' : List TokenKind}

/-- A printed plain expression is read as an operand where expressions end. -/
theorem reads_operand (ready : Ready part m) {e : Expr} (plain : e.Plain)
    (hsize : e.kinds.length ≤ m) (hks : Ended ks) :
    (unary (primary part (m + 1)) (budget + 1)).Reads (e.kinds ++ ks) ks
      fun e' => e'.bare = e.bare := by
  have h := reads_primary ready plain hsize hks
  obtain ⟨k, more, hkinds, hk⟩ := plain.begins
  rw [hkinds, List.cons_append] at h ⊢
  exact reads_unary h (prefixOp?_of_begins hk)

/-- A printed closed expression is read as an operand wherever it is not called. -/
theorem reads_operand_closed (ready : Ready part m) {e : Expr} (closed : e.Closed)
    (hsize : e.kinds.length ≤ m) (hks : ks.head? ≠ some (.opening .round)) :
    (unary (primary part (m + 1)) (budget + 1)).Reads (e.kinds ++ ks) ks
      fun e' => e'.bare = e.bare := by
  have h := reads_primary_closed ready closed hsize hks
  obtain ⟨k, more, hkinds, hk⟩ := closed.begins
  rw [hkinds, List.cons_append] at h ⊢
  exact reads_unary h (prefixOp?_of_begins hk)

/-- What a prefix operator stands before is read with it. -/
theorem reads_prefixed (ready : Ready part m) {op : UnaryOp} {e : Expr} (plain : e.Plain)
    (hsize : e.kinds.length ≤ m) (hks : Ended ks) :
    (unary (primary part (m + 1)) (budget + 2)).Reads (op.kind :: (e.kinds ++ ks)) ks
      fun e' => e'.bare = .unary op e.bare .start := by
  unfold unary
  refine reads_peek.bind fun o ho => ?_
  obtain ⟨p, rfl⟩ := ho
  simp only [prefixOp?_kind]
  refine reads_next.bind fun _ _ => ?_
  refine (reads_operand ready plain hsize hks).bind fun e' he' => .pure ?_
  simp only [bare, he']

/-- What the rule of prefix operators reads is an expression if its part ends there. -/
theorem reads_expression {good : Expr → Prop}
    (h : (unary (primary (expression m) (m + 1)) (m + 1)).Reads ks ks' good) (hks' : Ended ks')
    (hks : ks.head? ≠ some (.keyword .localWord)) : (expression (m + 1)).Reads ks ks' good := by
  unfold expression
  refine reads_assignment (reads_assignments ?_ (hks'.head_ne (.inr (.inr (.inl rfl))))) hks
  refine reads_binary_end ?_ (hks'.looser _)
  exact reads_chain h (Nat.succ_pos m) (hks'.head_ne (.inr (.inl rfl)))

/-- What is in the brackets of a printed operation is read as the operation. -/
theorem reads_inner_binary (ready : Ready (expression (m + 1)) (m + 1)) {op : BinaryOp}
    {left right : Expr} {p : Position} (hleft : left.Closed) (hright : right.Plain)
    (hsize : (Expr.binary op left right p).kinds.length ≤ m + 2) (ks : List TokenKind) :
    (expression (m + 2)).Reads (left.kinds ++ .operator op :: (right.kinds ++ .closing .round :: ks))
      (.closing .round :: ks) fun e' => e'.bare = (Expr.binary op left right p).bare := by
  simp only [kinds, List.length_cons, List.length_append, List.length_nil] at hsize
  have hended : Ended (.closing .round :: ks) := ended_cons (.inl ⟨.round, rfl⟩)
  obtain ⟨k, more, hkinds, hk⟩ := hleft.begins
  unfold expression
  refine reads_assignment (reads_assignments (Rule.Reads.imp (reads_binary
    (reads_chain (reads_operand_closed ready hleft (by omega) (by simp)) (Nat.succ_pos _) (by simp))
    (reads_chain (reads_operand ready hright (by omega) hended) (Nat.succ_pos _) (by simp))
    (hright.head_ne rfl _) hended (Nat.le_refl _) (by simp)) fun e' he' => ?_) (by simp)) ?_
  · obtain ⟨l, r, q, hl, hr, rfl⟩ := he'
    simp only [bare, hl, hr]
  · rw [hkinds]
    intro hhead
    cases hhead
    cases hk

/-- What is in the brackets of a printed assignment is read as the assignment. -/
theorem reads_inner_assign (ready : Ready (expression (m + 1)) (m + 1)) {name : String} {value : Expr}
    {p : Position} (hname : IsName name) (hvalue : value.Plain)
    (hsize : (Expr.assign name value false p).kinds.length ≤ m + 2) (ks : List TokenKind) :
    (expression (m + 2)).Reads (.identifier name :: .assign :: (value.kinds ++ .closing .round :: ks))
      (.closing .round :: ks) fun e' => e'.bare = (Expr.assign name value false p).bare := by
  have hended : Ended (.closing .round :: ks) := ended_cons (.inl ⟨.round, rfl⟩)
  have hidentifier : (Expr.identifier name p).Closed := .identifier hname
  simp only [kinds, List.length_cons, List.length_append, List.length_nil] at hsize
  unfold expression
  refine reads_assignment ?_ (by simp)
  unfold assignments
  refine (reads_binary_end (reads_chain (reads_operand_closed ready hidentifier (by simp [kinds])
    (by simp)) (Nat.succ_pos _) (by simp)) (fun op hop => by cases hop)).bind fun target ht => ?_
  refine reads_accept.bind fun o ho => ?_
  obtain ⟨q, rfl⟩ := ho
  refine (reads_skipNewlines (hvalue.head_ne rfl _)).bind fun _ _ => ?_
  cases target with
  | identifier name' q' =>
    refine (reads_assignments (reads_binary_end (reads_chain (reads_operand ready hvalue (by omega)
      hended) (Nat.succ_pos _) (by simp)) (hended.looser _)) (by simp)).bind fun e he => .pure ?_
    cases ht
    simp only [bare, he]
  | _ => cases ht

/-- **The rule of expressions reads every plain expression that is shorter than its budget.** -/
theorem ready_expression : ∀ n, Ready (expression n) n
  | 0 => ⟨fun _ h => absurd h (Nat.not_lt_zero _), fun closed _ h =>
      absurd h (Nat.not_le_of_lt (Plain.closed closed).length_pos)⟩
  | m + 1 => by
    have ready := ready_expression m
    refine ⟨fun {e} plain hsize ks hks => ?_, fun {e} closed hb hsize ks => ?_⟩
    · exact reads_expression (reads_operand ready plain (Nat.le_of_lt_succ hsize) hks) hks
        (plain.head_ne rfl ks)
    · have hpos : 1 < e.kinds.length := by
        rw [closed.kinds_eq hb, List.length_cons, List.length_append, List.length_singleton]
        omega
      obtain ⟨m, rfl⟩ : ∃ m', m = m' + 1 := ⟨m - 1, by omega⟩
      have hended : Ended (.closing .round :: ks) := ended_cons (.inl ⟨.round, rfl⟩)
      cases closed with
      | assign hname hvalue =>
        exact reads_inner_assign ready hname hvalue hsize ks
      | binary hleft hright =>
        rw [innerKinds, List.append_assoc, List.cons_append]
        exact reads_inner_binary ready hleft hright hsize ks
      | @unary op operand p hoperand =>
        simp only [kinds, List.length_cons, List.length_append, List.length_nil] at hsize
        refine reads_expression (reads_prefixed ready hoperand (by omega) hended) hended ?_
        cases op <;> exact fun hhead => by cases hhead
      | number | boolean | quoted | identifier | vector | block | call => exact hb.elim

end Expressions

end Grammar

namespace Expr

/-- **The tokens of a plain expression are read as that expression.** -/
theorem Plain.ofTokens {e : Expr} (plain : e.Plain) {ts : List Token}
    (hts : ts.map Token.kind = e.kinds) (stop : Position) :
    ∃ e', Expr.ofTokens ts stop = .ok e' ∧ e'.bare = e.bare := by
  have hlength : ts.length = e.kinds.length := by
    rw [← hts, List.length_map]
  have ready := Grammar.ready_expression (ts.length + 1)
  have hreads := ready.plain plain (by omega) Grammar.ended_nil
  rw [List.append_nil] at hreads
  obtain ⟨e', rest, hread, hrest, he'⟩ := hreads stop ts hts
  rw [List.map_eq_nil_iff] at hrest
  subst hrest
  exact ⟨e', by rw [Expr.ofTokens, hread], he'⟩

end Expr

end Abacus
