import Abacus.Proofs.Syntax.Levels
import Abacus.Proofs.Syntax.Runs

/-!
# Line feeds beside open operators

After a binary operator, `=`, `->`, `else`, the bracket that closes a condition and the bar that
closes parameters something has to follow, and before `elif` and `else` something has to precede. The
rules of the grammar skip line feeds there, and nowhere else but between the statements of a block.

**The law** (`Expr.ofTokens_loosened`): what the tokens of an expression are used as is told by a
derivation; and if line feeds are put beside tokens that are used as one of the above, then the same
expression is read, positions included.

The proof is an induction on derivations (`Derives.reads`). Line feeds before `elif` and `else` change
the token that follows the body of a branch; a rule that looks ahead stops at a line feed as it does
at the word.
-/

namespace Abacus

namespace Grammar

/-! ## Line feeds between tokens -/

/-- Something has to follow the token. -/
def Role.opensAfter : Role → Bool
  | .binaryOperator | .equals | .arrow | .conditionEnd | .parametersEnd | .elseWord => true
  | .plain | .elifWord => false

/-- Something has to precede the token. -/
def Role.opensBefore : Role → Bool
  | .elifWord | .elseWord => true
  | .plain | .binaryOperator | .equals | .arrow | .conditionEnd | .parametersEnd => false

/-- Tokens with any number of line feeds beside those that are open to that side. -/
inductive Loosens : List Use → List Token → Prop
  | nil : Loosens [] []
  | cons {u : Use} {us : List Use} {ts front back : List Token} : Newlines front →
    (front ≠ [] → u.role.opensBefore) → Newlines back → (back ≠ [] → u.role.opensAfter) →
    Loosens us ts → Loosens (u :: us) (front ++ u.token :: (back ++ ts))

/-- Nothing is put beside a plain token. -/
theorem Loosens.plain {us : List Use} {ts : List Token} {t : Token} (h : Loosens us ts) :
    Loosens (.plain t :: us) (t :: ts) :=
  .cons (List.forall_mem_nil _) (absurd rfl) (List.forall_mem_nil _) (absurd rfl) h

section Loosens

variable {us us' : List Use} {ts : List Token} {t : Token} {gap : List Token}

/-- Loosened tokens of two parts are the loosened tokens of each. -/
theorem of_loosens_append (h : Loosens (us ++ us') ts) :
    ∃ ts₁ ts₂, ts = ts₁ ++ ts₂ ∧ Loosens us ts₁ ∧ Loosens us' ts₂ := by
  induction us generalizing ts with
  | nil => exact ⟨[], ts, rfl, .nil, h⟩
  | cons u us ih =>
    cases h with
    | cons hfront hbefore hback hafter hrest =>
      obtain ⟨ts₁, ts₂, rfl, h₁, h₂⟩ := ih hrest
      exact ⟨_, ts₂, by simp, .cons hfront hbefore hback hafter h₁, h₂⟩

/-- A token before which no line may break stands first, and line feeds may follow. -/
theorem of_loosens_cons {u : Use} (h : Loosens (u :: us) ts) (hbefore : u.role.opensBefore = false) :
    ∃ back ts', ts = u.token :: (back ++ ts') ∧ Newlines back ∧ (back ≠ [] → u.role.opensAfter) ∧
      Loosens us ts' := by
  cases h with
  | @cons _ _ ts' front back hfront hfront' hback hafter hrest =>
    cases front with
    | nil => exact ⟨back, ts', rfl, hback, hafter, hrest⟩
    | cons g front => simp [hbefore] at hfront'

/-- No line breaks at a plain token. -/
theorem of_loosens_plain (h : Loosens (.plain t :: us) ts) : ∃ ts', ts = t :: ts' ∧ Loosens us ts' := by
  obtain ⟨back, ts', rfl, -, hafter, hrest⟩ := of_loosens_cons h rfl
  cases back with
  | nil => exact ⟨ts', rfl, hrest⟩
  | cons g back => simp [Use.plain, Role.opensAfter] at hafter

/-- Nor in a gap. -/
theorem of_loosens_gap (h : Loosens (gap.map .plain ++ us) ts) : ∃ ts', ts = gap ++ ts' ∧ Loosens us ts' := by
  induction gap generalizing ts with
  | nil => exact ⟨ts, rfl, h⟩
  | cons g gap ih =>
    obtain ⟨ts₁, rfl, hrest⟩ := of_loosens_plain h
    obtain ⟨ts₂, rfl, hus⟩ := ih hrest
    exact ⟨ts₂, rfl, hus⟩

/-- Line feeds that are put after a token join those that are there. -/
theorem of_loosens_open {role : Role} (h : Loosens (⟨t, role⟩ :: (gap.map .plain ++ us)) ts)
    (hbefore : role.opensBefore = false) (hgap : Newlines gap) :
    ∃ gap' ts', ts = t :: (gap' ++ ts') ∧ Newlines gap' ∧ Loosens us ts' := by
  obtain ⟨back, ts₁, rfl, hback, -, hrest⟩ := of_loosens_cons h hbefore
  obtain ⟨ts₂, rfl, hus⟩ := of_loosens_gap hrest
  exact ⟨back ++ gap, ts₂, by simp, hback.append hgap, hus⟩

/-- So do those that are put before it. -/
theorem of_loosens_word {role : Role} (h : Loosens (gap.map .plain ++ ⟨t, role⟩ :: us) ts)
    (hgap : Newlines gap) :
    ∃ gap' back ts', ts = gap' ++ t :: (back ++ ts') ∧ Newlines gap' ∧ Newlines back ∧
      (back ≠ [] → role.opensAfter) ∧ Loosens us ts' := by
  obtain ⟨ts₁, rfl, hrest⟩ := of_loosens_gap h
  cases hrest with
  | @cons _ _ ts' front back hfront _ hback hafter hus =>
    exact ⟨gap ++ front, back, ts', by simp, hgap.append hfront, hback, hafter, hus⟩

/-- What follows an expression whose tokens are loosened: the token that followed it, or a line feed. -/
def Follows (next : Option TokenKind) (rest : List Token) : Prop :=
  nextKind rest = next ∨ nextKind rest = some .newline

/-- What follows the loosened tokens is no other kind than what follows the tokens. -/
theorem Follows.ne {next : Option TokenKind} {rest : List Token} (h : Follows next rest)
    {k : TokenKind} (hne : next ≠ some k) (hk : k ≠ .newline) : nextKind rest ≠ some k := by
  rcases h with h | h
  · rwa [h]
  · rw [h]
    exact fun heq => hk (Option.some.inj heq).symm

/-- The tokens themselves follow. -/
theorem follows_cons (t : Token) (ts : List Token) : Follows (some t.kind) (t :: ts) := .inl rfl

/-- What follows loosened tokens. -/
theorem follows_nextOf {next : Option TokenKind} {rest : List Token} (h : Loosens us ts)
    (hrest : Follows next rest) : Follows (nextOf us next) (ts ++ rest) := by
  cases h with
  | nil => exact hrest
  | @cons _ _ _ front _ hfront _ _ _ _ =>
    cases front with
    | nil => exact .inl rfl
    | cons g front => exact .inr (congrArg some (hfront g List.mem_cons_self))

end Loosens

/-! ## First tokens -/

/-- Whether a token may begin an operand. -/
def beginsOperand (k : TokenKind) : Bool := k.begins || (prefixOp? k).isSome

/-- Whether a token may begin an expression, `local` included. -/
def beginsExpression (k : TokenKind) : Bool := beginsOperand k || k == .keyword .localWord

/-- The first tokens of goals that take a token at least, and by which the rules decide. -/
def Goal.first? : Goal → Option (TokenKind → Bool)
  | .expression _ => some beginsExpression
  | .assignments .. | .binary .. | .chain _ | .unary _ => some beginsOperand
  | .primary _ => some TokenKind.begins
  | .items b _ => some fun k => beginsExpression k || k == .closing b
  | .blockBody _ => some fun k => beginsExpression k || k == .closing .curly
  | .parameters .. => some fun k => match k with
    | .identifier _ => true
    | _ => false
  | _ => none

/-- **A derivation begins with a token that its goal expects.** -/
theorem Derives.begins {goal : Goal} {us : List Use} {next : Option TokenKind}
    (h : Derives goal us next) {first : TokenKind → Bool} (hfirst : goal.first? = some first) :
    ∃ t us', us = .plain t :: us' ∧ first t.kind := by
  induction h generalizing first with
  | localAssignment =>
    cases hfirst
    exact ⟨_, _, rfl, by simp [beginsExpression]⟩
  | assignment _ ih =>
    cases hfirst
    obtain ⟨t, us', rfl, ht⟩ := ih rfl
    exact ⟨t, us', rfl, by simp [beginsExpression, ht]⟩
  | assign _ _ _ ih _ =>
    cases hfirst
    obtain ⟨t, us', rfl, ht⟩ := ih rfl
    exact ⟨t, _, rfl, ht⟩
  | level _ _ ih _ =>
    cases hfirst
    obtain ⟨t, us', rfl, ht⟩ := ih rfl
    exact ⟨t, _, rfl, ht⟩
  | chain _ _ ih _ =>
    cases hfirst
    obtain ⟨t, us', rfl, ht⟩ := ih rfl
    exact ⟨t, _, rfl, ht⟩
  | noAssign _ _ ih =>
    cases hfirst
    exact ih rfl
  | tightest _ ih =>
    cases hfirst
    exact ih rfl
  | prefixed hop =>
    cases hfirst
    exact ⟨_, _, rfl, by simp [beginsOperand, hop]⟩
  | noPrefix _ ih =>
    cases hfirst
    obtain ⟨t, us', rfl, ht⟩ := ih rfl
    exact ⟨t, us', rfl, by simp [beginsOperand, ht]⟩
  | @literal _ k _ _ hvalue =>
    cases hfirst
    refine ⟨_, _, rfl, ?_⟩
    unfold literal? at hvalue
    split at hvalue <;> first | rfl | cases hvalue
  | name | group | vector | block | conditional | function | parameter | lastParameter =>
    cases hfirst
    exact ⟨_, _, rfl, rfl⟩
  | noItem | noStatement =>
    cases hfirst
    exact ⟨_, _, rfl, by simp⟩
  | item _ _ ih _ =>
    cases hfirst
    obtain ⟨t, us', rfl, ht⟩ := ih rfl
    exact ⟨t, _, rfl, by simp [ht]⟩
  | statement _ _ _ ih _ =>
    cases hfirst
    obtain ⟨t, us', rfl, ht⟩ := ih rfl
    exact ⟨t, _, rfl, by simp [ht]⟩
  | lastItem _ ih | lastStatement _ ih =>
    cases hfirst
    obtain ⟨t, us', rfl, ht⟩ := ih rfl
    exact ⟨t, _, rfl, by simp [ht]⟩
  | _ => cases hfirst

/-- What comes next is the first token of the goal, before which no line feed is put. -/
theorem Derives.nextKind_begins {goal : Goal} {us : List Use} {next : Option TokenKind}
    (h : Derives goal us next) {first : TokenKind → Bool} (hfirst : goal.first? = some first)
    {ts : List Token} (hts : Loosens us ts) (rest : List Token) {k : TokenKind}
    (hk : nextKind (ts ++ rest) = some k) : first k := by
  obtain ⟨t, us', rfl, ht⟩ := h.begins hfirst
  obtain ⟨ts', rfl, -⟩ := of_loosens_plain hts
  cases hk
  exact ht

/-- Loosened tokens of a goal begin with no kind that it cannot begin with. -/
theorem Derives.nextKind_ne {goal : Goal} {us : List Use} {next : Option TokenKind}
    (h : Derives goal us next) {first : TokenKind → Bool} (hfirst : goal.first? = some first)
    {ts : List Token} (hts : Loosens us ts) (rest : List Token) {k : TokenKind}
    (hk : first k = false) : nextKind (ts ++ rest) ≠ some k := by
  intro heq
  rw [h.nextKind_begins hfirst hts rest heq] at hk
  cases hk

/-- Statements begin behind the separators. -/
theorem Derives.not_separator {es : List Expr} {us : List Use} {next : Option TokenKind}
    (h : Derives (.blockBody es) us next) {ts : List Token} (hts : Loosens us ts) (rest : List Token)
    {k : TokenKind} (hk : nextKind (ts ++ rest) = some k) : k.isSeparator = false := by
  have hbegins := h.nextKind_begins rfl hts rest hk
  cases k <;> first | rfl | cases hbegins

/-! ## The law -/

/-- **A derivation makes its goal be read from loosened tokens.** -/
theorem Derives.reads {goal : Goal} {us : List Use} {next : Option TokenKind}
    (h : Derives goal us next) {ts rest : List Token} (hts : Loosens us ts) (hrest : Follows next rest) :
    goal.Reads ts rest := by
  induction h generalizing ts rest with
  | localAssignment hassign _ ih =>
    obtain ⟨ts', rfl, hus⟩ := of_loosens_plain hts
    exact .localAssignment hassign (ih hus hrest)
  | assignment hvalue ih =>
    exact .assignment (hvalue.nextKind_ne rfl hts rest rfl) (ih hts hrest)
  | assign htarget hgap hvalue ih ih' =>
    obtain ⟨ts₁, ts₂, rfl, hus, htail⟩ := of_loosens_append hts
    obtain ⟨gap', ts₂, rfl, hgap', hus'⟩ := of_loosens_open htail rfl hgap
    exact .assign hgap' (hvalue.nextKind_ne rfl hus' rest rfl) (ih hus (follows_cons _ _))
      (ih' hus' hrest)
  | noAssign _ hne ih =>
    exact .noAssign (hrest.ne hne (by simp)) (ih hts hrest)
  | tightest _ ih =>
    exact .tightest (ih hts hrest)
  | level _ _ ih ih' =>
    obtain ⟨ts₁, ts₂, rfl, hus, hus'⟩ := of_loosens_append hts
    exact .level (ih hus (follows_nextOf hus' hrest)) (ih' hus' hrest)
  | operation hop hgap hright _ ih ih' =>
    obtain ⟨gap', ts', rfl, hgap', htail⟩ := of_loosens_open hts rfl hgap
    obtain ⟨ts₁, ts₂, rfl, hus, hus'⟩ := of_loosens_append htail
    exact .operation hop hgap' (hright.nextKind_ne rfl hus _ rfl)
      (ih hus (follows_nextOf hus' hrest)) (ih' hus' hrest)
  | noOperation hnone =>
    cases hts
    refine .noOperation fun k hk => ?_
    rcases hrest with hrest | hrest
    · exact hnone k (hrest ▸ hk)
    · cases hrest.symm.trans hk
      rfl
  | chain _ _ ih ih' =>
    obtain ⟨ts₁, ts₂, rfl, hus, hus'⟩ := of_loosens_append hts
    exact .chain (ih hus (follows_nextOf hus' hrest)) (ih' hus' hrest)
  | link hgap hright _ ih ih' =>
    obtain ⟨gap', ts', rfl, hgap', htail⟩ := of_loosens_open hts rfl hgap
    obtain ⟨ts₁, ts₂, rfl, hus, hus'⟩ := of_loosens_append htail
    exact .link hgap' (hright.nextKind_ne rfl hus _ rfl) (ih hus (follows_nextOf hus' hrest))
      (ih' hus' hrest)
  | noLink hne =>
    cases hts
    exact .noLink (hrest.ne hne (by simp))
  | prefixed hop _ ih =>
    obtain ⟨ts', rfl, hus⟩ := of_loosens_plain hts
    exact .prefixed hop (ih hus hrest)
  | noPrefix hprimary ih =>
    refine .noPrefix (fun k hk => ?_) (ih hts hrest)
    exact prefixOp?_of_begins (hprimary.nextKind_begins rfl hts rest hk)
  | literal hvalue =>
    obtain ⟨ts', rfl, hus⟩ := of_loosens_plain hts
    cases hus
    exact .literal hvalue
  | name _ ih =>
    obtain ⟨ts', rfl, hus⟩ := of_loosens_plain hts
    exact .name (ih hus hrest)
  | group _ _ ih ih' =>
    obtain ⟨ts', rfl, htail⟩ := of_loosens_plain hts
    obtain ⟨ts₁, ts₂, rfl, hus, htail₂⟩ := of_loosens_append htail
    obtain ⟨ts₂, rfl, hus'⟩ := of_loosens_plain htail₂
    exact .group (ih hus (follows_cons _ _)) (ih' hus' hrest)
  | vector _ ih =>
    obtain ⟨ts', rfl, hus⟩ := of_loosens_plain hts
    exact .vector (ih hus hrest)
  | block hgap hbody hes ih =>
    obtain ⟨ts', rfl, htail⟩ := of_loosens_plain hts
    obtain ⟨ts', rfl, hus⟩ := of_loosens_gap htail
    exact .block hgap (fun k => hbody.not_separator hus rest) hes (ih hus hrest)
  | conditional _ _ ih ih' =>
    obtain ⟨ts', rfl, htail⟩ := of_loosens_plain hts
    obtain ⟨ts₁, ts₂, rfl, hus, hus'⟩ := of_loosens_append htail
    exact .conditional (ih hus (follows_nextOf hus' hrest)) (ih' hus' hrest)
  | function _ hgap hbody ih ih' =>
    obtain ⟨ts', rfl, htail⟩ := of_loosens_plain hts
    obtain ⟨ts₁, ts₂, rfl, hus, htail₂⟩ := of_loosens_append htail
    have hnext := follows_nextOf htail₂ hrest
    obtain ⟨ts₂, rfl, hus'⟩ := of_loosens_gap htail₂
    rw [List.append_assoc] at hnext
    exact .function hgap (hbody.nextKind_ne rfl hus' rest rfl) (ih hus hnext) (ih' hus' hrest)
  | call _ _ ih ih' =>
    obtain ⟨ts', rfl, htail⟩ := of_loosens_plain hts
    obtain ⟨ts₁, ts₂, rfl, hus, hus'⟩ := of_loosens_append htail
    exact .call (ih hus (follows_nextOf hus' hrest)) (ih' hus' hrest)
  | noCall hne =>
    cases hts
    exact .noCall (hrest.ne hne (by simp))
  | noItem =>
    obtain ⟨ts', rfl, hus⟩ := of_loosens_plain hts
    cases hus
    exact .noItem
  | item he _ ih ih' =>
    obtain ⟨ts₁, ts₂, rfl, hus, htail⟩ := of_loosens_append hts
    obtain ⟨ts₂, rfl, hus'⟩ := of_loosens_plain htail
    exact .item (he.nextKind_ne rfl hus _ rfl) (ih hus (follows_cons _ _)) (ih' hus' hrest)
  | lastItem he ih =>
    obtain ⟨ts₁, ts₂, rfl, hus, htail⟩ := of_loosens_append hts
    obtain ⟨ts₂, rfl, hus'⟩ := of_loosens_plain htail
    cases hus'
    exact .lastItem (he.nextKind_ne rfl hus _ rfl) (ih hus (follows_cons _ _))
  | noStatement =>
    obtain ⟨ts', rfl, hus⟩ := of_loosens_plain hts
    cases hus
    exact .noStatement
  | statement he hgap hes ih ih' =>
    obtain ⟨ts₁, ts₂, rfl, hus, htail⟩ := of_loosens_append hts
    obtain ⟨ts₂, rfl, htail₂⟩ := of_loosens_plain htail
    obtain ⟨ts₂, rfl, hus'⟩ := of_loosens_gap htail₂
    exact .statement hgap (he.nextKind_ne rfl hus _ rfl) (fun k => hes.not_separator hus' rest)
      (ih hus (follows_cons _ _)) (ih' hus' hrest)
  | lastStatement he ih =>
    obtain ⟨ts₁, ts₂, rfl, hus, htail⟩ := of_loosens_append hts
    obtain ⟨ts₂, rfl, hus'⟩ := of_loosens_plain htail
    cases hus'
    exact .lastStatement (he.nextKind_ne rfl hus _ rfl) (ih hus (follows_cons _ _))
  | branch _ hgap hbody ih ih' =>
    obtain ⟨ts', rfl, htail⟩ := of_loosens_plain hts
    obtain ⟨ts₁, ts₂, rfl, hus, htail₂⟩ := of_loosens_append htail
    obtain ⟨gap', ts₂, rfl, hgap', hus'⟩ := of_loosens_open htail₂ rfl hgap
    exact .branch hgap' (hbody.nextKind_ne rfl hus' rest rfl) (ih hus (follows_cons _ _))
      (ih' hus' hrest)
  | elifBranch hgap _ _ ih ih' =>
    obtain ⟨gap', back, ts', rfl, hgap', -, hback, htail⟩ := of_loosens_word hts hgap
    obtain ⟨ts₁, ts₂, rfl, hus, hus'⟩ := of_loosens_append htail
    obtain rfl : back = [] := by simpa [Role.opensAfter] using hback
    rw [List.nil_append]
    exact .elifBranch hgap' (ih hus (follows_nextOf hus' hrest)) (ih' hus' hrest)
  | elseBranch hgap hgap' hother ih =>
    obtain ⟨front, back, ts', rfl, hfront, hback, -, htail⟩ := of_loosens_word hts hgap
    obtain ⟨ts', rfl, hus⟩ := of_loosens_gap htail
    rw [← List.append_assoc back]
    exact .elseBranch hfront (hback.append hgap') (hother.nextKind_ne rfl hus rest rfl) (ih hus hrest)
  | parameter hseen _ ih =>
    obtain ⟨ts', rfl, htail⟩ := of_loosens_plain hts
    obtain ⟨ts', rfl, hus⟩ := of_loosens_plain htail
    exact .parameter hseen (ih hus hrest)
  | lastParameter hseen =>
    obtain ⟨ts', rfl, htail⟩ := of_loosens_plain hts
    obtain ⟨back, ts', rfl, hback, -, hus⟩ := of_loosens_cons htail rfl
    cases hus
    rw [List.append_nil]
    exact .lastParameter hseen hback
  | noParameters =>
    obtain ⟨back, ts', rfl, hback, -, hus⟩ := of_loosens_cons hts rfl
    cases hus
    rw [List.append_nil]
    exact .noParameters hback
  | someParameters hnames ih =>
    exact .someParameters (hnames.nextKind_ne rfl hts rest rfl) (ih hts hrest)

/-- A primary is an expression if the part ends behind it. -/
theorem Derives.expression_of_primary {e : Expr} {us : List Use} {next : Option TokenKind}
    (h : Derives (.primary e) us next) (hnext : Ended next.toList) : Derives (.expression e) us next := by
  have hne {k : TokenKind} (hk : k = .opening .round ∨ k = .arrow ∨ k = .assign ∨ ∃ op, k = .operator op) :
      next ≠ some k := by
    simpa using hnext.head_ne hk
  have hchain : Derives (.chain e) (us ++ []) next := .chain (.noPrefix h) (.noLink (hne (by simp)))
  rw [List.append_nil] at hchain
  have hoperand : ∀ levels, Derives (.binary levels e) us next := by
    intro levels
    induction levels with
    | zero => exact .tightest hchain
    | succ levels ih =>
      have hmore : Derives (.operations levels e e) [] next := by
        refine .noOperation fun k hk => ?_
        cases k with
        | operator op => exact absurd hk (hne (by simp))
        | _ => rfl
      have hlevel : Derives (.binary (levels + 1) e) (us ++ []) next := .level ih hmore
      rwa [List.append_nil] at hlevel
  exact .assignment (.noAssign (hoperand _) (hne (by simp)))

end Grammar

open Grammar

/-- **What the tokens of an expression are used as has a derivation, and the same expression is read
if line feeds are put after its binary operators, `=`, `->`, `else` and the signs that close
conditions and parameters, or before `elif` and `else`.** -/
theorem Expr.ofTokens_loosened {tokens : List Token} {stop : Position} {e : Expr}
    (h : Expr.ofTokens tokens stop = .ok e) :
    (∃ us, us.map Use.token = tokens ∧ Derives (.expression e) us none) ∧
      ∀ us, us.map Use.token = tokens → Derives (.expression e) us none →
        ∀ tokens' stop', Loosens us tokens' → Expr.ofTokens tokens' stop' = .ok e := by
  refine ⟨derives_of_ofTokens h, fun us _ hus tokens' stop' hloosens => ?_⟩
  have hread : expression (tokens'.length + 1) stop' (tokens' ++ []) = .read e [] :=
    hus.reads hloosens (.inl rfl) stop' tokens'.length (tokens'.length + 1) (Nat.le_refl _)
      (Nat.lt_succ_self _)
  rw [List.append_nil] at hread
  unfold Expr.ofTokens
  rw [hread]

/-- The law at a conditional that is put on several lines. -/
theorem Expr.ofTokens_loosened_conditional :
    let token (k : TokenKind) : Token := ⟨k, .start⟩
    let tokens := [.keyword .ifWord, .opening .round, .identifier "a", .closing .round,
      .identifier "b", .keyword .elseWord, .identifier "c"].map token
    let tokens' := [.keyword .ifWord, .opening .round, .identifier "a", .closing .round, .newline,
      .identifier "b", .newline, .keyword .elseWord, .newline, .newline, .identifier "c"].map token
    let e := Expr.conditional [(.identifier "a" .start, .identifier "b" .start)]
      (.identifier "c" .start) .start
    Expr.ofTokens tokens .start = .ok e ∧ Expr.ofTokens tokens' .start = .ok e := by
  intro token tokens tokens' e
  have hread : Expr.ofTokens tokens .start = .ok e := rfl
  have hname (x : String) {next : Option TokenKind} (hnext : Ended next.toList)
      (hcall : next ≠ some (.opening .round)) :
      Derives (.expression (.identifier x .start)) [.plain (token (.identifier x))] next :=
    .expression_of_primary (.name (.noCall hcall)) hnext
  have nothing : Newlines [] := by simp [Newlines]
  have newline : Newlines [token .newline] := by simp [Newlines, token]
  have hbranch : Derives (.branch (.identifier "a" .start) (.identifier "b" .start)) _
      (some (.keyword .elseWord)) :=
    .branch (p := .start) (q := .start) (hname "a" (ended_cons (.inl ⟨_, rfl⟩)) (by simp)) nothing
      (hname "b" (ended_cons (by simp)) (by simp))
  have helse : Derives (.furtherBranches [] (.identifier "c" .start)) _ none :=
    .elseBranch (p := .start) nothing nothing (hname "c" ended_nil (by simp))
  have hus : Derives (.expression e) _ none :=
    .expression_of_primary (.conditional hbranch helse) ended_nil
  have hword : Loosens [⟨token (.keyword .elseWord), .elseWord⟩, .plain (token (.identifier "c"))]
      ([token .newline] ++ token (.keyword .elseWord) ::
        ([token .newline, token .newline] ++ [token (.identifier "c")])) :=
    .cons newline (fun _ => rfl) (newline.append newline) (fun _ => rfl) (.plain .nil)
  have hbody : Loosens (⟨token (.closing .round), .conditionEnd⟩ :: .plain (token (.identifier "b")) :: _)
      ([] ++ token (.closing .round) :: ([token .newline] ++ token (.identifier "b") :: _)) :=
    .cons nothing (absurd rfl) newline (fun _ => rfl) (.plain hword)
  have htokens' : Expr.ofTokens tokens' .start = .ok e :=
    (Expr.ofTokens_loosened hread).2 _ rfl hus tokens' .start (.plain (.plain (.plain hbody)))
  exact ⟨hread, htokens'⟩

end Abacus
