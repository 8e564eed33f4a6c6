import Abacus.Proofs.Syntax.Watched

/-!
# Every round takes a token

A rule goes on with what another has left of the tokens. So none of the recursions of the grammar is
structural in the tokens, and each has a budget. What bounds a reading all the same is that a rule that
reads an expression, and a loop in each of its rounds, takes a token before it is come to again.

So a reading ends if its budgets are greater than the number of tokens left, and then it does not
depend on them. This is shown together with what a watch finds: the grammar and the grammar under watch
read side by side, each with budgets of its own, and `Outcome.Agree` says of two readings that they
end, and in the same way, and what they leave. There is one lemma for each rule. Those for loops are by
induction on both budgets; the token that a round has taken is what lets the tokens of the next fit in
budgets that are less by one.

**The law** (`agree_expression`): the rule of an expression, with budgets that cover its tokens, reads
or refuses, takes a token if it reads, and does so under every watch that is silent where all is fine.
-/

namespace Abacus

namespace Grammar

variable {α β : Type}

/-! ## Readings that agree -/

/-- Two readings end, and in the same way. What is left, if something is read, is such. -/
inductive Outcome.Agree (left : List Token → Prop) : Outcome α → Outcome α → Prop
  | read {value : α} {rest : List Token} : left rest → Agree left (.read value rest) (.read value rest)
  | refused {error : ParseError} : Agree left (.refused error) (.refused error)

open Outcome (Agree)

namespace Outcome.Agree

variable {left left' : List Token → Prop} {o o' : Outcome α} {stop : Position} {ts : List Token}

/-- Readings that agree are equal. -/
theorem eq (h : Agree left o o') : o = o' := by cases h <;> rfl

/-- They end. -/
theorem ne_exhausted (h : Agree left o o') : o ≠ .exhausted := by rintro rfl; cases h

/-- What is left may be said more weakly. -/
theorem mono (h : Agree left o o') (himp : ∀ rest, left rest → left' rest) : Agree left' o o' := by
  cases h with
  | read hleft => exact .read (himp _ hleft)
  | refused => exact .refused

/-- Readings that agree go on to agree if what follows does, wherever they leave off. -/
theorem bind {rule rule' : Rule α} {next next' : α → Rule β}
    (h : (rule stop ts).Agree left (rule' stop ts))
    (hnext : ∀ a rest, left rest → (next a stop rest).Agree left' (next' a stop rest)) :
    ((rule >>= next) stop ts).Agree left' ((rule' >>= next') stop ts) := by
  show (Rule.bind rule next stop ts).Agree left' (Rule.bind rule' next' stop ts)
  unfold Rule.bind
  generalize rule stop ts = o at h
  generalize rule' stop ts = o' at h
  cases h with
  | read hleft => exact hnext _ _ hleft
  | refused => exact .refused

/-- Readings that accept a token and go on agree if they do where it is there and where it is not.
-/
theorem accept {k : TokenKind} {next next' : Option Token → Rule β}
    (hsome : ∀ p rest, ts = ⟨k, p⟩ :: rest →
      (next (some ⟨k, p⟩) stop rest).Agree left (next' (some ⟨k, p⟩) stop rest))
    (hnone : (next none stop ts).Agree left (next' none stop ts)) :
    ((Grammar.accept k >>= next) stop ts).Agree left ((Grammar.accept k >>= next') stop ts) := by
  by_cases hk : nextKind ts = some k
  · obtain ⟨p, rest, rfl⟩ := exists_of_nextKind hk
    rw [bind_of_read (accept_cons p), bind_of_read (accept_cons p)]
    exact hsome p rest rfl
  · rw [bind_of_read (accept_of_ne hk), bind_of_read (accept_of_ne hk)]
    exact hnone

/-- To look at a token does not tell them apart. -/
theorem peek {next next' : Option Token → Rule β}
    (h : (next ts.head? stop ts).Agree left (next' ts.head? stop ts)) :
    ((Grammar.peek >>= next) stop ts).Agree left ((Grammar.peek >>= next') stop ts) :=
  h

/-- The same for rules that choose by whether the token is there. -/
theorem ifAccept {k : TokenKind} {yes yes' no no' : Rule β}
    (hyes : ∀ p rest, ts = ⟨k, p⟩ :: rest → (yes stop rest).Agree left (yes' stop rest))
    (hno : (no stop ts).Agree left (no' stop ts)) :
    ((Grammar.accept k >>= fun o => if o.isSome then yes else no) stop ts).Agree left
      ((Grammar.accept k >>= fun o => if o.isSome then yes' else no') stop ts) :=
  accept hyes hno

/-- A token that is taken leaves an end of the tokens. -/
theorem next {next next' : Option Token → Rule β}
    (h : ∀ o rest, rest <:+ ts → (next o stop rest).Agree left (next' o stop rest)) :
    ((Grammar.next >>= next) stop ts).Agree left ((Grammar.next >>= next') stop ts) :=
  h _ _ (List.tail_suffix ts)

/-- So do line feeds that are dropped. -/
theorem skipNewlines {next next' : Unit → Rule β}
    (h : ∀ rest, rest <:+ ts → (next () stop rest).Agree left (next' () stop rest)) :
    ((Grammar.skipNewlines >>= next) stop ts).Agree left
      ((Grammar.skipNewlines >>= next') stop ts) :=
  h _ (List.dropWhile_suffix _)

/-- And separators. -/
theorem skipSeparators {next next' : Unit → Rule β}
    (h : ∀ rest, rest <:+ ts → (next () stop rest).Agree left (next' () stop rest)) :
    ((Grammar.skipSeparators >>= next) stop ts).Agree left
      ((Grammar.skipSeparators >>= next') stop ts) :=
  h _ (List.dropWhile_suffix _)

/-- Only the watched side asks what is left. -/
theorem remaining {o : Outcome β} {next : List Token → Rule β}
    (h : o.Agree left (next ts stop ts)) : o.Agree left ((Grammar.remaining >>= next) stop ts) :=
  h

/-- A silent watch is not noticed. -/
theorem watch {watch : Watch} {site : Site} {o : Outcome β} {next : Unit → Rule β}
    (hsilent : watch site stop ts = .read () ts) (h : o.Agree left (next () stop ts)) :
    o.Agree left ((watch site >>= next) stop ts) := by
  rw [bind_of_read hsilent]
  exact h

end Outcome.Agree

/-- On what is left of the tokens, if it is short enough, the rules agree and take a token. -/
def Rule.Agrees (tokens : List Token) (bound : Nat) (rule rule' : Rule α) : Prop :=
  ∀ (stop : Position) {ts : List Token}, ts <:+ tokens → ts.length < bound →
    (rule stop ts).Agree (Behind ts) (rule' stop ts)

section Rules

variable {tokens : List Token} {watch : Watch} {stop : Position} {ts ts' : List Token}
  {bound budget budget' : Nat}

/-- Where a token has been taken, a bound that is less by one will do. -/
theorem Rule.Agrees.behind {rule rule' : Rule α} {bound' : Nat}
    (h : Rule.Agrees tokens bound' rule rule') (hbehind : Behind ts ts') (hts : ts <:+ tokens)
    (hshort : ts.length < bound) (hbound : bound ≤ bound' + 1) :
    (rule stop ts').Agree (Behind ts) (rule' stop ts') := by
  have hshorter := hbehind.2
  exact (h stop (hbehind.1.trans hts) (by omega)).mono fun _ => hbehind.trans

/-- A rule that comes to be read later in the tokens leaves less of them. -/
theorem Rule.Agrees.after {rule rule' : Rule α} (h : Rule.Agrees tokens bound rule rule')
    (hts' : ts' <:+ ts) (hts : ts <:+ tokens) (hshort : ts.length < bound) :
    (rule stop ts').Agree (Behind ts) (rule' stop ts') :=
  (h stop (hts'.trans hts) (Nat.lt_of_le_of_lt hts'.length_le hshort)).mono
    fun _ hrest => hrest.after_suffix hts'

variable (hwatch : watch.SilentWhere (Site.Fine tokens))

include hwatch

/-- The watch is silent where only line feeds are left. -/
theorem agree_missing {left : List Token → Prop} {expected : Expected} (h : Newlines ts) :
    ((missing expected : Rule α) stop ts).Agree left (Watched.missing watch expected stop ts) :=
  .watch (hwatch .missing stop ts ⟨h, trivial⟩) .refused

/-- A token that is expected is there, or another one is blamed, or only line feeds are left. -/
theorem agree_expect {k : TokenKind} {expected : Expected} :
    (expect k expected stop ts).Agree (Behind ts) (Watched.expect watch k expected stop ts) := by
  refine .ifAccept ?_ ?_
  · rintro p rest rfl
    exact .read .tail
  · cases ts with
    | nil => exact agree_missing hwatch .nil
    | cons t ts => exact .refused

/-- Before another round, the watch has nothing to say. -/
theorem agree_again {left : List Token → Prop} {o : Outcome β} {next : Unit → Rule β}
    (hbehind : Behind ts ts') (h : o.Agree left (next () stop ts')) :
    o.Agree left ((watch (.again ts) >>= next) stop ts') :=
  .watch (hwatch _ _ _ ⟨trivial, hbehind⟩) h

/-- To look past line feeds is fine at an end of the tokens. -/
theorem agree_peekPastNewlines {left : List Token → Prop} {next next' : Option Token → Rule β}
    (hts : ts <:+ tokens) (hsome : ∀ t, (next (some t) stop ts).Agree left (next' (some t) stop ts))
    (hnone : Newlines ts → (next none stop ts).Agree left (next' none stop ts)) :
    ((peekPastNewlines >>= next) stop ts).Agree left
      ((Watched.peekPastNewlines watch >>= next') stop ts) := by
  have hpeek : peekPastNewlines stop ts = .read (ts.find? (·.kind != .newline)) ts := rfl
  have hwatched : Watched.peekPastNewlines watch stop ts = .read (ts.find? (·.kind != .newline)) ts :=
    bind_of_read (hwatch .lookahead stop ts ⟨trivial, hts⟩)
  rw [bind_of_read hpeek, bind_of_read hwatched]
  cases hfind : ts.find? (·.kind != .newline) with
  | some t => exact hsome t
  | none => exact hnone fun t ht => by simpa using List.find?_eq_none.mp hfind t ht

section Parts

variable {part part' : Rule Expr} (hpart : Rule.Agrees tokens bound part part')

include hpart

/-! ## Lists of parts -/

/-- Every item takes a token. -/
theorem agree_items (close : TokenKind) (expected : Expected) : ∀ budget budget' : Nat,
    Rule.Agrees tokens (min bound (min budget budget')) (items part close expected budget)
      (Watched.items watch part' close expected budget')
  | 0, _ | _, 0 => fun _ _ _ hshort => by omega
  | budget + 1, budget' + 1 => by
    intro stop ts hts hshort
    have hrounds := agree_items close expected budget budget'
    rw [items, Watched.items]
    refine .remaining (.ifAccept ?_ ?_)
    · rintro p rest rfl
      exact .read .tail
    · refine (hpart stop hts (by omega)).bind fun item ts' hitem => .ifAccept ?_ ?_
      · rintro p ts'' rfl
        have hbehind := hitem.trans .tail
        refine agree_again hwatch hbehind ?_
        exact (hrounds.behind hbehind hts hshort (by omega)).bind fun _ _ hmore => .read hmore
      · exact (agree_expect hwatch).bind fun _ _ hclose => .read (hitem.trans hclose)

/-- Every call takes its brackets. -/
theorem agree_callSuffix (hts : ts <:+ tokens) :
    ∀ (budget budget' : Nat) (callee : Expr) {ts'}, Behind ts ts' →
      ts'.length < min bound (min budget budget') →
        (callSuffix part budget callee stop ts').Agree (Behind ts)
          (Watched.callSuffix watch part' budget' callee stop ts')
  | 0, _, _, _, _, hshort | _, 0, _, _, _, hshort => by omega
  | budget + 1, budget' + 1, callee, ts', hbehind, hshort => by
    have hts' := hbehind.1.trans hts
    rw [callSuffix, Watched.callSuffix]
    refine .remaining (.ifAccept ?_ ?_)
    · rintro p ts₁ rfl
      have hitems := agree_items hwatch hpart (.closing .round) .closingRound (budget + 1)
        (budget' + 1)
      refine (hitems.behind .tail hts' hshort (by omega)).bind fun arguments ts₂ harguments => ?_
      have hshorter := harguments.2
      have hrounds := hbehind.trans harguments
      exact agree_again hwatch harguments (agree_callSuffix hts _ _ _ hrounds (by omega))
    · exact .read hbehind

/-- Every statement takes a token. -/
theorem agree_blockBody : ∀ budget budget' : Nat,
    Rule.Agrees tokens (min bound (min budget budget')) (blockBody part budget)
      (Watched.blockBody watch part' budget')
  | 0, _ | _, 0 => fun _ _ _ hshort => by omega
  | budget + 1, budget' + 1 => by
    intro stop ts hts hshort
    have hrounds := agree_blockBody budget budget'
    -- another round begins behind separators, or in front of the bracket that closes the block
    have hmore : ∀ {statement : Expr} {ts'}, Behind ts ts' →
        ((do return statement :: (← blockBody part budget) : Rule (List Expr)) stop ts').Agree
          (Behind ts)
          ((do watch (.again ts); return statement :: (← Watched.blockBody watch part' budget') :
            Rule (List Expr)) stop ts') := fun hbehind =>
      agree_again hwatch hbehind
        ((hrounds.behind hbehind hts hshort (by omega)).bind fun _ _ hmore => .read hmore)
    rw [blockBody, Watched.blockBody]
    refine .remaining (.ifAccept ?_ ?_)
    · rintro p rest rfl
      exact .read .tail
    · refine (hpart stop hts (by omega)).bind fun statement ts' hstatement => ?_
      cases ts' with
      | nil => exact agree_missing hwatch .nil
      | cons t ts' =>
        refine .peek ?_
        dsimp only [List.head?_cons]
        by_cases hseparator : t.kind.isSeparator
        · rw [if_pos hseparator, if_pos hseparator]
          exact .skipSeparators fun rest hrest => hmore (hstatement.of_suffix hrest)
        · rw [if_neg hseparator, if_neg hseparator]
          by_cases hclosing : t.kind = .closing .curly
          · rw [if_pos hclosing, if_pos hclosing]
            exact hmore hstatement
          · rw [if_neg hclosing, if_neg hclosing]
            exact .refused

/-- A block takes its closing brace. -/
theorem agree_block (budget budget' : Nat) (position : Position) :
    Rule.Agrees tokens (min bound (min budget budget')) (block part budget position)
      (Watched.block watch part' budget' position) := by
  intro stop ts hts hshort
  rw [block, Watched.block]
  refine .skipSeparators fun ts' hts' => ?_
  have hbody := agree_blockBody hwatch hpart budget budget'
  refine (hbody.after hts' hts hshort).bind fun body rest hrest => ?_
  cases body with
  | nil => exact .refused
  | cons statement more => exact .read hrest

/-- A condition takes its brackets. -/
theorem agree_condition :
    Rule.Agrees tokens bound (condition part) (Watched.condition watch part') := by
  intro stop ts hts hshort
  rw [condition, Watched.condition]
  refine (agree_expect hwatch).bind fun _ ts₁ hopening => ?_
  refine (hpart.behind hopening hts hshort (by omega)).bind fun c ts₂ hcondition => ?_
  refine (agree_expect hwatch).bind fun _ ts₃ hclosing => .skipNewlines fun rest hrest => ?_
  exact .read ((hcondition.trans hclosing).of_suffix hrest)

/-- Every branch takes its word. -/
theorem agree_furtherBranches : ∀ budget budget' : Nat,
    Rule.Agrees tokens (min bound (min budget budget')) (furtherBranches part budget)
      (Watched.furtherBranches watch part' budget')
  | 0, _ | _, 0 => fun _ _ _ hshort => by omega
  | budget + 1, budget' + 1 => by
    intro stop ts hts hshort
    have hrounds := agree_furtherBranches budget budget'
    rw [furtherBranches, Watched.furtherBranches]
    refine .remaining (agree_peekPastNewlines hwatch hts (fun t => ?_) (agree_missing hwatch))
    dsimp only
    by_cases helif : t.kind = .keyword .elifWord
    · rw [if_pos helif, if_pos helif]
      refine .skipNewlines fun ts₁ hts₁ => .next fun _ ts₂ hts₂ => ?_
      refine ((agree_condition hwatch hpart).after (hts₂.trans hts₁) hts (by omega)).bind
        fun c ts₃ hcondition => ?_
      refine (hpart.behind hcondition hts hshort (by omega)).bind fun body ts₄ hbody => ?_
      refine agree_again hwatch hbody ?_
      exact (hrounds.behind hbody hts hshort (by omega)).bind fun _ _ hmore => .read hmore
    · rw [if_neg helif, if_neg helif]
      by_cases helse : t.kind = .keyword .elseWord
      · rw [if_pos helse, if_pos helse]
        refine .skipNewlines fun ts₁ hts₁ => .next fun _ ts₂ hts₂ => .skipNewlines fun ts₃ hts₃ => ?_
        exact (hpart.after (hts₃.trans (hts₂.trans hts₁)) hts (by omega)).bind
          fun otherwise rest hotherwise => .read hotherwise
      · rw [if_neg helse, if_neg helse]
        exact .refused

/-- A conditional takes its first branch. -/
theorem agree_conditional (budget budget' : Nat) (position : Position) :
    Rule.Agrees tokens (min bound (min budget budget')) (conditional part budget position)
      (Watched.conditional watch part' budget' position) := by
  intro stop ts hts hshort
  rw [conditional, Watched.conditional]
  refine (agree_condition hwatch hpart stop hts (by omega)).bind fun c ts₁ hcondition => ?_
  refine (hpart.behind hcondition hts hshort (by omega)).bind fun body ts₂ hbody => ?_
  have hmore := agree_furtherBranches hwatch hpart budget budget'
  exact (hmore.behind hbody hts hshort (by omega)).bind fun more rest hrest => .read hrest

omit hpart in
/-- Every parameter takes its name. -/
theorem agree_parameters : ∀ (budget budget' : Nat) (seen : List String),
    Rule.Agrees tokens (min budget budget') (parameters budget seen)
      (Watched.parameters watch budget' seen)
  | 0, _, _ | _, 0, _ => fun _ _ _ hshort => by omega
  | budget + 1, budget' + 1, seen => by
    intro stop ts hts hshort
    rw [parameters, Watched.parameters]
    cases ts with
    | nil => exact agree_missing hwatch .nil
    | cons t ts =>
      obtain ⟨k, p⟩ := t
      cases k with
      | identifier name =>
        show ((if seen.contains name then _ else _ : Rule (List String)) stop ts).Agree _
          ((if seen.contains name then _ else _ : Rule (List String)) stop ts)
        split
        · exact .refused
        · refine .ifAccept ?_ ?_
          · rintro q ts' rfl
            have hbehind : Behind (⟨.identifier name, p⟩ :: ⟨.comma, q⟩ :: ts') ts' :=
              .trans .tail .tail
            refine agree_again hwatch hbehind ?_
            have hrounds := agree_parameters budget budget' (name :: seen)
            exact (hrounds.behind hbehind hts hshort (by omega)).bind fun _ _ hmore => .read hmore
          · exact (agree_expect hwatch).bind fun _ _ hclose => .read (.trans .tail hclose)
      | _ => exact .refused

/-- A function takes its body. -/
theorem agree_function (budget budget' : Nat) (position : Position) :
    Rule.Agrees tokens (min bound (min budget budget')) (function part budget position)
      (Watched.function watch part' budget' position) := by
  intro stop ts hts hshort
  -- what follows the parameters is the same whether there are any or not
  have hbody : ∀ (names : List String) {ts'}, Behind ts ts' →
      ((do skipNewlines; return .function names (← part) position : Rule Expr) stop ts').Agree
        (Behind ts)
        ((do skipNewlines; return .function names (← part') position : Rule Expr) stop ts') :=
    fun names _ hbehind => .skipNewlines fun _ hrest =>
      (hpart.behind (hbehind.of_suffix hrest) hts hshort (by omega)).bind fun _ _ hbody => .read hbody
  rw [function, Watched.function]
  refine .ifAccept ?_ ?_
  · rintro p ts' rfl
    exact hbody [] .tail
  · exact (agree_parameters hwatch budget budget' [] stop hts (by omega)).bind
      fun names _ hnames => hbody names hnames

/-! ## From primaries to assignments -/

/-- An operand takes its first token, so that the expressions in it may have a budget less by one.
-/
theorem agree_primary (budget budget' : Nat) :
    Rule.Agrees tokens (min (bound + 1) (min budget budget')) (primary part budget)
      (Watched.primary watch part' budget') := by
  intro stop ts hts hshort
  cases ts with
  | nil => exact agree_missing hwatch .nil
  | cons t ts =>
    obtain ⟨k, p⟩ := t
    -- the first token is taken, which is why the parts need no more than the lesser bound
    have hcalls : ∀ (callee : Expr) {ts'}, Behind (⟨k, p⟩ :: ts) ts' →
        (callSuffix part budget callee stop ts').Agree (Behind (⟨k, p⟩ :: ts))
          (Watched.callSuffix watch part' budget' callee stop ts') := fun callee _ hbehind => by
      have hshorter := hbehind.2
      exact agree_callSuffix hwatch hpart hts budget budget' callee hbehind (by omega)
    cases k with
    | number value => exact .read .tail
    | quoted body => exact .read .tail
    | identifier name => exact hcalls _ .tail
    | keyword word =>
      cases word with
      | trueWord => exact .read .tail
      | falseWord => exact .read .tail
      | ifWord =>
        have hconditional := agree_conditional hwatch hpart budget budget' p
        exact hconditional.behind .tail hts hshort (by omega)
      | _ => exact .refused
    | opening b =>
      cases b with
      | round =>
        show ((do let e ← part; expect _ _; callSuffix part budget e : Rule Expr) stop ts).Agree _
          ((do
            let e ← part'
            Watched.expect watch _ _
            Watched.callSuffix watch part' budget' e : Rule Expr) stop ts)
        refine (hpart.behind .tail hts hshort (by omega)).bind fun inner ts₁ hinner => ?_
        exact (agree_expect hwatch).bind fun _ ts₂ hclosing => hcalls _ (hinner.trans hclosing)
      | square =>
        show ((do let es ← items part _ _ budget; return .vector es p : Rule Expr) stop ts).Agree _
          ((do
            let es ← Watched.items watch part' _ _ budget'
            return .vector es p : Rule Expr) stop ts)
        have hitems := agree_items hwatch hpart (.closing .square) .commaOrClosingSquare budget budget'
        exact (hitems.behind .tail hts hshort (by omega)).bind fun _ _ hrest => .read hrest
      | curly =>
        have hblock := agree_block hwatch hpart budget budget' p
        exact hblock.behind .tail hts hshort (by omega)
    | operator op =>
      cases op with
      | or =>
        have hfunction := agree_function hwatch hpart budget budget' p
        exact hfunction.behind .tail hts hshort (by omega)
      | _ => exact .refused
    | _ => exact .refused

end Parts

section Operands

variable {operand operand' : Rule Expr} (hoperand : Rule.Agrees tokens bound operand operand')

include hoperand

omit hwatch in
/-- Every prefix operator takes a token. -/
theorem agree_unary : ∀ budget budget' : Nat,
    Rule.Agrees tokens (min bound (min budget budget')) (unary operand budget)
      (unary operand' budget')
  | 0, _ | _, 0 => fun _ _ _ hshort => by omega
  | budget + 1, budget' + 1 => by
    intro stop ts hts hshort
    have hplain := hoperand stop hts (by omega)
    have hrounds := agree_unary budget budget'
    rw [unary, unary]
    refine .peek ?_
    cases ts with
    | nil => exact hplain
    | cons t ts =>
      dsimp only [List.head?_cons]
      cases prefixOp? t.kind with
      | none => exact hplain
      | some op =>
        exact (hrounds.behind .tail hts hshort (by omega)).bind fun _ _ hinner => .read hinner

/-- Every link takes its arrow. -/
theorem agree_links (hts : ts <:+ tokens) :
    ∀ (budget budget' : Nat) (left : Expr) {ts'}, Behind ts ts' →
      ts'.length < min bound (min budget budget') →
        (links operand budget left stop ts').Agree (Behind ts)
          (Watched.links watch operand' budget' left stop ts')
  | 0, _, _, _, _, hshort | _, 0, _, _, _, hshort => by omega
  | budget + 1, budget' + 1, left, ts', hbehind, hshort => by
    have hts' := hbehind.1.trans hts
    rw [links, Watched.links]
    refine .remaining (.accept ?_ (.read hbehind))
    rintro p ts₁ rfl
    refine .skipNewlines fun ts₂ hts₂ => ?_
    have hsuffix : ts₂ <:+ ⟨.arrow, p⟩ :: ts₁ := hts₂.trans (List.suffix_cons _ ts₁)
    refine (hoperand.after hsuffix hts' (by omega)).bind fun right ts₃ hright => ?_
    have hshorter := hright.2
    have hrounds := hbehind.trans hright
    exact agree_again hwatch hright (agree_links hts _ _ _ hrounds (by omega))

/-- A pipeline takes its first operand. -/
theorem agree_chain (budget budget' : Nat) :
    Rule.Agrees tokens (min bound (min budget budget')) (chain operand budget)
      (Watched.chain watch operand' budget') := by
  intro stop ts hts hshort
  rw [chain, Watched.chain]
  refine (agree_unary hoperand budget budget' stop hts hshort).bind fun left ts' hleft => ?_
  exact agree_links hwatch hoperand hts budget budget' left hleft (Nat.lt_trans hleft.2 hshort)

/-- Every operation takes its operator. -/
theorem agree_operations (level : Nat) (hts : ts <:+ tokens) :
    ∀ (budget budget' : Nat) (left : Expr) {ts'}, Behind ts ts' →
      ts'.length < min bound (min budget budget') →
        (operations operand level budget left stop ts').Agree (Behind ts)
          (Watched.operations watch operand' level budget' left stop ts')
  | 0, _, _, _, _, hshort | _, 0, _, _, _, hshort => by omega
  | budget + 1, budget' + 1, left, ts', hbehind, hshort => by
    have hts' := hbehind.1.trans hts
    rw [operations, Watched.operations]
    refine .remaining (.peek ?_)
    cases ts' with
    | nil => exact .read hbehind
    | cons t ts₁ =>
      dsimp only [List.head?_cons]
      cases binaryOp? level t.kind with
      | none => exact .read hbehind
      | some op =>
        dsimp only
        refine .next fun _ ts₂ hts₂ => .skipNewlines fun ts₃ hts₃ => ?_
        refine (hoperand.after (hts₃.trans hts₂) hts' (by omega)).bind fun right ts₄ hright => ?_
        have hshorter := hright.2
        have hrounds := hbehind.trans hright
        exact agree_again hwatch hright (agree_operations level hts _ _ _ hrounds (by omega))

/-- The operations of all levels: by induction on the levels. -/
theorem agree_binary (budget budget' : Nat) (hbudget : bound ≤ min budget budget') (levels : Nat) :
    Rule.Agrees tokens bound (binary operand budget levels)
      (Watched.binary watch operand' budget' levels) := by
  induction levels with
  | zero => exact hoperand
  | succ levels ih =>
    intro stop ts hts hshort
    refine (ih stop hts hshort).bind fun left ts' hleft => ?_
    have hshorter := hleft.2
    exact agree_operations hwatch ih _ hts budget budget' left hleft (by omega)

omit hwatch in
/-- Every assignment takes its name. -/
theorem agree_assignments (isLocal : Bool) : ∀ budget budget' : Nat,
    Rule.Agrees tokens (min bound (min budget budget')) (assignments operand isLocal budget)
      (assignments operand' isLocal budget')
  | 0, _ | _, 0 => fun _ _ _ hshort => by omega
  | budget + 1, budget' + 1 => by
    intro stop ts hts hshort
    have hrounds := agree_assignments isLocal budget budget'
    rw [assignments, assignments]
    refine (hoperand stop hts (by omega)).bind fun target ts₁ htarget => .ifAccept ?_ (.read htarget)
    rintro p ts₂ rfl
    refine .skipNewlines fun ts₃ hts₃ => ?_
    have hbehind := (htarget.trans .tail).of_suffix hts₃
    cases target with
    | identifier name q =>
      exact (hrounds.behind hbehind hts hshort (by omega)).bind fun _ _ hvalue => .read hvalue
    | _ => exact .refused

omit hwatch in
/-- The word `local` is one token more. -/
theorem agree_assignment (budget budget' : Nat) :
    Rule.Agrees tokens (min bound (min budget budget')) (assignment operand budget)
      (assignment operand' budget') := by
  intro stop ts hts hshort
  rw [assignment, assignment]
  refine .accept ?_ ?_
  · rintro p ts' rfl
    have hlocal := agree_assignments hoperand true budget budget'
    refine (hlocal.behind .tail hts hshort (by omega)).bind fun e rest hrest => ?_
    cases isAssignment e with
    | true => exact .read hrest
    | false => exact .refused
  · exact agree_assignments hoperand false budget budget' stop hts hshort

end Operands

/-- **The rule of an expression comes to an end and takes a token, under watch as without.** Budgets
that cover the tokens make no difference. -/
theorem agree_expression : ∀ budget budget' : Nat,
    Rule.Agrees tokens (min budget budget') (expression budget)
      (Watched.expression watch budget')
  | 0, _ | _, 0 => fun _ _ _ hshort => by omega
  | budget + 1, budget' + 1 => by
    intro stop ts hts hshort
    have hprimary := agree_primary hwatch (agree_expression budget budget') (budget + 1) (budget' + 1)
    have hchain := agree_chain hwatch hprimary (budget + 1) (budget' + 1)
    have hbinary := agree_binary hwatch hchain (budget + 1) (budget' + 1) (by omega) BinaryOp.levels
    exact agree_assignment hbinary (budget + 1) (budget' + 1) stop hts (by omega)

end Rules

end Grammar

end Abacus
