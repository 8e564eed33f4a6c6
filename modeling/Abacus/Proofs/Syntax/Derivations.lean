import Abacus.Proofs.Syntax.Inversion

/-!
# What the tokens of an expression are used as

One kind of token is used in several ways: `|` is an operator, and it begins and ends parameters; `)`
closes a group, a list of arguments and a condition. What each token of an expression is used as is
not in the tree. It is told by a derivation: the grammar as a relation between a goal, the tokens
that it takes with what each of them is used as, and the kind of the token after them, by which the
rules of the grammar look ahead.

**The law** (`derives_of_ofTokens`): every expression that is read has a derivation from its tokens.
-/

namespace Abacus

namespace Grammar

/-! ## Uses -/

/-- What a token is used as, so far as line feeds beside it depend on that. -/
inductive Role where
  | plain
  | binaryOperator
  | equals
  | arrow
  /-- It closes the condition of a branch. -/
  | conditionEnd
  /-- It closes the parameters of a function. -/
  | parametersEnd
  | elifWord
  | elseWord
deriving DecidableEq

/-- A token with what it is used as. -/
structure Use where
  token : Token
  role : Role
deriving DecidableEq

/-- A token beside which line feeds mean something. -/
def Use.plain (t : Token) : Use := ⟨t, .plain⟩

@[simp] theorem Use.token_plain (t : Token) : (Use.plain t).token = t := rfl

/-- The kind of the next token, which is the first of some uses or follows them. -/
def nextOf (us : List Use) (next : Option TokenKind) : Option TokenKind :=
  match us with
  | [] => next
  | u :: _ => some u.token.kind

/-- What comes after some tokens is the first of them, or what comes after all. -/
theorem nextKind_append (us : List Use) (rest : List Token) :
    nextKind (us.map Use.token ++ rest) = nextOf us (nextKind rest) := by
  cases us <;> rfl

@[simp] theorem Use.token_comp_plain : Use.token ∘ Use.plain = id := rfl

/-! ## Derivations -/

/-- What a rule of the grammar reads. -/
inductive Goal where
  | expression (e : Expr)
  | assignments (isLocal : Bool) (e : Expr)
  /-- An expression of the tightest levels. -/
  | binary (levels : Nat) (e : Expr)
  /-- The operations that follow an operand and make an expression of it. -/
  | operations (levels : Nat) (left e : Expr)
  | chain (e : Expr)
  | links (left e : Expr)
  | unary (e : Expr)
  | primary (e : Expr)
  | callSuffix (callee e : Expr)
  | items (b : Bracket) (es : List Expr)
  | blockBody (es : List Expr)
  /-- A condition in its brackets, and what is evaluated if it holds. -/
  | branch (c body : Expr)
  | furtherBranches (branches : List (Expr × Expr)) (otherwise : Expr)
  | parameters (seen names : List String)
  /-- Parameters and the bar that closes them, also if there are none. -/
  | signature (names : List String)

/-- The value that is written as one token. -/
def literal? : TokenKind → Option Literal
  | .number value => some (.number value)
  | .keyword .trueWord => some (.boolean true)
  | .keyword .falseWord => some (.boolean false)
  | .quoted body => some (.quoted body)
  | _ => none

/-- **The grammar as a relation**: a goal is reached by tokens that are used in some way, if a token
of some kind, or none, follows them. -/
inductive Derives : Goal → List Use → Option TokenKind → Prop
  | localAssignment {e : Expr} {p : Position} {us : List Use} {next : Option TokenKind} :
    isAssignment e → Derives (.assignments true e) us next →
    Derives (.expression e) (.plain ⟨.keyword .localWord, p⟩ :: us) next
  | assignment {e : Expr} {us : List Use} {next : Option TokenKind} :
    Derives (.assignments false e) us next → Derives (.expression e) us next
  | assign {isLocal : Bool} {name : String} {value : Expr} {p q : Position} {gap : List Token}
    {us us' : List Use} {next : Option TokenKind} :
    Derives (.binary BinaryOp.levels (.identifier name q)) us (some .assign) → Newlines gap →
    Derives (.assignments isLocal value) us' next →
    Derives (.assignments isLocal (.assign name value isLocal q))
      (us ++ ⟨⟨.assign, p⟩, .equals⟩ :: (gap.map .plain ++ us')) next
  | noAssign {isLocal : Bool} {e : Expr} {us : List Use} {next : Option TokenKind} :
    Derives (.binary BinaryOp.levels e) us next → next ≠ some .assign →
    Derives (.assignments isLocal e) us next
  | tightest {e : Expr} {us : List Use} {next : Option TokenKind} :
    Derives (.chain e) us next → Derives (.binary 0 e) us next
  | level {levels : Nat} {left e : Expr} {us us' : List Use} {next : Option TokenKind} :
    Derives (.binary levels left) us (nextOf us' next) →
    Derives (.operations levels left e) us' next → Derives (.binary (levels + 1) e) (us ++ us') next
  | operation {levels : Nat} {op : BinaryOp} {left right e : Expr} {k : TokenKind} {p : Position}
    {gap : List Token} {us us' : List Use} {next : Option TokenKind} :
    binaryOp? (BinaryOp.levels - (levels + 1)) k = some op → Newlines gap →
    Derives (.binary levels right) us (nextOf us' next) →
    Derives (.operations levels (.binary op left right p) e) us' next →
    Derives (.operations levels left e)
      (⟨⟨k, p⟩, .binaryOperator⟩ :: (gap.map .plain ++ (us ++ us'))) next
  | noOperation {levels : Nat} {left : Expr} {next : Option TokenKind} :
    (∀ k, next = some k → binaryOp? (BinaryOp.levels - (levels + 1)) k = none) →
    Derives (.operations levels left left) [] next
  | chain {left e : Expr} {us us' : List Use} {next : Option TokenKind} :
    Derives (.unary left) us (nextOf us' next) → Derives (.links left e) us' next →
    Derives (.chain e) (us ++ us') next
  | link {left right e : Expr} {p : Position} {gap : List Token} {us us' : List Use}
    {next : Option TokenKind} : Newlines gap → Derives (.primary right) us (nextOf us' next) →
    Derives (.links (link left right p) e) us' next →
    Derives (.links left e) (⟨⟨.arrow, p⟩, .arrow⟩ :: (gap.map .plain ++ (us ++ us'))) next
  | noLink {left : Expr} {next : Option TokenKind} : next ≠ some .arrow →
    Derives (.links left left) [] next
  | prefixed {op : UnaryOp} {e : Expr} {k : TokenKind} {p : Position} {us : List Use}
    {next : Option TokenKind} : prefixOp? k = some op → Derives (.unary e) us next →
    Derives (.unary (.unary op e p)) (.plain ⟨k, p⟩ :: us) next
  | noPrefix {e : Expr} {us : List Use} {next : Option TokenKind} :
    Derives (.primary e) us next → Derives (.unary e) us next
  | literal {value : Literal} {k : TokenKind} {p : Position} {next : Option TokenKind} :
    literal? k = some value → Derives (.primary (.literal value p)) [.plain ⟨k, p⟩] next
  | name {name : String} {e : Expr} {p : Position} {us : List Use} {next : Option TokenKind} :
    Derives (.callSuffix (.identifier name p) e) us next →
    Derives (.primary e) (.plain ⟨.identifier name, p⟩ :: us) next
  | group {inner e : Expr} {p q : Position} {us us' : List Use} {next : Option TokenKind} :
    Derives (.expression inner) us (some (.closing .round)) →
    Derives (.callSuffix inner e) us' next →
    Derives (.primary e)
      (.plain ⟨.opening .round, p⟩ :: (us ++ .plain ⟨.closing .round, q⟩ :: us')) next
  | vector {es : List Expr} {p : Position} {us : List Use} {next : Option TokenKind} :
    Derives (.items .square es) us next →
    Derives (.primary (.vector es p)) (.plain ⟨.opening .square, p⟩ :: us) next
  | block {es : List Expr} {p : Position} {gap : List Token} {us : List Use}
    {next : Option TokenKind} : Separators gap → Derives (.blockBody es) us next → es ≠ [] →
    Derives (.primary (.block es p)) (.plain ⟨.opening .curly, p⟩ :: (gap.map .plain ++ us)) next
  | conditional {c body otherwise : Expr} {more : List (Expr × Expr)} {p : Position}
    {us us' : List Use} {next : Option TokenKind} : Derives (.branch c body) us (nextOf us' next) →
    Derives (.furtherBranches more otherwise) us' next →
    Derives (.primary (.conditional ((c, body) :: more) otherwise p))
      (.plain ⟨.keyword .ifWord, p⟩ :: (us ++ us')) next
  | function {names : List String} {body : Expr} {p : Position} {gap : List Token}
    {us us' : List Use} {next : Option TokenKind} :
    Derives (.signature names) us (nextOf (gap.map .plain ++ us') next) → Newlines gap →
    Derives (.expression body) us' next →
    Derives (.primary (.function names body p))
      (.plain ⟨.operator .or, p⟩ :: (us ++ (gap.map .plain ++ us'))) next
  | call {callee e : Expr} {es : List Expr} {p : Position} {us us' : List Use}
    {next : Option TokenKind} : Derives (.items .round es) us (nextOf us' next) →
    Derives (.callSuffix (.call callee es callee.position) e) us' next →
    Derives (.callSuffix callee e) (.plain ⟨.opening .round, p⟩ :: (us ++ us')) next
  | noCall {callee : Expr} {next : Option TokenKind} : next ≠ some (.opening .round) →
    Derives (.callSuffix callee callee) [] next
  | noItem {b : Bracket} {q : Position} {next : Option TokenKind} :
    Derives (.items b []) [.plain ⟨.closing b, q⟩] next
  | item {b : Bracket} {e : Expr} {es : List Expr} {q : Position} {us us' : List Use}
    {next : Option TokenKind} : Derives (.expression e) us (some .comma) →
    Derives (.items b es) us' next →
    Derives (.items b (e :: es)) (us ++ .plain ⟨.comma, q⟩ :: us') next
  | lastItem {b : Bracket} {e : Expr} {q : Position} {us : List Use} {next : Option TokenKind} :
    Derives (.expression e) us (some (.closing b)) →
    Derives (.items b [e]) (us ++ [.plain ⟨.closing b, q⟩]) next
  | noStatement {q : Position} {next : Option TokenKind} :
    Derives (.blockBody []) [.plain ⟨.closing .curly, q⟩] next
  | statement {e : Expr} {es : List Expr} {t : Token} {gap : List Token} {us us' : List Use}
    {next : Option TokenKind} : Derives (.expression e) us (some t.kind) →
    Separators (t :: gap) → Derives (.blockBody es) us' next →
    Derives (.blockBody (e :: es)) (us ++ .plain t :: (gap.map .plain ++ us')) next
  | lastStatement {e : Expr} {q : Position} {us : List Use} {next : Option TokenKind} :
    Derives (.expression e) us (some (.closing .curly)) →
    Derives (.blockBody [e]) (us ++ [.plain ⟨.closing .curly, q⟩]) next
  | branch {c body : Expr} {p q : Position} {gap : List Token} {us us' : List Use}
    {next : Option TokenKind} : Derives (.expression c) us (some (.closing .round)) → Newlines gap →
    Derives (.expression body) us' next →
    Derives (.branch c body) (.plain ⟨.opening .round, p⟩ ::
      (us ++ ⟨⟨.closing .round, q⟩, .conditionEnd⟩ :: (gap.map .plain ++ us'))) next
  | elifBranch {c body otherwise : Expr} {more : List (Expr × Expr)} {p : Position}
    {gap : List Token} {us us' : List Use} {next : Option TokenKind} : Newlines gap →
    Derives (.branch c body) us (nextOf us' next) →
    Derives (.furtherBranches more otherwise) us' next →
    Derives (.furtherBranches ((c, body) :: more) otherwise)
      (gap.map .plain ++ ⟨⟨.keyword .elifWord, p⟩, .elifWord⟩ :: (us ++ us')) next
  | elseBranch {otherwise : Expr} {p : Position} {gap gap' : List Token} {us : List Use}
    {next : Option TokenKind} : Newlines gap → Newlines gap' →
    Derives (.expression otherwise) us next →
    Derives (.furtherBranches [] otherwise)
      (gap.map .plain ++ ⟨⟨.keyword .elseWord, p⟩, .elseWord⟩ :: (gap'.map .plain ++ us)) next
  | parameter {seen names : List String} {name : String} {p q : Position} {us : List Use}
    {next : Option TokenKind} : name ∉ seen → Derives (.parameters (name :: seen) names) us next →
    Derives (.parameters seen (name :: names))
      (.plain ⟨.identifier name, p⟩ :: .plain ⟨.comma, q⟩ :: us) next
  | lastParameter {seen : List String} {name : String} {p q : Position} {next : Option TokenKind} :
    name ∉ seen →
    Derives (.parameters seen [name])
      [.plain ⟨.identifier name, p⟩, ⟨⟨.operator .or, q⟩, .parametersEnd⟩] next
  | noParameters {q : Position} {next : Option TokenKind} :
    Derives (.signature []) [⟨⟨.operator .or, q⟩, .parametersEnd⟩] next
  | someParameters {names : List String} {us : List Use} {next : Option TokenKind} :
    Derives (.parameters [] names) us next → Derives (.signature names) us next

/-- A literal is read from its token whatever follows. -/
theorem primary_literal {part : Rule Expr} {budget : Nat} {stop p : Position} {ts : List Token}
    {k : TokenKind} {value : Literal} (h : literal? k = some value) :
    primary part budget stop (⟨k, p⟩ :: ts) = .read (.literal value p) ts := by
  unfold literal? at h
  split at h <;> cases h <;> rfl

/-! ## Every run has a derivation -/

/-- What the rule reads, and the tokens that it takes for it, have a derivation. -/
def Rule.Derives {α : Type} (rule : Rule α) (goal : α → Goal) : Prop :=
  ∀ stop ts a rest, rule stop ts = .read a rest →
    ∃ us, ts = us.map Use.token ++ rest ∧ Grammar.Derives (goal a) us (nextKind rest)

section Rules

variable {part operand : Rule Expr} (hpart : part.Derives .expression)

include hpart

/-- The items of a list: what a round reads is a derivation of it, by induction on the budget as in
all loops below. -/
theorem derives_items (b : Bracket) (expected : Expected) :
    ∀ budget, (items part (.closing b) expected budget).Derives (.items b)
  | 0 => fun _ _ _ _ h => nomatch h
  | budget + 1 => by
    intro stop ts es rest h
    rcases items_read_iff.mp h with ⟨q, rfl, rfl⟩ |
      ⟨-, e, ts', hitem, ⟨q, ts'', more, rfl, hmore, rfl⟩ | ⟨q, rfl, rfl⟩⟩
    · exact ⟨[.plain ⟨.closing b, q⟩], rfl, .noItem⟩
    · obtain ⟨us, rfl, hus⟩ := hpart _ _ _ _ hitem
      obtain ⟨us', rfl, hus'⟩ := derives_items b expected budget _ _ _ _ hmore
      exact ⟨us ++ .plain ⟨.comma, q⟩ :: us', by simp, .item hus hus'⟩
    · obtain ⟨us, rfl, hus⟩ := hpart _ _ _ _ hitem
      exact ⟨us ++ [.plain ⟨.closing b, q⟩], by simp, .lastItem hus⟩

/-- The calls after an operand. -/
theorem derives_callSuffix :
    ∀ budget callee, (callSuffix part budget callee).Derives (.callSuffix callee)
  | 0, _ => fun _ _ _ _ h => nomatch h
  | budget + 1, callee => by
    intro stop ts e rest h
    rcases callSuffix_read_iff.mp h with ⟨p, ts', es, ts'', rfl, hes, hmore⟩ | ⟨hne, rfl, rfl⟩
    · obtain ⟨us, rfl, hus⟩ := derives_items hpart _ _ _ _ _ _ _ hes
      obtain ⟨us', rfl, hus'⟩ := derives_callSuffix budget _ _ _ _ _ hmore
      rw [nextKind_append] at hus
      exact ⟨.plain ⟨.opening .round, p⟩ :: (us ++ us'), by simp, .call hus hus'⟩
    · exact ⟨[], rfl, .noCall hne⟩

/-- The statements of a block. -/
theorem derives_blockBody : ∀ budget, (blockBody part budget).Derives .blockBody
  | 0 => fun _ _ _ _ h => nomatch h
  | budget + 1 => by
    intro stop ts es rest h
    rcases blockBody_read_iff.mp h with ⟨q, rfl, rfl⟩ |
      ⟨-, e, ts', hstatement, ⟨t, gap, ts'', more, rfl, hgap, -, hmore, rfl⟩ |
        ⟨hclosing, more, hmore, rfl⟩⟩
    · exact ⟨[.plain ⟨.closing .curly, q⟩], rfl, .noStatement⟩
    · obtain ⟨us, rfl, hus⟩ := hpart _ _ _ _ hstatement
      obtain ⟨us', rfl, hus'⟩ := derives_blockBody budget _ _ _ _ hmore
      exact ⟨us ++ .plain t :: (gap.map .plain ++ us'), by simp, .statement hus hgap hus'⟩
    · obtain ⟨us, rfl, hus⟩ := hpart _ _ _ _ hstatement
      obtain ⟨q, ts'', rfl⟩ := exists_of_nextKind hclosing
      -- nothing but the bracket is read behind the last statement
      obtain ⟨rfl, rfl⟩ : more = [] ∧ ts'' = rest := by
        cases budget with
        | zero => cases hmore
        | succ budget =>
          rcases blockBody_read_iff.mp hmore with ⟨q', heq, rfl⟩ | ⟨hne, -⟩
          · cases heq
            exact ⟨rfl, rfl⟩
          · exact absurd rfl hne
      exact ⟨us ++ [.plain ⟨.closing .curly, q⟩], by simp, .lastStatement hus⟩

/-- A branch: its condition and its body. -/
theorem derives_branch {stop : Position} {ts ts₁ rest : List Token} {c body : Expr}
    (hc : condition part stop ts = .read c ts₁) (hbody : part stop ts₁ = .read body rest) :
    ∃ us, ts = us.map Use.token ++ rest ∧ Derives (.branch c body) us (nextKind rest) := by
  obtain ⟨p, ts', q, gap, rfl, hc, hgap, -⟩ := condition_read_iff.mp hc
  obtain ⟨us, rfl, hus⟩ := hpart _ _ _ _ hc
  obtain ⟨us', rfl, hus'⟩ := hpart _ _ _ _ hbody
  exact ⟨.plain ⟨.opening .round, p⟩ ::
    (us ++ ⟨⟨.closing .round, q⟩, .conditionEnd⟩ :: (gap.map .plain ++ us')), by simp,
    .branch hus hgap hus'⟩

/-- The further branches of a conditional. -/
theorem derives_furtherBranches :
    ∀ budget, (furtherBranches part budget).Derives fun more => .furtherBranches more.1 more.2
  | 0 => fun _ _ _ _ h => nomatch h
  | budget + 1 => by
    rintro stop ts ⟨more, otherwise⟩ rest h
    obtain ⟨gap, p, ts', hgap, ⟨rfl, c, ts₁, body, ts₂, others, hc, hbody, hmore, rfl⟩ |
      ⟨rfl, gap', ts₁, rfl, hgap', -, hother, rfl⟩⟩ := furtherBranches_read_iff.mp h
    · obtain ⟨us, rfl, hus⟩ := derives_branch hpart hc hbody
      obtain ⟨us', rfl, hus'⟩ := derives_furtherBranches budget _ _ _ _ hmore
      rw [nextKind_append] at hus
      exact ⟨gap.map .plain ++ ⟨⟨.keyword .elifWord, p⟩, .elifWord⟩ :: (us ++ us'), by simp,
        .elifBranch hgap hus hus'⟩
    · obtain ⟨us, rfl, hus⟩ := hpart _ _ _ _ hother
      exact ⟨gap.map .plain ++ ⟨⟨.keyword .elseWord, p⟩, .elseWord⟩ :: (gap'.map .plain ++ us), by simp,
        .elseBranch hgap hgap' hus⟩

omit hpart in
/-- The parameters of a function. -/
theorem derives_parameters : ∀ budget seen, (parameters budget seen).Derives (.parameters seen)
  | 0, _ => fun _ _ _ _ h => nomatch h
  | budget + 1, seen => by
    intro stop ts names rest h
    obtain ⟨name, p, ts', rfl, hseen, ⟨q, ts'', more, rfl, hmore, rfl⟩ | ⟨q, rfl, rfl⟩⟩ :=
      parameters_read_iff.mp h
    · obtain ⟨us, rfl, hus⟩ := derives_parameters budget _ _ _ _ _ hmore
      exact ⟨.plain ⟨.identifier name, p⟩ :: .plain ⟨.comma, q⟩ :: us, by simp, .parameter hseen hus⟩
    · exact ⟨[.plain ⟨.identifier name, p⟩, ⟨⟨.operator .or, q⟩, .parametersEnd⟩], by simp,
        .lastParameter hseen⟩

omit hpart in
/-- A literal. -/
theorem derives_literal {budget : Nat} {stop p : Position} {ts rest : List Token} {k : TokenKind}
    {value : Literal} {e : Expr} (hvalue : literal? k = some value)
    (h : primary part budget stop (⟨k, p⟩ :: ts) = .read e rest) :
    ∃ us, ⟨k, p⟩ :: ts = us.map Use.token ++ rest ∧ Derives (.primary e) us (nextKind rest) := by
  rw [primary_literal hvalue] at h
  cases h
  exact ⟨[.plain ⟨k, p⟩], rfl, .literal hvalue⟩

/-- An operand without prefixes, by its first token. -/
theorem derives_primary (budget : Nat) : (primary part budget).Derives .primary := by
  intro stop ts e rest h
  cases ts with
  | nil => cases h
  | cons t ts =>
    obtain ⟨k, p⟩ := t
    cases k with
    | number value => exact derives_literal rfl h
    | quoted body => exact derives_literal rfl h
    | identifier name =>
      obtain ⟨us, rfl, hus⟩ := derives_callSuffix hpart _ _ _ _ _ _ h
      exact ⟨.plain ⟨.identifier name, p⟩ :: us, rfl, .name hus⟩
    | keyword word =>
      cases word with
      | trueWord => exact derives_literal rfl h
      | falseWord => exact derives_literal rfl h
      | ifWord =>
        obtain ⟨c, ts₁, body, ts₂, more, otherwise, hc, hbody, hmore, rfl⟩ :=
          conditional_read_iff.mp h
        obtain ⟨us, rfl, hus⟩ := derives_branch hpart hc hbody
        obtain ⟨us', rfl, hus'⟩ := derives_furtherBranches hpart _ _ _ _ _ hmore
        rw [nextKind_append] at hus
        exact ⟨.plain ⟨.keyword .ifWord, p⟩ :: (us ++ us'), by simp, .conditional hus hus'⟩
      | _ => cases h
    | opening b =>
      cases b with
      | round =>
        obtain ⟨inner, q, ts', hinner, hcall⟩ := primary_group_read_iff.mp h
        obtain ⟨us, rfl, hus⟩ := hpart _ _ _ _ hinner
        obtain ⟨us', rfl, hus'⟩ := derives_callSuffix hpart _ _ _ _ _ _ hcall
        exact ⟨.plain ⟨.opening .round, p⟩ :: (us ++ .plain ⟨.closing .round, q⟩ :: us'), by simp,
          .group hus hus'⟩
      | square =>
        obtain ⟨es, hes, rfl⟩ := primary_vector_read_iff.mp h
        obtain ⟨us, rfl, hus⟩ := derives_items hpart _ _ _ _ _ _ _ hes
        exact ⟨.plain ⟨.opening .square, p⟩ :: us, rfl, .vector hus⟩
      | curly =>
        obtain ⟨gap, ts', es, rfl, hgap, -, hes, hne, rfl⟩ := block_read_iff.mp h
        obtain ⟨us, rfl, hus⟩ := derives_blockBody hpart _ _ _ _ _ hes
        exact ⟨.plain ⟨.opening .curly, p⟩ :: (gap.map .plain ++ us), by simp, .block hgap hus hne⟩
    | operator op =>
      cases op with
      | or =>
        obtain ⟨names, gap, ts', body, hgap, -, hbody, rfl, hnames⟩ := function_read_iff.mp h
        obtain ⟨us', rfl, hus'⟩ := hpart _ _ _ _ hbody
        have hsignature : ∃ us, ts = us.map Use.token ++ (gap ++ (us'.map Use.token ++ rest)) ∧
            Derives (.signature names) us (nextOf (gap.map .plain ++ us') (nextKind rest)) := by
          rcases hnames with ⟨q, rfl, rfl⟩ | ⟨-, hnames⟩
          · exact ⟨[⟨⟨.operator .or, q⟩, .parametersEnd⟩], rfl, .noParameters⟩
          · obtain ⟨us, rfl, hus⟩ := derives_parameters _ _ _ _ _ _ hnames
            refine ⟨us, rfl, .someParameters ?_⟩
            rw [← nextKind_append]
            simpa using hus
        obtain ⟨us, rfl, hus⟩ := hsignature
        exact ⟨.plain ⟨.operator .or, p⟩ :: (us ++ (gap.map .plain ++ us')), by simp,
          .function hus hgap hus'⟩
      | _ => cases h
    | _ => cases h

omit hpart in
/-- An operand with prefixes. -/
theorem derives_unary {primary : Rule Expr} (hprimary : primary.Derives .primary) :
    ∀ budget, (unary primary budget).Derives .unary
  | 0 => fun _ _ _ _ h => nomatch h
  | budget + 1 => by
    intro stop ts e rest h
    rcases unary_read_iff.mp h with ⟨k, p, ts', op, inner, rfl, hop, hinner, rfl⟩ | ⟨-, h⟩
    · obtain ⟨us, rfl, hus⟩ := derives_unary hprimary budget _ _ _ _ hinner
      exact ⟨.plain ⟨k, p⟩ :: us, rfl, .prefixed hop hus⟩
    · obtain ⟨us, rfl, hus⟩ := hprimary _ _ _ _ h
      exact ⟨us, rfl, .noPrefix hus⟩

omit hpart in
/-- The links of a pipeline. -/
theorem derives_links {primary : Rule Expr} (hprimary : primary.Derives .primary) :
    ∀ budget left, (links primary budget left).Derives (.links left)
  | 0, _ => fun _ _ _ _ h => nomatch h
  | budget + 1, left => by
    intro stop ts e rest h
    rcases links_read_iff.mp h with ⟨p, gap, ts', right, ts'', rfl, hgap, -, hright, hmore⟩ |
      ⟨hne, rfl, rfl⟩
    · obtain ⟨us, rfl, hus⟩ := hprimary _ _ _ _ hright
      obtain ⟨us', rfl, hus'⟩ := derives_links hprimary budget _ _ _ _ _ hmore
      rw [nextKind_append] at hus
      exact ⟨⟨⟨.arrow, p⟩, .arrow⟩ :: (gap.map .plain ++ (us ++ us')), by simp, .link hgap hus hus'⟩
    · exact ⟨[], rfl, .noLink hne⟩

omit hpart in
/-- A pipeline. -/
theorem derives_chain {primary : Rule Expr} (hprimary : primary.Derives .primary) (budget : Nat) :
    (chain primary budget).Derives .chain := by
  intro stop ts e rest h
  obtain ⟨left, ts', hleft, hmore⟩ := bind_read_iff.mp h
  obtain ⟨us, rfl, hus⟩ := derives_unary hprimary _ _ _ _ _ hleft
  obtain ⟨us', rfl, hus'⟩ := derives_links hprimary _ _ _ _ _ _ hmore
  rw [nextKind_append] at hus
  exact ⟨us ++ us', by simp, .chain hus hus'⟩

omit hpart in
/-- The operations of one level. -/
theorem derives_operations {levels : Nat} (hoperand : operand.Derives (.binary levels)) :
    ∀ budget left, (operations operand (BinaryOp.levels - (levels + 1)) budget left).Derives
      (.operations levels left)
  | 0, _ => fun _ _ _ _ h => nomatch h
  | budget + 1, left => by
    intro stop ts e rest h
    rcases operations_read_iff.mp h with
      ⟨k, p, op, gap, ts', right, ts'', rfl, hop, hgap, -, hright, hmore⟩ | ⟨hnone, rfl, rfl⟩
    · obtain ⟨us, rfl, hus⟩ := hoperand _ _ _ _ hright
      obtain ⟨us', rfl, hus'⟩ := derives_operations hoperand budget _ _ _ _ _ hmore
      rw [nextKind_append] at hus
      exact ⟨⟨⟨k, p⟩, .binaryOperator⟩ :: (gap.map .plain ++ (us ++ us')), by simp,
        .operation hop hgap hus hus'⟩
    · exact ⟨[], rfl, .noOperation hnone⟩

omit hpart in
/-- The operations of all levels, by induction on the levels. -/
theorem derives_binary {chain : Rule Expr} (hchain : chain.Derives .chain) (budget : Nat) :
    ∀ levels, (binary chain budget levels).Derives (.binary levels)
  | 0 => by
    intro stop ts e rest h
    obtain ⟨us, rfl, hus⟩ := hchain _ _ _ _ h
    exact ⟨us, rfl, .tightest hus⟩
  | levels + 1 => by
    intro stop ts e rest h
    have hoperand := derives_binary hchain budget levels
    obtain ⟨left, ts', hleft, hmore⟩ := bind_read_iff.mp h
    obtain ⟨us, rfl, hus⟩ := hoperand _ _ _ _ hleft
    obtain ⟨us', rfl, hus'⟩ := derives_operations hoperand _ _ _ _ _ _ hmore
    rw [nextKind_append] at hus
    exact ⟨us ++ us', by simp, .level hus hus'⟩

omit hpart in
/-- Assignments. -/
theorem derives_assignments (hoperand : operand.Derives (.binary BinaryOp.levels)) (isLocal : Bool) :
    ∀ budget, (assignments operand isLocal budget).Derives (.assignments isLocal)
  | 0 => fun _ _ _ _ h => nomatch h
  | budget + 1 => by
    intro stop ts e rest h
    obtain ⟨target, ts', htarget, ⟨p, gap, ts'', name, q, value, rfl, hgap, -, rfl, hvalue, rfl⟩ |
      ⟨hne, rfl, rfl⟩⟩ := assignments_read_iff.mp h
    · obtain ⟨us, rfl, hus⟩ := hoperand _ _ _ _ htarget
      obtain ⟨us', rfl, hus'⟩ := derives_assignments hoperand isLocal budget _ _ _ _ hvalue
      exact ⟨us ++ ⟨⟨.assign, p⟩, .equals⟩ :: (gap.map .plain ++ us'), by simp, .assign hus hgap hus'⟩
    · obtain ⟨us, rfl, hus⟩ := hoperand _ _ _ _ htarget
      exact ⟨us, rfl, .noAssign hus hne⟩

end Rules

/-- **What is read as an expression has a derivation.** -/
theorem derives_expression : ∀ budget, (expression budget).Derives .expression
  | 0 => fun _ _ _ _ h => nomatch h
  | budget + 1 => by
    intro stop ts e rest h
    have hprimary := derives_primary (derives_expression budget) (budget + 1)
    have hoperand := derives_binary (derives_chain hprimary (budget + 1)) (budget + 1) BinaryOp.levels
    rcases assignment_read_iff.mp h with ⟨p, ts', rfl, h, hassign⟩ | ⟨-, h⟩
    · obtain ⟨us, rfl, hus⟩ := derives_assignments hoperand true _ _ _ _ _ h
      exact ⟨.plain ⟨.keyword .localWord, p⟩ :: us, rfl, .localAssignment hassign hus⟩
    · obtain ⟨us, rfl, hus⟩ := derives_assignments hoperand false _ _ _ _ _ h
      exact ⟨us, rfl, .assignment hus⟩

/-- An expression that is read from tokens has a derivation that takes all of them. -/
theorem derives_of_ofTokens {tokens : List Token} {stop : Position} {e : Expr}
    (h : Expr.ofTokens tokens stop = .ok e) :
    ∃ us, us.map Use.token = tokens ∧ Derives (.expression e) us none := by
  unfold Expr.ofTokens at h
  split at h
  · next hread =>
    cases h
    obtain ⟨us, htokens, hus⟩ := derives_expression _ _ _ _ _ hread
    exact ⟨us, by simpa using htokens.symm, hus⟩
  · cases h
  · cases h
  · cases h

end Grammar

end Abacus
