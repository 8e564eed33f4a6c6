import Abacus.Syntax.Grammar

/-!
# The ways in which a rule reads

A rule of the grammar reads a value from tokens in one of a few ways, and which of them it takes is
decided by the next token. For each rule this is said once, as an equivalence: from left to right it
tells what a run of the rule has done, and from right to left that the rule does it. What follows
about the grammar as a whole takes these equivalences and opens no rule again.
-/

namespace Abacus

namespace Grammar

/-- The kind of the next token. -/
def nextKind (ts : List Token) : Option TokenKind := ts.head?.map Token.kind

@[simp, grind =] theorem nextKind_nil : nextKind [] = none := rfl

@[simp, grind =] theorem nextKind_cons (t : Token) (ts : List Token) : nextKind (t :: ts) = some t.kind := rfl

/-- There is a next token if there is a kind of it. -/
theorem exists_of_nextKind {ts : List Token} {k : TokenKind} (h : nextKind ts = some k) :
    ∃ p rest, ts = ⟨k, p⟩ :: rest := by
  cases ts with
  | nil => cases h
  | cons t rest =>
    cases h
    exact ⟨t.position, rest, rfl⟩

/-- Line feeds. -/
def Newlines (gap : List Token) : Prop := ∀ t ∈ gap, t.kind = .newline

theorem Newlines.nil : Newlines [] := List.forall_mem_nil _

theorem Newlines.append {gap gap' : List Token} (h : Newlines gap) (h' : Newlines gap') :
    Newlines (gap ++ gap') :=
  List.forall_mem_append.mpr ⟨h, h'⟩

/-- Line feeds and semicolons. -/
def Separators (gap : List Token) : Prop := ∀ t ∈ gap, t.kind.isSeparator

/-! ## Single steps -/

section Steps

variable {α β : Type} {stop : Position} {ts rest : List Token} {k : TokenKind} {expected : Expected}

/-- Two rules read in turn if the first reads and the second reads what is left. -/
theorem bind_read_iff {rule : Rule α} {next : α → Rule β} {b : β} :
    (rule >>= next) stop ts = .read b rest ↔
      ∃ a ts', rule stop ts = .read a ts' ∧ next a stop ts' = .read b rest := by
  show Rule.bind rule next stop ts = .read b rest ↔ _
  unfold Rule.bind
  cases rule stop ts with
  | read a ts' =>
    constructor
    · intro h
      exact ⟨a, ts', rfl, h⟩
    · rintro ⟨a', ts'', h, hnext⟩
      cases h
      exact hnext
  | refused e => simp
  | exhausted => simp

/-- What the first rule has read is passed on. -/
theorem bind_of_read {rule : Rule α} {next : α → Rule β} {a : α}
    (h : rule stop ts = .read a rest) : (rule >>= next) stop ts = next a stop rest := by
  show Rule.bind rule next stop ts = _
  rw [Rule.bind, h]

/-- To give a value takes no token. -/
theorem pure_read_iff {a b : α} : (pure a : Rule α) stop ts = .read b rest ↔ b = a ∧ rest = ts := by
  show Outcome.read a ts = .read b rest ↔ _
  rw [Outcome.read.injEq, eq_comm, @eq_comm _ ts]

/-- A refusal reads nothing. -/
theorem not_refuse_read {e : ParseError} {a : α} : (refuse e : Rule α) stop ts ≠ .read a rest :=
  fun h => nomatch h

/-- Nor does what is missing. -/
theorem not_missing_read {a : α} : (missing expected : Rule α) stop ts ≠ .read a rest :=
  fun h => nomatch h

/-- A token of the kind wanted is taken. -/
theorem accept_cons (p : Position) : accept k stop (⟨k, p⟩ :: rest) = .read (some ⟨k, p⟩) rest := by
  simp [accept]

/-- Any other is left. -/
theorem accept_of_ne (h : nextKind ts ≠ some k) : accept k stop ts = .read none ts := by
  cases ts with
  | nil => rfl
  | cons t rest =>
    have hne : ¬ t.kind = k := fun heq => h (congrArg some heq)
    simp [accept, hne]

/-- To accept a kind is to take a token of the kind, or nothing where there is none. -/
theorem accept_read_iff {o : Option Token} :
    accept k stop ts = .read o rest ↔
      (∃ p, o = some ⟨k, p⟩ ∧ ts = ⟨k, p⟩ :: rest) ∨ o = none ∧ nextKind ts ≠ some k ∧ rest = ts := by
  by_cases hk : nextKind ts = some k
  · obtain ⟨p, ts', rfl⟩ := exists_of_nextKind hk
    rw [accept_cons, Outcome.read.injEq]
    grind
  · rw [accept_of_ne hk, Outcome.read.injEq]
    grind

/-- To look at the next token and go on is to go on with it. -/
theorem peek_bind_read_iff {next : Option Token → Rule β} {b : β} :
    (peek >>= next) stop ts = .read b rest ↔ next ts.head? stop ts = .read b rest :=
  Iff.rfl

/-- The next token is taken whatever it is. -/
theorem next_cons (t : Token) : next stop (t :: rest) = .read (some t) rest := rfl

/-- A rule that goes one way if the next token is of a kind, which it reads, and another if not. -/
theorem ifAccept_read_iff {yes no : Rule α} {a : α} :
    (accept k >>= fun o => if o.isSome then yes else no) stop ts = .read a rest ↔
      (∃ p ts', ts = ⟨k, p⟩ :: ts' ∧ yes stop ts' = .read a rest) ∨
        nextKind ts ≠ some k ∧ no stop ts = .read a rest := by
  rw [bind_read_iff]
  by_cases hk : nextKind ts = some k
  · obtain ⟨p, ts', rfl⟩ := exists_of_nextKind hk
    rw [accept_cons]
    constructor
    · rintro ⟨o, ts'', h, hyes⟩
      cases h
      exact .inl ⟨p, ts', rfl, hyes⟩
    · rintro (⟨p', ts'', h, hyes⟩ | ⟨hne, -⟩)
      · cases h
        exact ⟨_, _, rfl, hyes⟩
      · exact absurd hk hne
  · rw [accept_of_ne hk]
    constructor
    · rintro ⟨o, ts', h, hno⟩
      cases h
      exact .inr ⟨hk, hno⟩
    · rintro (⟨p, ts', rfl, -⟩ | ⟨-, hno⟩)
      · exact absurd rfl hk
      · exact ⟨none, ts, rfl, hno⟩

/-- To expect a kind is to take a token of the kind. -/
theorem expect_read_iff {u : Unit} :
    expect k expected stop ts = .read u rest ↔ ∃ p, ts = ⟨k, p⟩ :: rest := by
  unfold expect
  rw [ifAccept_read_iff]
  constructor
  · rintro (⟨p, ts', rfl, h⟩ | ⟨-, h⟩)
    · obtain ⟨-, rfl⟩ := pure_read_iff.mp h
      exact ⟨p, rfl⟩
    · obtain ⟨o, ts', -, h⟩ := bind_read_iff.mp h
      cases o with
      | none => exact absurd h not_missing_read
      | some token => exact absurd h not_refuse_read
  · rintro ⟨p, rfl⟩
    exact .inl ⟨p, rest, rfl, rfl⟩

/-- What skipping tokens of a class leaves. -/
theorem dropWhile_eq_iff {c : Token → Bool} :
    ts.dropWhile c = rest ↔
      ∃ gap, ts = gap ++ rest ∧ (∀ t ∈ gap, c t) ∧ ∀ t, rest.head? = some t → c t = false := by
  induction ts with
  | nil =>
    constructor
    · rintro rfl
      exact ⟨[], rfl, by simp, by simp⟩
    · rintro ⟨gap, h, -⟩
      exact (List.append_eq_nil_iff.mp h.symm).2.symm
  | cons t ts ih =>
    by_cases ht : c t
    · rw [List.dropWhile_cons_of_pos ht, ih]
      constructor
      · rintro ⟨gap, rfl, hgap, hrest⟩
        exact ⟨t :: gap, rfl, List.forall_mem_cons.mpr ⟨ht, hgap⟩, hrest⟩
      · rintro ⟨gap, h, hgap, hrest⟩
        cases gap with
        | nil =>
          subst h
          simp [hrest t rfl] at ht
        | cons g gap =>
          cases h
          exact ⟨gap, rfl, fun x hx => hgap x (List.mem_cons_of_mem _ hx), hrest⟩
    · rw [List.dropWhile_cons_of_neg ht]
      constructor
      · rintro rfl
        exact ⟨[], rfl, by simp, by simpa using ht⟩
      · rintro ⟨gap, h, hgap, -⟩
        cases gap with
        | nil => exact h
        | cons g gap =>
          cases h
          exact absurd (hgap t List.mem_cons_self) ht

/-- To skip line feeds is to take all of them. -/
theorem skipNewlines_read_iff {u : Unit} :
    skipNewlines stop ts = .read u rest ↔
      ∃ gap, ts = gap ++ rest ∧ Newlines gap ∧ nextKind rest ≠ some .newline := by
  have hhead : (∀ t, rest.head? = some t → (t.kind == .newline) = false) ↔
      nextKind rest ≠ some .newline := by
    cases rest <;> simp
  show Outcome.read () (ts.dropWhile (·.kind == .newline)) = .read u rest ↔ _
  rw [Outcome.read.injEq, dropWhile_eq_iff, hhead]
  simp [Newlines]

/-- To skip separators is to take all of them. -/
theorem skipSeparators_read_iff {u : Unit} :
    skipSeparators stop ts = .read u rest ↔
      ∃ gap, ts = gap ++ rest ∧ Separators gap ∧
        ∀ k, nextKind rest = some k → k.isSeparator = false := by
  have hhead : (∀ t, rest.head? = some t → t.kind.isSeparator = false) ↔
      ∀ k, nextKind rest = some k → k.isSeparator = false := by
    cases rest <;> simp
  show Outcome.read () (ts.dropWhile (·.kind.isSeparator)) = .read u rest ↔ _
  rw [Outcome.read.injEq, dropWhile_eq_iff, hhead]
  simp [Separators]

end Steps

/-! ## Lists of parts -/

section Parts

variable {part : Rule Expr} {budget : Nat} {stop : Position} {ts rest : List Token}

/-- A list of items is a closing bracket, or an item with a comma and more items after it, or an
item with the closing bracket. -/
theorem items_read_iff {b : Bracket} {expected : Expected} {es : List Expr} :
    items part (.closing b) expected (budget + 1) stop ts = .read es rest ↔
      (∃ p, ts = ⟨.closing b, p⟩ :: rest ∧ es = []) ∨
        nextKind ts ≠ some (.closing b) ∧ ∃ e ts', part stop ts = .read e ts' ∧
          ((∃ p ts'' more, ts' = ⟨.comma, p⟩ :: ts'' ∧
              items part (.closing b) expected budget stop ts'' = .read more rest ∧ es = e :: more) ∨
            ∃ p, ts' = ⟨.closing b, p⟩ :: rest ∧ es = [e]) := by
  rw [items]
  simp only [↓ifAccept_read_iff, bind_read_iff, pure_read_iff, expect_read_iff]
  grind

theorem callSuffix_read_iff {callee e : Expr} :
    callSuffix part (budget + 1) callee stop ts = .read e rest ↔
      (∃ p ts' es ts'', ts = ⟨.opening .round, p⟩ :: ts' ∧
        items part (.closing .round) .closingRound (budget + 1) stop ts' = .read es ts'' ∧
          callSuffix part budget (.call callee es callee.position) stop ts'' = .read e rest) ∨
        nextKind ts ≠ some (.opening .round) ∧ e = callee ∧ rest = ts := by
  rw [callSuffix]
  simp only [↓ifAccept_read_iff, bind_read_iff, pure_read_iff]
  grind

/-- The statements of a block are a closing brace, or a statement with separators and more
statements after it, or a statement and whatever the closing brace leaves to read. -/
theorem blockBody_read_iff {es : List Expr} :
    blockBody part (budget + 1) stop ts = .read es rest ↔
      (∃ p, ts = ⟨.closing .curly, p⟩ :: rest ∧ es = []) ∨
        nextKind ts ≠ some (.closing .curly) ∧ ∃ e ts', part stop ts = .read e ts' ∧
          ((∃ t gap ts'' more, ts' = t :: (gap ++ ts'') ∧ Separators (t :: gap) ∧
              (∀ k, nextKind ts'' = some k → k.isSeparator = false) ∧
              blockBody part budget stop ts'' = .read more rest ∧ es = e :: more) ∨
            nextKind ts' = some (.closing .curly) ∧
              ∃ more, blockBody part budget stop ts' = .read more rest ∧ es = e :: more) := by
  rw [blockBody]
  simp only [↓ifAccept_read_iff, ↓peek_bind_read_iff, bind_read_iff, pure_read_iff]
  refine or_congr (by grind) (and_congr_right fun _ => exists_congr fun e => exists_congr fun ts' =>
    and_congr_right fun _ => ?_)
  cases ts' with
  | nil => simp [not_missing_read]
  | cons t ts' =>
    dsimp only [List.head?_cons]
    constructor
    · intro h
      by_cases hseparator : t.kind.isSeparator
      · simp only [hseparator, if_true, bind_read_iff, pure_read_iff, skipSeparators_read_iff] at h
        obtain ⟨_, ts'', ⟨gap, hsplit, hgap, hnext⟩, more, _, hmore, rfl, rfl⟩ := h
        cases gap with
        | nil =>
          cases hsplit
          exact absurd (hnext t.kind rfl) (by simp [hseparator])
        | cons g gap =>
          cases hsplit
          exact .inl ⟨t, gap, ts'', more, rfl, hgap, hnext, hmore, rfl⟩
      · rw [if_neg hseparator] at h
        by_cases hclosing : t.kind = .closing .curly
        · simp only [hclosing, if_true, bind_read_iff, pure_read_iff] at h
          obtain ⟨more, _, hmore, rfl, rfl⟩ := h
          exact .inr ⟨congrArg some hclosing, more, hmore, rfl⟩
        · rw [if_neg hclosing] at h
          exact absurd h not_refuse_read
    · rintro (⟨t, gap, ts'', more, hsplit, hgap, hnext, hmore, rfl⟩ | ⟨hclosing, more, hmore, rfl⟩)
      · cases hsplit
        have hseparator : t.kind.isSeparator := hgap t List.mem_cons_self
        simp only [hseparator, if_true, bind_read_iff, pure_read_iff, skipSeparators_read_iff]
        exact ⟨(), ts'', ⟨t :: gap, rfl, hgap, hnext⟩, more, rest, hmore, rfl, rfl⟩
      · have hkind : t.kind = .closing .curly := Option.some.inj hclosing
        have hseparator : ¬ t.kind.isSeparator := by simp [hkind, TokenKind.isSeparator]
        rw [if_neg hseparator, if_pos hkind]
        exact bind_read_iff.mpr ⟨more, rest, hmore, pure_read_iff.mpr ⟨rfl, rfl⟩⟩

/-- A block is the separators at its beginning and its statements, of which there is at least one.
-/
theorem block_read_iff {p : Position} {e : Expr} :
    block part budget p stop ts = .read e rest ↔
      ∃ gap ts' es, ts = gap ++ ts' ∧ Separators gap ∧
        (∀ k, nextKind ts' = some k → k.isSeparator = false) ∧
        blockBody part budget stop ts' = .read es rest ∧ es ≠ [] ∧ e = .block es p := by
  rw [block]
  simp only [bind_read_iff, skipSeparators_read_iff]
  constructor
  · rintro ⟨_, ts', ⟨gap, rfl, hgap, hnext⟩, es, ts'', hbody, h⟩
    cases es with
    | nil =>
      obtain ⟨_, _, hrefuse, -⟩ := bind_read_iff.mp h
      exact absurd hrefuse not_refuse_read
    | cons e' es =>
      obtain ⟨rfl, rfl⟩ := pure_read_iff.mp h
      exact ⟨gap, ts', _, rfl, hgap, hnext, hbody, List.cons_ne_nil e' es, rfl⟩
  · rintro ⟨gap, ts', es, rfl, hgap, hnext, hbody, hne, rfl⟩
    refine ⟨(), ts', ⟨gap, rfl, hgap, hnext⟩, es, rest, hbody, ?_⟩
    cases es with
    | nil => exact absurd rfl hne
    | cons e' es => exact pure_read_iff.mpr ⟨rfl, rfl⟩

/-- A condition stands in round brackets, and line feeds after it are dropped. -/
theorem condition_read_iff {c : Expr} :
    condition part stop ts = .read c rest ↔
      ∃ p ts' q gap, ts = ⟨.opening .round, p⟩ :: ts' ∧
        part stop ts' = .read c (⟨.closing .round, q⟩ :: (gap ++ rest)) ∧ Newlines gap ∧
        nextKind rest ≠ some .newline := by
  rw [condition]
  simp only [bind_read_iff, pure_read_iff, expect_read_iff, skipNewlines_read_iff]
  grind

/-- Skipping line feeds does not change what the next other token is. -/
theorem find?_gap {gap : List Token} (h : Newlines gap) {t : Token} (ht : t.kind ≠ .newline)
    (ts : List Token) : (gap ++ t :: ts).find? (·.kind != .newline) = some t := by
  induction gap with
  | nil => simp [ht]
  | cons g gap ih =>
    have hg : g.kind = .newline := h g List.mem_cons_self
    simpa [hg] using ih fun x hx => h x (List.mem_cons_of_mem g hx)

/-- A token that is found past line feeds stands behind line feeds. -/
theorem exists_gap {t : Token} (h : ts.find? (·.kind != .newline) = some t) :
    ∃ gap ts', ts = gap ++ t :: ts' ∧ Newlines gap ∧ t.kind ≠ .newline := by
  obtain ⟨ht, gap, ts', rfl, hgap⟩ := List.find?_eq_some_iff_append.mp h
  refine ⟨gap, ts', rfl, ?_, by simpa using ht⟩
  intro g hg
  simpa using hgap g hg

/-- The token behind line feeds is skipped with them. -/
theorem skipTo_read_iff {α : Type} {rule : Rule α} {a : α} {gap : List Token} (h : Newlines gap)
    {t : Token} (ht : t.kind ≠ .newline) :
    (do skipNewlines; let _ ← next; rule : Rule α) stop (gap ++ t :: ts) = .read a rest ↔
      rule stop ts = .read a rest := by
  have hskip : skipNewlines stop (gap ++ t :: ts) = .read () (t :: ts) :=
    skipNewlines_read_iff.mpr ⟨gap, rfl, h, by simpa using ht⟩
  rw [bind_read_iff]
  constructor
  · rintro ⟨_, _, hread, hrule⟩
    rw [hskip] at hread
    cases hread
    exact hrule
  · intro hrule
    exact ⟨(), _, hskip, hrule⟩

/-- After line feeds there is another branch or the last one. -/
theorem furtherBranches_read_iff {more : List (Expr × Expr)} {otherwise : Expr} :
    furtherBranches part (budget + 1) stop ts = .read (more, otherwise) rest ↔
      ∃ gap p ts', Newlines gap ∧
        ((ts = gap ++ ⟨.keyword .elifWord, p⟩ :: ts' ∧ ∃ c ts₁ body ts₂ others,
            condition part stop ts' = .read c ts₁ ∧ part stop ts₁ = .read body ts₂ ∧
              furtherBranches part budget stop ts₂ = .read (others, otherwise) rest ∧
              more = (c, body) :: others) ∨
          (ts = gap ++ ⟨.keyword .elseWord, p⟩ :: ts' ∧ ∃ gap' ts₁, ts' = gap' ++ ts₁ ∧
            Newlines gap' ∧ nextKind ts₁ ≠ some .newline ∧ part stop ts₁ = .read otherwise rest ∧
              more = [])) := by
  rw [furtherBranches]
  constructor
  · intro h
    obtain ⟨_, _, hpeek, h⟩ := bind_read_iff.mp h
    cases hpeek
    cases hfind : ts.find? (·.kind != .newline) with
    | none =>
      rw [hfind] at h
      exact absurd h not_missing_read
    | some t =>
      rw [hfind] at h
      obtain ⟨gap, ts', rfl, hgap, hne⟩ := exists_gap hfind
      obtain ⟨k, p⟩ := t
      refine ⟨gap, p, ts', hgap, ?_⟩
      dsimp only at h
      by_cases helif : k = .keyword .elifWord
      · subst helif
        rw [if_pos rfl, skipTo_read_iff hgap hne] at h
        simp only [bind_read_iff, pure_read_iff] at h
        obtain ⟨c, ts₁, hc, body, ts₂, hbody, others, _, hmore, hvalue, rfl⟩ := h
        cases hvalue
        exact .inl ⟨rfl, c, ts₁, body, ts₂, others.1, hc, hbody, hmore, rfl⟩
      · rw [if_neg helif] at h
        by_cases helse : k = .keyword .elseWord
        · subst helse
          rw [if_pos rfl, skipTo_read_iff hgap hne] at h
          simp only [bind_read_iff, pure_read_iff, skipNewlines_read_iff] at h
          obtain ⟨_, ts₁, ⟨gap', rfl, hgap', hnext⟩, other, _, hother, hvalue, rfl⟩ := h
          cases hvalue
          exact .inr ⟨rfl, gap', ts₁, rfl, hgap', hnext, hother, rfl⟩
        · rw [if_neg helse] at h
          exact absurd h not_refuse_read
  · rintro ⟨gap, p, ts', hgap, ⟨rfl, c, ts₁, body, ts₂, others, hc, hbody, hmore, rfl⟩ |
      ⟨rfl, gap', ts₁, rfl, hgap', hnext, hother, rfl⟩⟩
    · refine bind_read_iff.mpr ⟨_, _, congrArg (Outcome.read · _) (find?_gap hgap (by simp) ts'), ?_⟩
      dsimp only
      rw [if_pos rfl, skipTo_read_iff hgap (by simp)]
      simp only [bind_read_iff, pure_read_iff]
      exact ⟨c, ts₁, hc, body, ts₂, hbody, (others, otherwise), rest, hmore, rfl, rfl⟩
    · refine bind_read_iff.mpr ⟨_, _, congrArg (Outcome.read · _) (find?_gap hgap (by simp) _), ?_⟩
      dsimp only
      rw [if_neg (by simp), if_pos rfl, skipTo_read_iff hgap (by simp)]
      simp only [bind_read_iff, pure_read_iff, skipNewlines_read_iff]
      exact ⟨(), ts₁, ⟨gap', rfl, hgap', hnext⟩, otherwise, rest, hother, rfl, rfl⟩

/-- A conditional is a condition, a body and further branches. -/
theorem conditional_read_iff {p : Position} {e : Expr} :
    conditional part budget p stop ts = .read e rest ↔
      ∃ c ts₁ body ts₂ more otherwise, condition part stop ts = .read c ts₁ ∧
        part stop ts₁ = .read body ts₂ ∧
        furtherBranches part budget stop ts₂ = .read (more, otherwise) rest ∧
        e = .conditional ((c, body) :: more) otherwise p := by
  rw [conditional]
  simp only [bind_read_iff, pure_read_iff, Prod.exists]
  grind

/-- Parameters are a name that is new, and a comma with more parameters or the closing bar. -/
theorem parameters_read_iff {seen names : List String} :
    parameters (budget + 1) seen stop ts = .read names rest ↔
      ∃ name p ts', ts = ⟨.identifier name, p⟩ :: ts' ∧ name ∉ seen ∧
        ((∃ q ts'' more, ts' = ⟨.comma, q⟩ :: ts'' ∧
            parameters budget (name :: seen) stop ts'' = .read more rest ∧ names = name :: more) ∨
          ∃ q, ts' = ⟨.operator .or, q⟩ :: rest ∧ names = [name]) := by
  rw [parameters, bind_read_iff]
  cases ts with
  | nil =>
    simp [next, not_missing_read]
  | cons t ts =>
    obtain ⟨k, p⟩ := t
    simp only [next_cons]
    constructor
    · rintro ⟨_, _, h, hread⟩
      cases h
      cases k with
      | identifier name =>
        by_cases hseen : name ∈ seen
        · simp only [List.contains_eq_mem, hseen, decide_true, if_true] at hread
          obtain ⟨_, _, hrefuse, -⟩ := bind_read_iff.mp hread
          exact absurd hrefuse not_refuse_read
        · simp only [List.contains_eq_mem, hseen, decide_false, Bool.false_eq_true, if_false] at hread
          rw [ifAccept_read_iff] at hread
          simp only [bind_read_iff, pure_read_iff, expect_read_iff] at hread
          grind
      | _ => exact absurd hread not_refuse_read
    · rintro ⟨name, q, ts', h, hseen, hread⟩
      cases h
      refine ⟨_, _, rfl, ?_⟩
      simp only [List.contains_eq_mem, hseen, decide_false, Bool.false_eq_true, if_false]
      rw [ifAccept_read_iff]
      simp only [bind_read_iff, pure_read_iff, expect_read_iff]
      rcases hread with ⟨q, ts'', more, rfl, hmore, rfl⟩ | ⟨q, rfl, rfl⟩
      · exact .inl ⟨q, ts'', rfl, more, rest, hmore, rfl, rfl⟩
      · exact .inr ⟨by simp, (), rest, ⟨q, rfl⟩, rfl, rfl⟩

/-- A function is its parameters, if there are any, and its body. -/
theorem function_read_iff {p : Position} {e : Expr} :
    function part budget p stop ts = .read e rest ↔
      ∃ names gap ts' body, Newlines gap ∧ nextKind ts' ≠ some .newline ∧
        part stop ts' = .read body rest ∧ e = .function names body p ∧
        ((∃ q, ts = ⟨.operator .or, q⟩ :: (gap ++ ts') ∧ names = []) ∨
          nextKind ts ≠ some (.operator .or) ∧ parameters budget [] stop ts = .read names (gap ++ ts')) := by
  rw [function]
  simp only [↓ifAccept_read_iff, bind_read_iff, pure_read_iff, skipNewlines_read_iff]
  constructor
  · rintro (⟨q, ts', rfl, names, ts'', hnames, h⟩ | ⟨hne, names, ts'', hnames, h⟩)
    · obtain ⟨_, ts₁, ⟨gap, rfl, hgap, hnext⟩, body, _, hbody, rfl, rfl⟩ := h
      cases hnames
      exact ⟨[], gap, ts₁, body, hgap, hnext, hbody, rfl, .inl ⟨q, rfl, rfl⟩⟩
    · obtain ⟨_, ts₁, ⟨gap, rfl, hgap, hnext⟩, body, _, hbody, rfl, rfl⟩ := h
      exact ⟨names, gap, ts₁, body, hgap, hnext, hbody, rfl, .inr ⟨hne, hnames⟩⟩
  · rintro ⟨names, gap, ts', body, hgap, hnext, hbody, rfl, ⟨q, rfl, rfl⟩ | ⟨hne, hnames⟩⟩
    · exact .inl ⟨q, _, rfl, [], _, rfl, (), ts', ⟨gap, rfl, hgap, hnext⟩, body, rest, hbody, rfl, rfl⟩
    · exact .inr ⟨hne, names, _, hnames, (), ts', ⟨gap, rfl, hgap, hnext⟩, body, rest, hbody, rfl, rfl⟩

/-- A round bracket begins a group, which may be called. -/
theorem primary_group_read_iff {p : Position} {e : Expr} :
    primary part budget stop (⟨.opening .round, p⟩ :: ts) = .read e rest ↔
      ∃ inner q ts', part stop ts = .read inner (⟨.closing .round, q⟩ :: ts') ∧
        callSuffix part budget inner stop ts' = .read e rest := by
  show (do let inner ← part; expect _ _; callSuffix part budget inner : Rule Expr) stop ts = _ ↔ _
  simp only [bind_read_iff, expect_read_iff]
  constructor
  · rintro ⟨inner, _, hinner, _, ts', ⟨q, rfl⟩, hcall⟩
    exact ⟨inner, q, ts', hinner, hcall⟩
  · rintro ⟨inner, q, ts', hinner, hcall⟩
    exact ⟨inner, _, hinner, (), ts', ⟨q, rfl⟩, hcall⟩

/-- A square bracket begins a vector, which is not called. -/
theorem primary_vector_read_iff {p : Position} {e : Expr} :
    primary part budget stop (⟨.opening .square, p⟩ :: ts) = .read e rest ↔
      ∃ es, items part (.closing .square) .commaOrClosingSquare budget stop ts = .read es rest ∧
        e = .vector es p := by
  show (do let es ← items part _ _ budget; return .vector es p : Rule Expr) stop ts = _ ↔ _
  simp only [bind_read_iff, pure_read_iff]
  grind

/-- An operand is a prefix operator and an operand, or has no prefix. -/
theorem unary_read_iff {primary : Rule Expr} {e : Expr} :
    unary primary (budget + 1) stop ts = .read e rest ↔
      (∃ k p ts' op operand, ts = ⟨k, p⟩ :: ts' ∧ prefixOp? k = some op ∧
        unary primary budget stop ts' = .read operand rest ∧ e = .unary op operand p) ∨
        (∀ k, nextKind ts = some k → prefixOp? k = none) ∧ primary stop ts = .read e rest := by
  rw [unary, peek_bind_read_iff]
  cases ts with
  | nil => simp
  | cons t ts =>
    obtain ⟨k, p⟩ := t
    cases hop : prefixOp? k with
    | none =>
      simp only [List.head?_cons, hop]
      grind
    | some op =>
      simp only [List.head?_cons, hop, bind_read_iff, next_cons, pure_read_iff]
      grind

/-- Links are an arrow, an operand and more links, or nothing where there is no arrow. -/
theorem links_read_iff {primary : Rule Expr} {left e : Expr} :
    links primary (budget + 1) left stop ts = .read e rest ↔
      (∃ p gap ts' right ts'', ts = ⟨.arrow, p⟩ :: (gap ++ ts') ∧ Newlines gap ∧
        nextKind ts' ≠ some .newline ∧ primary stop ts' = .read right ts'' ∧
          links primary budget (link left right p) stop ts'' = .read e rest) ∨
        nextKind ts ≠ some .arrow ∧ e = left ∧ rest = ts := by
  rw [links]
  simp only [bind_read_iff, accept_read_iff]
  constructor
  · rintro ⟨o, ts', ⟨p, rfl, rfl⟩ | ⟨rfl, hne, rfl⟩, h⟩
    · simp only [bind_read_iff, skipNewlines_read_iff] at h
      obtain ⟨_, ts₁, ⟨gap, rfl, hgap, hnext⟩, right, ts₂, hright, hmore⟩ := h
      exact .inl ⟨p, gap, ts₁, right, ts₂, rfl, hgap, hnext, hright, hmore⟩
    · exact .inr ⟨hne, pure_read_iff.mp h⟩
  · rintro (⟨p, gap, ts', right, ts'', rfl, hgap, hnext, hright, hmore⟩ | ⟨hne, rfl, rfl⟩)
    · refine ⟨_, _, .inl ⟨p, rfl, rfl⟩, ?_⟩
      simp only [bind_read_iff, skipNewlines_read_iff]
      exact ⟨(), ts', ⟨gap, rfl, hgap, hnext⟩, right, ts'', hright, hmore⟩
    · exact ⟨none, _, .inr ⟨rfl, hne, rfl⟩, pure_read_iff.mpr ⟨rfl, rfl⟩⟩

/-- Operations of a level are an operator of the level, an operand and more operations, or nothing
where no such operator is next. -/
theorem operations_read_iff {operand : Rule Expr} {level : Nat} {left e : Expr} :
    operations operand level (budget + 1) left stop ts = .read e rest ↔
      (∃ k p op gap ts' right ts'', ts = ⟨k, p⟩ :: (gap ++ ts') ∧ binaryOp? level k = some op ∧
        Newlines gap ∧ nextKind ts' ≠ some .newline ∧ operand stop ts' = .read right ts'' ∧
          operations operand level budget (.binary op left right p) stop ts'' = .read e rest) ∨
        (∀ k, nextKind ts = some k → binaryOp? level k = none) ∧ e = left ∧ rest = ts := by
  rw [operations, peek_bind_read_iff]
  cases ts with
  | nil => simp [pure_read_iff]
  | cons t ts =>
    obtain ⟨k, p⟩ := t
    cases hop : binaryOp? level k with
    | none =>
      simp only [List.head?_cons, hop, pure_read_iff]
      grind
    | some op =>
      simp only [List.head?_cons, hop, bind_read_iff, next_cons, skipNewlines_read_iff]
      grind

/-- An assignment is a name, the sign `=` and what is assigned; without the sign it is what was read
in place of the name. -/
theorem assignments_read_iff {operand : Rule Expr} {isLocal : Bool} {e : Expr} :
    assignments operand isLocal (budget + 1) stop ts = .read e rest ↔
      ∃ target ts', operand stop ts = .read target ts' ∧
        ((∃ p gap ts'' name q value, ts' = ⟨.assign, p⟩ :: (gap ++ ts'') ∧ Newlines gap ∧
            nextKind ts'' ≠ some .newline ∧ target = .identifier name q ∧
            assignments operand isLocal budget stop ts'' = .read value rest ∧
            e = .assign name value isLocal q) ∨
          nextKind ts' ≠ some .assign ∧ e = target ∧ rest = ts') := by
  rw [assignments]
  simp only [bind_read_iff, ↓ifAccept_read_iff, pure_read_iff, skipNewlines_read_iff]
  refine exists_congr fun target => exists_congr fun ts' => and_congr_right fun _ => or_congr ?_ Iff.rfl
  constructor
  · rintro ⟨p, _, rfl, _, ts'', ⟨gap, rfl, hgap, hnext⟩, h⟩
    cases target with
    | identifier name q =>
      obtain ⟨value, _, hvalue, h⟩ := bind_read_iff.mp h
      obtain ⟨rfl, rfl⟩ := pure_read_iff.mp h
      exact ⟨p, gap, ts'', name, q, value, rfl, hgap, hnext, rfl, hvalue, rfl⟩
    | _ => exact absurd h not_refuse_read
  · rintro ⟨p, gap, ts'', name, q, value, rfl, hgap, hnext, rfl, hvalue, rfl⟩
    exact ⟨p, _, rfl, (), ts'', ⟨gap, rfl, hgap, hnext⟩,
      bind_read_iff.mpr ⟨value, rest, hvalue, pure_read_iff.mpr ⟨rfl, rfl⟩⟩⟩

/-- The word `local` is followed by an assignment; without it any expression will do. -/
theorem assignment_read_iff {operand : Rule Expr} {e : Expr} :
    assignment operand budget stop ts = .read e rest ↔
      (∃ p ts', ts = ⟨.keyword .localWord, p⟩ :: ts' ∧
        assignments operand true budget stop ts' = .read e rest ∧ isAssignment e) ∨
        nextKind ts ≠ some (.keyword .localWord) ∧
          assignments operand false budget stop ts = .read e rest := by
  rw [assignment]
  simp only [bind_read_iff, accept_read_iff]
  constructor
  · rintro ⟨o, ts', ⟨p, rfl, rfl⟩ | ⟨rfl, hne, rfl⟩, h⟩
    · obtain ⟨e', ts'', hread, hcheck⟩ := bind_read_iff.mp h
      by_cases hassign : isAssignment e'
      · rw [if_pos hassign] at hcheck
        obtain ⟨rfl, rfl⟩ := pure_read_iff.mp hcheck
        exact .inl ⟨p, _, rfl, hread, hassign⟩
      · rw [if_neg hassign] at hcheck
        exact absurd hcheck not_refuse_read
    · exact .inr ⟨hne, h⟩
  · rintro (⟨p, ts', rfl, hread, hassign⟩ | ⟨hne, h⟩)
    · refine ⟨_, _, .inl ⟨p, rfl, rfl⟩, bind_read_iff.mpr ⟨e, rest, hread, ?_⟩⟩
      rw [if_pos hassign]
      exact pure_read_iff.mpr ⟨rfl, rfl⟩
    · exact ⟨none, _, .inr ⟨rfl, hne, rfl⟩, h⟩

end Parts

end Grammar

end Abacus
