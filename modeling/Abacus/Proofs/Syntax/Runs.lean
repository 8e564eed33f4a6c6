import Abacus.Proofs.Syntax.Derivations

/-!
# Runs that are put together

What a rule reads is put together from what the rules of its parts read. For each way in which a
derivation goes on there is a lemma: if the goals of the parts are reached by some tokens, wherever
they stand before others, and the next tokens let the rule go this way, then its goal is reached by
the tokens together.

Budgets are counted here and nowhere else. The expressions inside have one for their own parts, the
rounds of a rule have another, and every goal is reached with any two that its tokens fit in.
-/

namespace Abacus

namespace Grammar

/-- The rule of a primary whose parts are expressions of a budget. -/
def primaryOf (n : Nat) : Rule Expr := primary (expression n) (n + 1)

/-- The rule of an operand of the binary operators of some levels. -/
def binaryOf (n levels : Nat) : Rule Expr := binary (chain (primaryOf n) (n + 1)) (n + 1) levels

/-- The rule of a goal reads its value from some tokens and leaves others; `n` is the budget of the
expressions inside, and `m` that of the rounds. -/
def Reached (stop : Position) (n m : Nat) (ts rest : List Token) : Goal → Prop
  | .expression e => expression (n + 1) stop ts = .read e rest
  | .assignments isLocal e =>
    assignments (binaryOf n BinaryOp.levels) isLocal m stop ts = .read e rest
  | .binary levels e => binaryOf n levels stop ts = .read e rest
  | .operations levels left e =>
    operations (binaryOf n levels) (BinaryOp.levels - (levels + 1)) m left stop ts = .read e rest
  | .chain e => chain (primaryOf n) (n + 1) stop ts = .read e rest
  | .links left e => links (primaryOf n) m left stop ts = .read e rest
  | .unary e => unary (primaryOf n) m stop ts = .read e rest
  | .primary e => primaryOf n stop ts = .read e rest
  | .callSuffix callee e => callSuffix (expression n) m callee stop ts = .read e rest
  | .items b es => ∀ expected, items (expression n) (.closing b) expected m stop ts = .read es rest
  | .blockBody es => blockBody (expression n) m stop ts = .read es rest
  | .branch c body => ∃ ts',
    condition (expression n) stop ts = .read c ts' ∧ expression n stop ts' = .read body rest
  | .furtherBranches more otherwise =>
    furtherBranches (expression n) m stop ts = .read (more, otherwise) rest
  -- the line feeds behind the bar that closes parameters are not read with it
  | .parameters seen names => ∃ back, Newlines back ∧
    parameters m seen stop ts = .read names (back ++ rest)
  | .signature names => ∃ back, Newlines back ∧
    ((∃ q, ts = ⟨.operator .or, q⟩ :: (back ++ rest) ∧ names = []) ∨
      nextKind ts ≠ some (.operator .or) ∧ parameters m [] stop ts = .read names (back ++ rest))

/-- A goal is reached by tokens wherever they stand before others, if the budgets allow for them. -/
def Goal.Reads (goal : Goal) (ts rest : List Token) : Prop :=
  ∀ stop n m, ts.length ≤ n → ts.length < m → Reached stop n m (ts ++ rest) rest goal

/-! ## One lemma for each way of a rule -/

section Ways

variable {e left right inner value c body otherwise callee : Expr} {es : List Expr}
  {more : List (Expr × Expr)} {isLocal : Bool} {levels : Nat} {b : Bracket} {x : String}
  {seen names : List String} {p q : Position} {k : TokenKind} {t : Token}
  {ts ts₁ ts₂ gap gap' back rest : List Token}

/-- An expression is read as a part with a budget of more than its tokens. -/
theorem Goal.Reads.part (h : (Goal.expression e).Reads ts rest) (stop : Position) {n : Nat}
    (hn : ts.length < n) : Grammar.expression n stop (ts ++ rest) = .read e rest := by
  cases n with
  | zero => exact absurd hn (Nat.not_lt_zero _)
  | succ n => exact h stop n (n + 1) (Nat.le_of_lt_succ hn) hn

/-- A goal is reached if it is with a round more than its tokens need. -/
theorem Goal.Reads.of_succ {goal : Goal}
    (h : ∀ stop n m, ts.length ≤ n → ts.length ≤ m → Reached stop n (m + 1) (ts ++ rest) rest goal) :
    goal.Reads ts rest := by
  intro stop n m hn hm
  cases m with
  | zero => exact absurd hm (Nat.not_lt_zero _)
  | succ m => exact h stop n m hn (Nat.le_of_lt_succ hm)

/-- An assignment after the word `local`. -/
theorem Goal.Reads.localAssignment (hassign : isAssignment e)
    (h : (Goal.assignments true e).Reads ts rest) :
    (Goal.expression e).Reads (⟨.keyword .localWord, p⟩ :: ts) rest := by
  intro stop n m hn _
  rw [List.length_cons] at hn
  exact assignment_read_iff.mpr (.inl ⟨p, ts ++ rest, rfl, h stop n (n + 1) (by omega) (by omega), hassign⟩)

/-- An expression that does not begin with the word `local`. -/
theorem Goal.Reads.assignment (hne : nextKind (ts ++ rest) ≠ some (.keyword .localWord))
    (h : (Goal.assignments false e).Reads ts rest) : (Goal.expression e).Reads ts rest := by
  intro stop n m hn _
  exact assignment_read_iff.mpr (.inr ⟨hne, h stop n (n + 1) hn (by omega)⟩)

/-- A name, the sign `=` and a value. -/
theorem Goal.Reads.assign (hgap : Newlines gap) (hne : nextKind (ts₂ ++ rest) ≠ some .newline)
    (htarget : (Goal.binary BinaryOp.levels (.identifier x q)).Reads ts₁
      (⟨.assign, p⟩ :: (gap ++ (ts₂ ++ rest))))
    (hvalue : (Goal.assignments isLocal value).Reads ts₂ rest) :
    (Goal.assignments isLocal (.assign x value isLocal q)).Reads
      (ts₁ ++ ⟨.assign, p⟩ :: (gap ++ ts₂)) rest := by
  apply Goal.Reads.of_succ
  intro stop n m hn hm
  simp only [List.length_append, List.length_cons] at hn hm
  have htarget := htarget stop n m (by omega) (by omega)
  have hvalue := hvalue stop n m (by omega) (by omega)
  simp only [List.append_assoc, List.cons_append]
  exact assignments_read_iff.mpr ⟨_, _, htarget, .inl ⟨p, gap, _, x, q, value, rfl, hgap, hne, rfl, hvalue, rfl⟩⟩

/-- An expression that no `=` follows is no assignment. -/
theorem Goal.Reads.noAssign (hne : nextKind rest ≠ some .assign)
    (h : (Goal.binary BinaryOp.levels e).Reads ts rest) : (Goal.assignments isLocal e).Reads ts rest := by
  apply Goal.Reads.of_succ
  intro stop n m hn hm
  exact assignments_read_iff.mpr ⟨e, rest, h stop n (m + 1) hn (Nat.lt_succ_of_le hm), .inr ⟨hne, rfl, rfl⟩⟩

/-- Below all levels of operators there are pipelines. -/
theorem Goal.Reads.tightest (h : (Goal.chain e).Reads ts rest) : (Goal.binary 0 e).Reads ts rest := h

/-- An expression of one level: one of the level below, and the operations that follow. -/
theorem Goal.Reads.level (hleft : (Goal.binary levels left).Reads ts₁ (ts₂ ++ rest))
    (hmore : (Goal.operations levels left e).Reads ts₂ rest) :
    (Goal.binary (levels + 1) e).Reads (ts₁ ++ ts₂) rest := by
  intro stop n m hn hm
  rw [List.length_append] at hn hm
  rw [List.append_assoc]
  exact bind_read_iff.mpr ⟨left, ts₂ ++ rest, hleft stop n m (by omega) (by omega),
    hmore stop n (n + 1) (by omega) (by omega)⟩

/-- One operation more: an operator of the level, and an expression of the level below. -/
theorem Goal.Reads.operation {op : BinaryOp} (hop : binaryOp? (BinaryOp.levels - (levels + 1)) k = some op)
    (hgap : Newlines gap) (hne : nextKind (ts₁ ++ (ts₂ ++ rest)) ≠ some .newline)
    (hright : (Goal.binary levels right).Reads ts₁ (ts₂ ++ rest))
    (hmore : (Goal.operations levels (.binary op left right p) e).Reads ts₂ rest) :
    (Goal.operations levels left e).Reads (⟨k, p⟩ :: (gap ++ (ts₁ ++ ts₂))) rest := by
  apply Goal.Reads.of_succ
  intro stop n m hn hm
  simp only [List.length_append, List.length_cons] at hn hm
  have hright := hright stop n m (by omega) (by omega)
  have hmore := hmore stop n m (by omega) (by omega)
  simp only [List.append_assoc, List.cons_append]
  exact operations_read_iff.mpr (.inl ⟨k, p, op, gap, _, right, _, rfl, hop, hgap, hne, hright, hmore⟩)

/-- Operations of a level end where no operator of the level is next. -/
theorem Goal.Reads.noOperation
    (hne : ∀ k, nextKind rest = some k → binaryOp? (BinaryOp.levels - (levels + 1)) k = none) :
    (Goal.operations levels left left).Reads [] rest := by
  apply Goal.Reads.of_succ
  intro stop n m _ _
  exact operations_read_iff.mpr (.inr ⟨hne, rfl, rfl⟩)

/-- A pipeline: an operand and the links that follow. -/
theorem Goal.Reads.chain (hleft : (Goal.unary left).Reads ts₁ (ts₂ ++ rest))
    (hmore : (Goal.links left e).Reads ts₂ rest) : (Goal.chain e).Reads (ts₁ ++ ts₂) rest := by
  intro stop n m hn hm
  rw [List.length_append] at hn hm
  rw [List.append_assoc]
  exact bind_read_iff.mpr ⟨left, ts₂ ++ rest, hleft stop n (n + 1) (by omega) (by omega),
    hmore stop n (n + 1) (by omega) (by omega)⟩

/-- One link more: an arrow and an operand without prefixes. -/
theorem Goal.Reads.link (hgap : Newlines gap) (hne : nextKind (ts₁ ++ (ts₂ ++ rest)) ≠ some .newline)
    (hright : (Goal.primary right).Reads ts₁ (ts₂ ++ rest))
    (hmore : (Goal.links (link left right p) e).Reads ts₂ rest) :
    (Goal.links left e).Reads (⟨.arrow, p⟩ :: (gap ++ (ts₁ ++ ts₂))) rest := by
  apply Goal.Reads.of_succ
  intro stop n m hn hm
  simp only [List.length_append, List.length_cons] at hn hm
  have hright := hright stop n m (by omega) (by omega)
  have hmore := hmore stop n m (by omega) (by omega)
  simp only [List.append_assoc, List.cons_append]
  exact links_read_iff.mpr (.inl ⟨p, gap, _, right, _, rfl, hgap, hne, hright, hmore⟩)

/-- Links end where no arrow is next. -/
theorem Goal.Reads.noLink (hne : nextKind rest ≠ some .arrow) : (Goal.links left left).Reads [] rest := by
  apply Goal.Reads.of_succ
  intro stop n m _ _
  exact links_read_iff.mpr (.inr ⟨hne, rfl, rfl⟩)

/-- A prefix operator and its operand. -/
theorem Goal.Reads.prefixed {op : UnaryOp} (hop : prefixOp? k = some op) (h : (Goal.unary e).Reads ts rest) :
    (Goal.unary (.unary op e p)).Reads (⟨k, p⟩ :: ts) rest := by
  apply Goal.Reads.of_succ
  intro stop n m hn hm
  rw [List.length_cons] at hn hm
  exact unary_read_iff.mpr (.inl ⟨k, p, _, op, e, rfl, hop, h stop n m (by omega) (by omega), rfl⟩)

/-- An operand without a prefix. -/
theorem Goal.Reads.noPrefix (hne : ∀ k, nextKind (ts ++ rest) = some k → prefixOp? k = none)
    (h : (Goal.primary e).Reads ts rest) : (Goal.unary e).Reads ts rest := by
  apply Goal.Reads.of_succ
  intro stop n m hn hm
  exact unary_read_iff.mpr (.inr ⟨hne, h stop n (m + 1) hn (Nat.lt_succ_of_le hm)⟩)

/-- A literal is a single token. -/
theorem Goal.Reads.literal {value : Literal} (hvalue : literal? k = some value) :
    (Goal.primary (.literal value p)).Reads [⟨k, p⟩] rest := by
  intro stop n m _ _
  exact primary_literal hvalue

/-- A name, called or not. -/
theorem Goal.Reads.name (h : (Goal.callSuffix (.identifier x p) e).Reads ts rest) :
    (Goal.primary e).Reads (⟨.identifier x, p⟩ :: ts) rest := by
  intro stop n m hn _
  rw [List.length_cons] at hn
  exact h stop n (n + 1) (by omega) (by omega)

/-- An expression in round brackets, called or not. -/
theorem Goal.Reads.group
    (hinner : (Goal.expression inner).Reads ts₁ (⟨.closing .round, q⟩ :: (ts₂ ++ rest)))
    (hcall : (Goal.callSuffix inner e).Reads ts₂ rest) :
    (Goal.primary e).Reads (⟨.opening .round, p⟩ :: (ts₁ ++ ⟨.closing .round, q⟩ :: ts₂)) rest := by
  intro stop n m hn _
  simp only [List.length_append, List.length_cons] at hn
  simp only [List.append_assoc, List.cons_append]
  exact primary_group_read_iff.mpr ⟨inner, q, _, hinner.part stop (by omega),
    hcall stop n (n + 1) (by omega) (by omega)⟩

/-- A vector is an opening bracket and its items. -/
theorem Goal.Reads.vector (h : (Goal.items .square es).Reads ts rest) :
    (Goal.primary (.vector es p)).Reads (⟨.opening .square, p⟩ :: ts) rest := by
  intro stop n m hn _
  rw [List.length_cons] at hn
  exact primary_vector_read_iff.mpr ⟨es, h stop n (n + 1) (by omega) (by omega) _, rfl⟩

/-- A block is an opening brace, separators, and at least one statement. -/
theorem Goal.Reads.block (hgap : Separators gap)
    (hnext : ∀ k, nextKind (ts ++ rest) = some k → k.isSeparator = false) (hes : es ≠ [])
    (h : (Goal.blockBody es).Reads ts rest) :
    (Goal.primary (.block es p)).Reads (⟨.opening .curly, p⟩ :: (gap ++ ts)) rest := by
  intro stop n m hn _
  simp only [List.length_append, List.length_cons] at hn
  simp only [List.append_assoc, List.cons_append]
  exact block_read_iff.mpr ⟨gap, _, es, rfl, hgap, hnext, h stop n (n + 1) (by omega) (by omega), hes, rfl⟩

/-- A conditional is its first branch and the further ones. -/
theorem Goal.Reads.conditional (hbranch : (Goal.branch c body).Reads ts₁ (ts₂ ++ rest))
    (hmore : (Goal.furtherBranches more otherwise).Reads ts₂ rest) :
    (Goal.primary (.conditional ((c, body) :: more) otherwise p)).Reads
      (⟨.keyword .ifWord, p⟩ :: (ts₁ ++ ts₂)) rest := by
  intro stop n m hn hm
  simp only [List.length_append, List.length_cons] at hn hm
  obtain ⟨ts', hc, hbody⟩ := hbranch stop n m (by omega) (by omega)
  simp only [List.append_assoc, List.cons_append]
  exact conditional_read_iff.mpr ⟨c, ts', body, _, more, otherwise, hc, hbody,
    hmore stop n (n + 1) (by omega) (by omega), rfl⟩

/-- A function is its parameters between bars and its body. -/
theorem Goal.Reads.function (hgap : Newlines gap) (hne : nextKind (ts₂ ++ rest) ≠ some .newline)
    (hnames : (Goal.signature names).Reads ts₁ (gap ++ (ts₂ ++ rest)))
    (hbody : (Goal.expression body).Reads ts₂ rest) :
    (Goal.primary (.function names body p)).Reads
      (⟨.operator .or, p⟩ :: (ts₁ ++ (gap ++ ts₂))) rest := by
  intro stop n m hn _
  simp only [List.length_append, List.length_cons] at hn
  obtain ⟨back, hback, hnames⟩ := hnames stop n (n + 1) (by omega) (by omega)
  rw [← List.append_assoc back] at hnames
  simp only [List.append_assoc, List.cons_append]
  exact function_read_iff.mpr ⟨names, back ++ gap, _, body, hback.append hgap, hne,
    hbody.part stop (by omega), rfl, hnames⟩

/-- A list of arguments, and the calls of what it gives. -/
theorem Goal.Reads.call (hes : (Goal.items .round es).Reads ts₁ (ts₂ ++ rest))
    (hmore : (Goal.callSuffix (.call callee es callee.position) e).Reads ts₂ rest) :
    (Goal.callSuffix callee e).Reads (⟨.opening .round, p⟩ :: (ts₁ ++ ts₂)) rest := by
  apply Goal.Reads.of_succ
  intro stop n m hn hm
  simp only [List.length_append, List.length_cons] at hn hm
  have hes := hes stop n (m + 1) (by omega) (by omega) .closingRound
  have hmore := hmore stop n m (by omega) (by omega)
  simp only [List.append_assoc, List.cons_append]
  exact callSuffix_read_iff.mpr (.inl ⟨p, _, es, _, rfl, hes, hmore⟩)

/-- Calls end where no round bracket is next. -/
theorem Goal.Reads.noCall (hne : nextKind rest ≠ some (.opening .round)) :
    (Goal.callSuffix callee callee).Reads [] rest := by
  apply Goal.Reads.of_succ
  intro stop n m _ _
  exact callSuffix_read_iff.mpr (.inr ⟨hne, rfl, rfl⟩)

/-- No more items: the closing bracket. -/
theorem Goal.Reads.noItem : (Goal.items b []).Reads [⟨.closing b, q⟩] rest := by
  apply Goal.Reads.of_succ
  intro stop n m _ _ expected
  exact items_read_iff.mpr (.inl ⟨q, rfl, rfl⟩)

/-- One item more, and a comma. -/
theorem Goal.Reads.item (hne : nextKind (ts₁ ++ ⟨.comma, q⟩ :: (ts₂ ++ rest)) ≠ some (.closing b))
    (he : (Goal.expression e).Reads ts₁ (⟨.comma, q⟩ :: (ts₂ ++ rest)))
    (hes : (Goal.items b es).Reads ts₂ rest) :
    (Goal.items b (e :: es)).Reads (ts₁ ++ ⟨.comma, q⟩ :: ts₂) rest := by
  apply Goal.Reads.of_succ
  intro stop n m hn hm expected
  simp only [List.length_append, List.length_cons] at hn hm
  have hes := hes stop n m (by omega) (by omega) expected
  simp only [List.append_assoc, List.cons_append]
  exact items_read_iff.mpr (.inr ⟨hne, e, _, he.part stop (by omega), .inl ⟨q, _, es, rfl, hes, rfl⟩⟩)

/-- The last item, without a comma. -/
theorem Goal.Reads.lastItem (hne : nextKind (ts ++ ⟨.closing b, q⟩ :: rest) ≠ some (.closing b))
    (he : (Goal.expression e).Reads ts (⟨.closing b, q⟩ :: rest)) :
    (Goal.items b [e]).Reads (ts ++ [⟨.closing b, q⟩]) rest := by
  apply Goal.Reads.of_succ
  intro stop n m hn hm expected
  simp only [List.length_append, List.length_singleton] at hn
  rw [List.append_assoc, List.singleton_append]
  exact items_read_iff.mpr (.inr ⟨hne, e, _, he.part stop (by omega), .inr ⟨q, rfl, rfl⟩⟩)

/-- No more statements: the closing brace. -/
theorem Goal.Reads.noStatement : (Goal.blockBody []).Reads [⟨.closing .curly, q⟩] rest := by
  apply Goal.Reads.of_succ
  intro stop n m _ _
  exact blockBody_read_iff.mpr (.inl ⟨q, rfl, rfl⟩)

/-- One statement more, and separators. -/
theorem Goal.Reads.statement (hgap : Separators (t :: gap))
    (hne : nextKind (ts₁ ++ t :: (gap ++ (ts₂ ++ rest))) ≠ some (.closing .curly))
    (hnext : ∀ k, nextKind (ts₂ ++ rest) = some k → k.isSeparator = false)
    (he : (Goal.expression e).Reads ts₁ (t :: (gap ++ (ts₂ ++ rest))))
    (hes : (Goal.blockBody es).Reads ts₂ rest) :
    (Goal.blockBody (e :: es)).Reads (ts₁ ++ t :: (gap ++ ts₂)) rest := by
  apply Goal.Reads.of_succ
  intro stop n m hn hm
  simp only [List.length_append, List.length_cons] at hn hm
  have hes := hes stop n m (by omega) (by omega)
  simp only [List.append_assoc, List.cons_append]
  exact blockBody_read_iff.mpr (.inr ⟨hne, e, _, he.part stop (by omega),
    .inl ⟨t, gap, _, es, rfl, hgap, hnext, hes, rfl⟩⟩)

/-- The last statement, without a separator. -/
theorem Goal.Reads.lastStatement
    (hne : nextKind (ts ++ ⟨.closing .curly, q⟩ :: rest) ≠ some (.closing .curly))
    (he : (Goal.expression e).Reads ts (⟨.closing .curly, q⟩ :: rest)) :
    (Goal.blockBody [e]).Reads (ts ++ [⟨.closing .curly, q⟩]) rest := by
  apply Goal.Reads.of_succ
  intro stop n m hn hm
  simp only [List.length_append, List.length_singleton] at hn hm
  have hne_nil : ts ≠ [] := by
    rintro rfl
    exact hne rfl
  have hpos : 0 < ts.length := List.length_pos_iff.mpr hne_nil
  -- the bracket is read in a round of its own
  have hlast : (Goal.blockBody []).Reads [⟨.closing .curly, q⟩] rest := .noStatement
  have hclose := hlast stop n m (by simp; omega) (by simp; omega)
  rw [List.append_assoc, List.singleton_append]
  exact blockBody_read_iff.mpr (.inr ⟨hne, e, _, he.part stop (by omega), .inr ⟨rfl, [], hclose, rfl⟩⟩)

/-- A condition in round brackets, line feeds, and a body. -/
theorem Goal.Reads.branch (hgap : Newlines gap) (hne : nextKind (ts₂ ++ rest) ≠ some .newline)
    (hc : (Goal.expression c).Reads ts₁ (⟨.closing .round, q⟩ :: (gap ++ (ts₂ ++ rest))))
    (hbody : (Goal.expression body).Reads ts₂ rest) :
    (Goal.branch c body).Reads
      (⟨.opening .round, p⟩ :: (ts₁ ++ ⟨.closing .round, q⟩ :: (gap ++ ts₂))) rest := by
  intro stop n m hn _
  simp only [List.length_append, List.length_cons] at hn
  simp only [List.append_assoc, List.cons_append]
  exact ⟨ts₂ ++ rest,
    condition_read_iff.mpr ⟨p, _, q, gap, rfl, hc.part stop (by omega), hgap, hne⟩,
    hbody.part stop (by omega)⟩

/-- One branch more, after the word `elif`. -/
theorem Goal.Reads.elifBranch (hgap : Newlines gap) (hbranch : (Goal.branch c body).Reads ts₁ (ts₂ ++ rest))
    (hmore : (Goal.furtherBranches more otherwise).Reads ts₂ rest) :
    (Goal.furtherBranches ((c, body) :: more) otherwise).Reads
      (gap ++ ⟨.keyword .elifWord, p⟩ :: (ts₁ ++ ts₂)) rest := by
  apply Goal.Reads.of_succ
  intro stop n m hn hm
  simp only [List.length_append, List.length_cons] at hn hm
  obtain ⟨ts', hc, hbody⟩ := hbranch stop n m (by omega) (by omega)
  have hmore := hmore stop n m (by omega) (by omega)
  simp only [List.append_assoc, List.cons_append]
  exact furtherBranches_read_iff.mpr ⟨gap, p, _, hgap, .inl ⟨rfl, c, ts', body, _, more, hc, hbody, hmore, rfl⟩⟩

/-- The last branch, after the word `else`. -/
theorem Goal.Reads.elseBranch (hgap : Newlines gap) (hgap' : Newlines gap')
    (hne : nextKind (ts ++ rest) ≠ some .newline) (h : (Goal.expression otherwise).Reads ts rest) :
    (Goal.furtherBranches [] otherwise).Reads
      (gap ++ ⟨.keyword .elseWord, p⟩ :: (gap' ++ ts)) rest := by
  apply Goal.Reads.of_succ
  intro stop n m hn hm
  simp only [List.length_append, List.length_cons] at hn
  simp only [List.append_assoc, List.cons_append]
  exact furtherBranches_read_iff.mpr ⟨gap, p, _, hgap,
    .inr ⟨rfl, gap', _, rfl, hgap', hne, h.part stop (by omega), rfl⟩⟩

/-- One parameter more, and a comma. It is none of those before. -/
theorem Goal.Reads.parameter (hseen : x ∉ seen)
    (h : (Goal.parameters (x :: seen) names).Reads ts rest) :
    (Goal.parameters seen (x :: names)).Reads
      (⟨.identifier x, p⟩ :: ⟨.comma, q⟩ :: ts) rest := by
  apply Goal.Reads.of_succ
  intro stop n m hn hm
  simp only [List.length_cons] at hn hm
  obtain ⟨back, hback, h⟩ := h stop n m (by omega) (by omega)
  exact ⟨back, hback, parameters_read_iff.mpr ⟨x, p, _, rfl, hseen, .inl ⟨q, _, names, rfl, h, rfl⟩⟩⟩

/-- The last parameter, the bar, and the line feeds that the rule drops. -/
theorem Goal.Reads.lastParameter (hseen : x ∉ seen) (hback : Newlines back) :
    (Goal.parameters seen [x]).Reads
      (⟨.identifier x, p⟩ :: ⟨.operator .or, q⟩ :: back) rest := by
  apply Goal.Reads.of_succ
  intro stop n m _ _
  exact ⟨back, hback, parameters_read_iff.mpr ⟨x, p, _, rfl, hseen, .inr ⟨q, rfl, rfl⟩⟩⟩

/-- A function of nothing begins with two bars. -/
theorem Goal.Reads.noParameters (hback : Newlines back) :
    (Goal.signature []).Reads (⟨.operator .or, q⟩ :: back) rest := by
  intro stop n m _ _
  exact ⟨back, hback, .inl ⟨q, rfl, rfl⟩⟩

/-- A function of something begins with a bar and a name. -/
theorem Goal.Reads.someParameters (hne : nextKind (ts ++ rest) ≠ some (.operator .or))
    (h : (Goal.parameters [] names).Reads ts rest) : (Goal.signature names).Reads ts rest := by
  intro stop n m hn hm
  obtain ⟨back, hback, h⟩ := h stop n m hn hm
  exact ⟨back, hback, .inr ⟨hne, h⟩⟩

end Ways

end Grammar

end Abacus
