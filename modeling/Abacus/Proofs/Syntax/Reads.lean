import Abacus.Proofs.Syntax.Plain
import Abacus.Syntax.Grammar

/-!
# What a rule reads

Positions of tokens decide nothing in the grammar. So what a rule does is told in kinds of tokens:
`Rule.Reads ks ks' good` says that from tokens of the kinds `ks` the rule reads a good value and
leaves tokens of the kinds `ks'`.

**The laws.** What two rules read one after the other is read by both together (`Rule.Reads.bind`);
and lists of parts are read if their parts are (`reads_items`, `reads_blockBody`,
`reads_furtherBranches`, `reads_parameters`).
-/

namespace Abacus

namespace Grammar

/-- From tokens of these kinds the rule reads a good value, and it leaves tokens of those kinds. -/
def Rule.Reads {α : Type} (rule : Rule α) (ks ks' : List TokenKind) (good : α → Prop) : Prop :=
  ∀ (stop : Position) (ts : List Token), ts.map Token.kind = ks →
    ∃ a rest, rule stop ts = .read a rest ∧ rest.map Token.kind = ks' ∧ good a

namespace Rule.Reads

variable {α β : Type} {rule : Rule α} {ks ks' ks'' : List TokenKind} {good good' : α → Prop}

/-- To give a value takes no token. -/
theorem pure {a : α} (h : good a) : Rule.Reads (Pure.pure a) ks ks good :=
  fun _ ts hts => ⟨a, ts, rfl, hts, h⟩

/-- **What two rules read one after the other is read by both together.** -/
theorem bind {next : α → Rule β} {fine : β → Prop} (h : rule.Reads ks ks' good)
    (hnext : ∀ a, good a → (next a).Reads ks' ks'' fine) : (rule >>= next).Reads ks ks'' fine := by
  intro stop ts hts
  obtain ⟨a, rest, hread, hrest, ha⟩ := h stop ts hts
  obtain ⟨b, rest', hread', hrest', hb⟩ := hnext a ha stop rest hrest
  refine ⟨b, rest', ?_, hrest', hb⟩
  show Rule.bind rule next stop ts = _
  rw [Rule.bind, hread]
  exact hread'

/-- What is read may be said more weakly. -/
theorem imp (h : rule.Reads ks ks' good) (himp : ∀ a, good a → good' a) :
    rule.Reads ks ks' good' := by
  intro stop ts hts
  obtain ⟨a, rest, hread, hrest, ha⟩ := h stop ts hts
  exact ⟨a, rest, hread, hrest, himp a ha⟩

end Rule.Reads

/-! ## Single tokens -/

section Tokens

variable {k : TokenKind} {ks : List TokenKind}

/-- Tokens of these kinds begin with a token of the first kind. -/
theorem exists_of_kinds {ts : List Token} (h : ts.map Token.kind = k :: ks) :
    ∃ p rest, ts = ⟨k, p⟩ :: rest ∧ rest.map Token.kind = ks := by
  cases ts with
  | nil => cases h
  | cons t rest =>
    cases h
    exact ⟨t.position, rest, rfl, rfl⟩

/-- A token of the kind wanted is taken. -/
theorem reads_accept : (accept k).Reads (k :: ks) ks fun o => ∃ p, o = some ⟨k, p⟩ := by
  intro stop ts hts
  obtain ⟨p, rest, rfl, hrest⟩ := exists_of_kinds hts
  exact ⟨some ⟨k, p⟩, rest, by simp [accept], hrest, p, rfl⟩

/-- Any other is left. -/
theorem reads_accept_none (h : ks.head? ≠ some k) : (accept k).Reads ks ks (· = none) := by
  intro stop ts hts
  refine ⟨none, ts, ?_, hts, rfl⟩
  cases ts with
  | nil => rfl
  | cons t rest =>
    subst hts
    have hne : ¬ t.kind = k := fun e => h (congrArg some e)
    simp [accept, hne]

/-- A token that is expected and there is taken. -/
theorem reads_expect {expected : Expected} : (expect k expected).Reads (k :: ks) ks fun _ => True := by
  unfold expect
  refine reads_accept.bind fun o ho => ?_
  obtain ⟨p, rfl⟩ := ho
  exact .pure trivial

/-- To look at the next token leaves it. -/
theorem reads_peek : peek.Reads (k :: ks) (k :: ks) fun o => ∃ p, o = some ⟨k, p⟩ := by
  intro stop ts hts
  obtain ⟨p, rest, rfl, -⟩ := exists_of_kinds hts
  exact ⟨_, _, rfl, hts, p, rfl⟩

/-- At the end there is none. -/
theorem reads_peek_nil : peek.Reads [] [] (· = none) := by
  intro stop ts hts
  rw [List.map_eq_nil_iff] at hts
  subst hts
  exact ⟨none, [], rfl, rfl, rfl⟩

/-- The next token is taken. -/
theorem reads_next : next.Reads (k :: ks) ks fun o => ∃ p, o = some ⟨k, p⟩ := by
  intro stop ts hts
  obtain ⟨p, rest, rfl, hrest⟩ := exists_of_kinds hts
  exact ⟨_, rest, rfl, hrest, p, rfl⟩

/-- There are no line feeds to look past. -/
theorem reads_peekPastNewlines (h : k ≠ .newline) :
    peekPastNewlines.Reads (k :: ks) (k :: ks) fun o => ∃ p, o = some ⟨k, p⟩ := by
  intro stop ts hts
  obtain ⟨p, rest, rfl, -⟩ := exists_of_kinds hts
  refine ⟨_, _, rfl, hts, p, ?_⟩
  have hk : (k != .newline) = true := bne_iff_ne.mpr h
  rw [List.find?_cons, hk]

/-- Nor to drop. -/
theorem reads_skipNewlines (h : ks.head? ≠ some .newline) :
    skipNewlines.Reads ks ks fun _ => True := by
  intro stop ts hts
  refine ⟨(), ts, ?_, hts, trivial⟩
  cases ts with
  | nil => rfl
  | cons t rest =>
    subst hts
    have hne : (t.kind == .newline) = false := beq_eq_false_iff_ne.mpr fun e => h (congrArg some e)
    simp only [skipNewlines, List.dropWhile_cons, hne, Bool.false_eq_true, if_false]

/-- Separators are dropped until something else stands there. -/
theorem reads_skipSeparators :
    skipSeparators.Reads ks (ks.dropWhile TokenKind.isSeparator) fun _ => True := by
  intro stop ts hts
  refine ⟨(), _, rfl, ?_, trivial⟩
  subst hts
  rw [List.dropWhile_map]
  rfl

end Tokens

/-! ## Parts -/

/-- What may follow an expression: the end, or a token that ends a part. -/
def Ended (ks : List TokenKind) : Prop :=
  ∀ k, ks.head? = some k → (∃ b, k = .closing b) ∨ k = .comma ∨ k = .semicolon ∨
    k = .keyword .elifWord ∨ k = .keyword .elseWord

theorem ended_nil : Ended [] := fun _ h => nomatch h

/-- A closing bracket, a separator or a word that goes on with a conditional ends an expression. -/
theorem ended_cons {k : TokenKind} {ks : List TokenKind}
    (h : (∃ b, k = .closing b) ∨ k = .comma ∨ k = .semicolon ∨ k = .keyword .elifWord ∨
      k = .keyword .elseWord) : Ended (k :: ks) := by
  intro k' hk
  cases hk
  exact h

/-- The rule reads expressions with fewer tokens than the size, if they are plain; and what stands in
the brackets of bracketed ones with at most as many. -/
structure Ready (part : Rule Expr) (size : Nat) : Prop where
  plain : ∀ {e : Expr}, e.Plain → e.kinds.length < size → ∀ {ks}, Ended ks →
    part.Reads (e.kinds ++ ks) ks fun e' => e'.bare = e.bare
  inner : ∀ {e : Expr}, e.Closed → e.IsBracketed → e.kinds.length ≤ size → ∀ ks,
    part.Reads (e.innerKinds ++ .closing .round :: ks) (.closing .round :: ks) fun e' => e'.bare = e.bare

end Grammar

namespace Expr

/-- A plain expression does not begin with a token that begins none. -/
theorem Plain.head_ne {e : Expr} (h : e.Plain) {k : TokenKind} (hk : k.begins = false)
    (ks : List TokenKind) : (e.kinds ++ ks).head? ≠ some k := by
  obtain ⟨k', ks', hkinds, hk'⟩ := h.begins
  rw [hkinds]
  intro e
  cases e
  rw [hk] at hk'
  cases hk'

/-- A list that is not empty begins as its first item does. -/
theorem begins_listKinds {items : List Expr} (begins : ∀ e ∈ items, e.Begins) (hne : items ≠ [])
    (separator : TokenKind) : ∃ k ks, listKinds separator items = k :: ks ∧ k.begins := by
  cases items with
  | nil => exact absurd rfl hne
  | cons e es =>
    obtain ⟨k, ks, hkinds, hk⟩ := begins e List.mem_cons_self
    cases es with
    | nil => exact ⟨k, ks, hkinds, hk⟩
    | cons e₂ es =>
      rw [listKinds, hkinds]
      · exact ⟨k, _, rfl, hk⟩
      · exact List.cons_ne_nil _ _

/-- So it does not begin with a kind that begins no expression. -/
theorem head_listKinds_ne {items : List Expr} (begins : ∀ e ∈ items, e.Begins) (hne : items ≠ [])
    {k : TokenKind} (hk : k.begins = false) (separator : TokenKind) (ks : List TokenKind) :
    (listKinds separator items ++ ks).head? ≠ some k := by
  obtain ⟨k', ks', hkinds, hk'⟩ := begins_listKinds begins hne separator
  rw [hkinds]
  intro e
  cases e
  rw [hk] at hk'
  cases hk'

/-- No separator is skipped before the first of plain expressions. -/
theorem dropWhile_listKinds {items : List Expr} (plain : ∀ e ∈ items, e.Plain) (hne : items ≠ [])
    (separator : TokenKind) (ks : List TokenKind) :
    (listKinds separator items ++ ks).dropWhile TokenKind.isSeparator =
      listKinds separator items ++ ks := by
  obtain ⟨k, ks', hkinds, hk⟩ := begins_listKinds (fun e he => (plain e he).begins) hne separator
  have hseparator : k.isSeparator = false := by
    cases k <;> first | rfl | cases hk
  rw [hkinds, List.cons_append, List.dropWhile_cons, hseparator]
  rfl

end Expr

namespace Grammar

/-! ## Lists of parts -/

section Lists

open Abacus.Expr

variable {part : Rule Expr} {size : Nat}

/-- **Items in brackets are read** if each of them is read before what ends a part. -/
theorem reads_parts {ι : Type} {kinds : ι → List TokenKind} {tree : ι → Expr} {b : Bracket}
    {expected : Expected} {ks : List TokenKind} : ∀ {xs : List ι} {budget : Nat},
      (∀ x ∈ xs, ∃ k ks, kinds x = k :: ks ∧ k ≠ .closing b) →
      (∀ x ∈ xs, ∀ ks, Ended ks → part.Reads (kinds x ++ ks) ks fun e => e.bare = tree x) →
      xs.length < budget →
      (items part (.closing b) expected budget).Reads
        (separated .comma (xs.map kinds) ++ .closing b :: ks) ks fun es => bareList es = xs.map tree
  | _, 0, _, _, hbudget => absurd hbudget (Nat.not_lt_zero _)
  | [], _ + 1, _, _, _ => by
    unfold items
    refine reads_accept.bind fun o ho => ?_
    obtain ⟨p, rfl⟩ := ho
    exact .pure rfl
  | x :: xs, budget + 1, hbegins, hread, hbudget => by
    unfold items
    have hx := hread x List.mem_cons_self
    obtain ⟨k, more, hkinds, hk⟩ := hbegins x List.mem_cons_self
    have hhead : ∀ ks', (kinds x ++ ks').head? ≠ some (.closing b) := by
      intro ks' hhead
      rw [hkinds] at hhead
      exact hk (Option.some.inj hhead)
    cases xs with
    | nil =>
      refine (reads_accept_none (hhead _)).bind fun o ho => ?_
      subst ho
      refine (hx _ (ended_cons (.inl ⟨b, rfl⟩))).bind fun e he => ?_
      refine (reads_accept_none (by simp)).bind fun o ho => ?_
      subst ho
      refine reads_expect.bind fun _ _ => .pure ?_
      simp only [bareList, he, List.map_cons, List.map_nil]
    | cons x₂ xs =>
      have htail : (items part (.closing b) expected budget).Reads
          (separated .comma ((x₂ :: xs).map kinds) ++ .closing b :: ks) ks fun es =>
            bareList es = (x₂ :: xs).map tree :=
        reads_parts (fun y hy => hbegins y (List.mem_cons_of_mem x hy))
          (fun y hy => hread y (List.mem_cons_of_mem x hy)) (Nat.lt_of_succ_lt_succ hbudget)
      rw [List.map_cons, List.map_cons, separated, List.append_assoc, List.cons_append]
      · refine (reads_accept_none (hhead _)).bind fun o ho => ?_
        subst ho
        refine (hx _ (ended_cons (.inr (.inl rfl)))).bind fun e he => ?_
        refine reads_accept.bind fun o ho => ?_
        obtain ⟨p, rfl⟩ := ho
        refine htail.bind fun es hes => .pure ?_
        simp only [bareList, he, hes, List.map_cons]
      · exact List.cons_ne_nil _ _

/-- Plain items in brackets are read. -/
theorem reads_items (ready : Ready part size) {b : Bracket} {expected : Expected}
    {ks : List TokenKind} {es : List Expr} {budget : Nat} (plain : ∀ e ∈ es, e.Plain)
    (hbudget : es.length < budget) (hsize : (listKinds .comma es).length < size) :
    (items part (.closing b) expected budget).Reads
      (listKinds .comma es ++ .closing b :: ks) ks fun es' => bareList es' = bareList es := by
  rw [listKinds_eq, bareList_eq]
  refine reads_parts (fun e he => ?_) (fun e he _ hks => ?_) hbudget
  · obtain ⟨k, more, hkinds, hk⟩ := (plain e he).begins
    refine ⟨k, more, hkinds, ?_⟩
    rintro rfl
    cases hk
  · have hlength := length_le_of_mem_listKinds .comma he
    exact ready.plain (plain e he) (by omega) hks

/-! ## Argument lists -/

/-- There are no calls where no round bracket is next. -/
theorem reads_callSuffix_end {ks : List TokenKind} {budget : Nat} {callee : Expr}
    (h : ks.head? ≠ some (.opening .round)) :
    (callSuffix part (budget + 1) callee).Reads ks ks (· = callee) := by
  unfold callSuffix
  refine (reads_accept_none h).bind fun o ho => ?_
  subst ho
  exact .pure rfl

/-- A list of arguments in brackets makes a call, and what follows may call again. -/
theorem reads_callSuffix (ready : Ready part size) {es : List Expr} {ks ks' : List TokenKind}
    {budget : Nat} {callee : Expr} {good : Expr → Prop} (plain : ∀ e ∈ es, e.Plain)
    (hbudget : es.length ≤ budget) (hsize : (listKinds .comma es).length < size)
    (hnext : ∀ es', bareList es' = bareList es →
      (callSuffix part budget (.call callee es' callee.position)).Reads ks ks' good) :
    (callSuffix part (budget + 1) callee).Reads
      (.opening .round :: (listKinds .comma es ++ .closing .round :: ks)) ks' good := by
  unfold callSuffix
  refine reads_accept.bind fun o ho => ?_
  obtain ⟨p, rfl⟩ := ho
  exact (reads_items ready plain (Nat.lt_succ_of_le hbudget) hsize).bind hnext

/-! ## Blocks -/

/-- **The statements of a block are read.** -/
theorem reads_blockBody (ready : Ready part size) {ks : List TokenKind} :
    ∀ {es : List Expr} {budget : Nat}, (∀ e ∈ es, e.Plain) → es.length < budget →
      (listKinds .semicolon es).length < size →
      (blockBody part budget).Reads (listKinds .semicolon es ++ .closing .curly :: ks) ks
        fun es' => bareList es' = bareList es
  | _, 0, _, hbudget, _ => absurd hbudget (Nat.not_lt_zero _)
  | [], _ + 1, _, _, _ => by
    unfold blockBody
    refine reads_accept.bind fun o ho => ?_
    obtain ⟨p, rfl⟩ := ho
    exact .pure rfl
  | e :: es, budget + 1, plain, hbudget, hsize => by
    unfold blockBody
    have hlength := length_listKinds_cons .semicolon e es
    have hhead := head_listKinds_ne (fun e he => (plain e he).begins) (List.cons_ne_nil e es)
      (k := .closing .curly) rfl
      .semicolon (.closing .curly :: ks)
    have he := plain e List.mem_cons_self
    have htail := fun x hx => plain x (List.mem_cons_of_mem e hx)
    have ih : (blockBody part budget).Reads (listKinds .semicolon es ++ .closing .curly :: ks) ks
        fun es' => bareList es' = bareList es :=
      reads_blockBody ready htail (Nat.lt_of_succ_lt_succ hbudget) (by omega)
    refine (reads_accept_none hhead).bind fun o ho => ?_
    subst ho
    cases es with
    | nil =>
      refine (ready.plain he (by omega) (ended_cons (.inl ⟨.curly, rfl⟩))).bind fun e' he' => ?_
      refine reads_peek.bind fun o ho => ?_
      obtain ⟨p, rfl⟩ := ho
      refine ih.bind fun es' hes' => .pure ?_
      simp only [bareList, he', hes']
    | cons e₂ es =>
      rw [listKinds, List.append_assoc, List.cons_append]
      · refine (ready.plain he (by omega) (ended_cons (.inr (.inr (.inl rfl))))).bind fun e' he' => ?_
        refine reads_peek.bind fun o ho => ?_
        obtain ⟨p, rfl⟩ := ho
        refine reads_skipSeparators.bind fun _ _ => ?_
        rw [List.dropWhile_cons_of_pos rfl,
          dropWhile_listKinds htail (List.cons_ne_nil e₂ es)]
        refine ih.bind fun es' hes' => .pure ?_
        simp only [bareList, he', hes']
      · exact List.cons_ne_nil _ _

/-- Without positions no expression disappears. -/
theorem bareList_eq_nil {es : List Expr} (h : bareList es = []) : es = [] := by
  cases es with
  | nil => rfl
  | cons => cases h

/-- A printed block is read as its statements. -/
theorem reads_block (ready : Ready part size) {es : List Expr} {budget : Nat} {p : Position}
    {ks : List TokenKind} (plain : ∀ e ∈ es, e.Plain) (hne : es ≠ []) (hbudget : es.length < budget)
    (hsize : (listKinds .semicolon es).length < size) :
    (block part budget p).Reads (listKinds .semicolon es ++ .closing .curly :: ks) ks
      fun e' => e'.bare = .block (bareList es) .start := by
  unfold block
  refine reads_skipSeparators.bind fun _ _ => ?_
  rw [dropWhile_listKinds plain hne]
  refine (reads_blockBody ready plain hbudget hsize).bind fun es' hes' => ?_
  have hes : es'.isEmpty = false := by
    cases es' with
    | nil => exact absurd (bareList_eq_nil hes'.symm) hne
    | cons => rfl
  rw [hes]
  refine .pure ?_
  rw [bare, hes']

/-! ## Conditionals -/

/-- A printed condition stands in the brackets that it is printed with. -/
theorem reads_condition (ready : Ready part size) {e : Expr} {ks : List TokenKind} (he : e.Closed)
    (hb : e.IsBracketed) (hsize : e.kinds.length ≤ size) (hks : ks.head? ≠ some .newline) :
    (condition part).Reads (e.kinds ++ ks) ks fun e' => e'.bare = e.bare := by
  unfold condition
  rw [he.kinds_eq hb, List.cons_append, List.append_assoc, List.singleton_append]
  refine reads_expect.bind fun _ _ => ?_
  refine (ready.inner he hb hsize ks).bind fun e' he' => ?_
  refine reads_expect.bind fun _ _ => ?_
  exact (reads_skipNewlines hks).bind fun _ _ => .pure he'

/-- After the body of a branch there is `elif` or `else`. -/
theorem head_branches (branches : List (Expr × Expr)) (ks : List TokenKind) :
    ∃ k ks', branchKinds .elifWord branches ++ .keyword .elseWord :: ks = k :: ks' ∧
      (k = .keyword .elifWord ∨ k = .keyword .elseWord) := by
  cases branches with
  | nil => exact ⟨_, _, rfl, .inr rfl⟩
  | cons b more => exact ⟨_, _, rfl, .inl rfl⟩

/-- The bodies of a conditional end where the next branch begins. -/
theorem ended_branches (branches : List (Expr × Expr)) (ks : List TokenKind) :
    Ended (branchKinds .elifWord branches ++ .keyword .elseWord :: ks) := by
  obtain ⟨k, ks', h, hk⟩ := head_branches branches ks
  rw [h]
  exact ended_cons (.inr (.inr (.inr hk)))

/-- **The branches after the first are read.** -/
theorem reads_furtherBranches (ready : Ready part size) {otherwise : Expr} {ks : List TokenKind}
    (hotherwise : otherwise.Plain) (hks : Ended ks) :
    ∀ {branches : List (Expr × Expr)} {budget : Nat}, (∀ b ∈ branches, b.1.IsBracketed) →
      (∀ b ∈ branches, b.1.Closed) → (∀ b ∈ branches, b.2.Plain) → branches.length < budget →
      (branchKinds .elifWord branches).length + otherwise.kinds.length < size →
      (furtherBranches part budget).Reads
        (branchKinds .elifWord branches ++ .keyword .elseWord :: (otherwise.kinds ++ ks)) ks
        fun r => bareBranches r.1 = bareBranches branches ∧ r.2.bare = otherwise.bare
  | _, 0, _, _, _, hbudget, _ => absurd hbudget (Nat.not_lt_zero _)
  | [], _ + 1, _, _, _, _, hsize => by
    unfold furtherBranches
    rw [branchKinds, List.nil_append]
    refine (reads_peekPastNewlines (by simp)).bind fun o ho => ?_
    obtain ⟨p, rfl⟩ := ho
    refine (reads_skipNewlines (by simp)).bind fun _ _ => ?_
    refine reads_next.bind fun _ _ => ?_
    refine (reads_skipNewlines (hotherwise.head_ne rfl ks)).bind fun _ _ => ?_
    rw [branchKinds, List.length_nil, Nat.zero_add] at hsize
    exact (ready.plain hotherwise hsize hks).bind fun e' he' => .pure ⟨rfl, he'⟩
  | (condition, body) :: branches, budget + 1, bracketed, closed, plain, hbudget, hsize => by
    unfold furtherBranches
    have hmem := List.mem_cons_self (a := (condition, body)) (l := branches)
    have htail := fun b (hb : b ∈ branches) => List.mem_cons_of_mem (condition, body) hb
    simp only [branchKinds, List.length_cons, List.length_append] at hsize
    simp only [branchKinds, List.cons_append, List.append_assoc]
    refine (reads_peekPastNewlines (by simp)).bind fun o ho => ?_
    obtain ⟨p, rfl⟩ := ho
    refine (reads_skipNewlines (by simp)).bind fun _ _ => ?_
    refine reads_next.bind fun _ _ => ?_
    refine (reads_condition ready (closed _ hmem) (bracketed _ hmem) (by simp only; omega)
      ((plain _ hmem).head_ne rfl _)).bind fun c' hc' => ?_
    refine (ready.plain (plain _ hmem) (by simp only; omega)
      (ended_branches branches _)).bind fun b' hb' => ?_
    refine (reads_furtherBranches ready hotherwise hks (fun b hb => bracketed b (htail b hb))
      (fun b hb => closed b (htail b hb)) (fun b hb => plain b (htail b hb))
      (Nat.lt_of_succ_lt_succ hbudget) (by omega)).bind fun r hr => .pure ?_
    obtain ⟨hmore, helse⟩ := hr
    exact ⟨by simp only [bareBranches, hc', hb', hmore], helse⟩

/-- A printed conditional is read as its branches. -/
theorem reads_conditional (ready : Ready part size) {branches : List (Expr × Expr)}
    {otherwise : Expr} {budget : Nat} {p : Position} {ks : List TokenKind} (hne : branches ≠ [])
    (bracketed : ∀ b ∈ branches, b.1.IsBracketed) (closed : ∀ b ∈ branches, b.1.Closed)
    (plain : ∀ b ∈ branches, b.2.Plain) (hotherwise : otherwise.Plain) (hks : Ended ks)
    (hbudget : branches.length ≤ budget)
    (hsize : (branchKinds .ifWord branches).length + otherwise.kinds.length ≤ size) :
    (conditional part budget p).Reads
      ((branchKinds .ifWord branches ++ .keyword .elseWord :: (otherwise.kinds ++ ks)).tail) ks
      fun e' => e'.bare = .conditional (bareBranches branches) otherwise.bare .start := by
  unfold conditional
  cases branches with
  | nil => exact absurd rfl hne
  | cons b branches =>
    obtain ⟨condition, body⟩ := b
    have hmem := List.mem_cons_self (a := (condition, body)) (l := branches)
    have htail := fun b (hb : b ∈ branches) => List.mem_cons_of_mem (condition, body) hb
    simp only [branchKinds, List.length_cons, List.length_append] at hsize
    simp only [branchKinds, List.cons_append, List.append_assoc, List.tail_cons]
    refine (reads_condition ready (closed _ hmem) (bracketed _ hmem) (by simp only; omega)
      ((plain _ hmem).head_ne rfl _)).bind fun c' hc' => ?_
    refine (ready.plain (plain _ hmem) (by simp only; omega)
      (ended_branches branches _)).bind fun b' hb' => ?_
    refine (reads_furtherBranches ready hotherwise hks (fun b hb => bracketed b (htail b hb))
      (fun b hb => closed b (htail b hb)) (fun b hb => plain b (htail b hb))
      hbudget (by omega)).bind fun r hr => .pure ?_
    obtain ⟨hmore, helse⟩ := hr
    simp only [bare, bareBranches, hc', hb', hmore, helse]

/-! ## Functions -/

/-- **Distinct parameters are read.** -/
theorem reads_parameters {ks : List TokenKind} :
    ∀ {names seen : List String} {budget : Nat}, names ≠ [] → names.Nodup →
      (∀ x ∈ names, x ∉ seen) → names.length ≤ budget →
      (parameters budget seen).Reads (nameKinds names ++ .operator .or :: ks) ks (· = names)
  | [], _, _, hne, _, _, _ => absurd rfl hne
  | _ :: _, _, 0, _, _, _, hbudget => absurd hbudget (Nat.not_succ_le_zero _)
  | name :: names, seen, budget + 1, _, hnodup, hseen, hbudget => by
    unfold parameters
    have hname : ¬ seen.contains name := by
      simpa using hseen name List.mem_cons_self
    obtain ⟨hnew, hnodup⟩ := List.nodup_cons.mp hnodup
    cases names with
    | nil =>
      refine reads_next.bind fun o ho => ?_
      obtain ⟨p, rfl⟩ := ho
      simp only [hname]
      refine (reads_accept_none (by simp)).bind fun o ho => ?_
      subst ho
      exact reads_expect.bind fun _ _ => .pure rfl
    | cons name₂ names =>
      refine reads_next.bind fun o ho => ?_
      obtain ⟨p, rfl⟩ := ho
      simp only [hname]
      refine reads_accept.bind fun o ho => ?_
      obtain ⟨q, rfl⟩ := ho
      refine (reads_parameters (List.cons_ne_nil name₂ names) hnodup (fun x hx => ?_)
        (Nat.le_of_succ_le_succ hbudget)).bind fun names' hnames' => .pure (by rw [hnames'])
      rw [List.mem_cons]
      rintro (rfl | h)
      · exact hnew hx
      · exact hseen x (List.mem_cons_of_mem name hx) h

/-- A printed function is read as its parameters and its body. -/
theorem reads_function (ready : Ready part size) {names : List String} {body : Expr} {budget : Nat}
    {p : Position} {ks : List TokenKind} (hnodup : names.Nodup) (hbody : body.Plain)
    (hks : Ended ks) (hbudget : names.length ≤ budget) (hsize : body.kinds.length < size) :
    (function part budget p).Reads
      (nameKinds names ++ .operator .or :: (body.kinds ++ ks)) ks
      fun e' => e'.bare = .function names body.bare .start := by
  unfold function
  cases names with
  | nil =>
    refine reads_accept.bind fun o ho => ?_
    obtain ⟨q, rfl⟩ := ho
    have hnone : Rule.Reads (Pure.pure []) (body.kinds ++ ks) (body.kinds ++ ks)
        ((· = []) : List String → Prop) := .pure rfl
    refine hnone.bind fun names' hnames' => ?_
    refine (reads_skipNewlines (hbody.head_ne rfl ks)).bind fun _ _ => ?_
    refine (ready.plain hbody hsize hks).bind fun e' he' => .pure ?_
    simp only [bare, hnames', he']
  | cons name names =>
    have hhead : (nameKinds (name :: names) ++ .operator .or :: (body.kinds ++ ks)).head? ≠
        some (.operator .or) := by
      cases names <;> simp [nameKinds]
    refine (reads_accept_none hhead).bind fun o ho => ?_
    subst ho
    refine (reads_parameters (List.cons_ne_nil name names) hnodup (fun _ _ => List.not_mem_nil)
      hbudget).bind fun names' hnames' => ?_
    refine (reads_skipNewlines (hbody.head_ne rfl ks)).bind fun _ _ => ?_
    refine (ready.plain hbody hsize hks).bind fun e' he' => .pure ?_
    simp only [bare, hnames', he']

end Lists

end Grammar

end Abacus
