import Abacus.Proofs.Store.Acyclic
import Abacus.Proofs.Store.Reserved
import Abacus.Proofs.Syntax.Composition
import Abacus.Proofs.Syntax.Precedence
import Abacus.Proofs.Syntax.Scanning

/-!
# Printed values are read back

Integers, Booleans, types and vectors of these are printed as a program may write them. A sign is
read as a prefix operator on the digits behind it, and a type as the name that the outermost scope
binds to it; so reading back goes through all levels of the grammar and evaluates operators and
names.

The digits of a literal stand for a 64-bit integer of their own. Those of the least integer do not,
and it is the one value whose text is refused (`leastInteger_refused`).

**The law** (`Store.Writable.reads_back`): from the text of any other value of this kind a new
outermost scope computes the value again.
-/

namespace Abacus

namespace Store

/-- Values that are printed as they are written: integers but the least one, Booleans, types, and
vectors of such values. -/
inductive Writable (s : Store) : Value → Prop
  | integer {n : Int64} : n ≠ Int64.minValue → Writable s (.number (.integer n))
  | boolean {b : Bool} : Writable s (.boolean b)
  | type {tag : TypeTag} : Writable s (.type tag)
  | vector {id : VectorId} : id.index < s.vectors.size → (∀ v ∈ s.items id, Writable s v) →
    Writable s (.vector id)

/-- A value as it is printed and as it is read. -/
structure Form where
  value : Value
  text : String
  kinds : List TokenKind
  expr : Expr

/-- What is printed, and read, for a value in a store. -/
inductive Written (s : Store) : Form → Prop
  | integer {n : Int64} : 0 ≤ n.toInt → Written s ⟨.number (.integer n), (Number.integer n).text,
    [.number (.integer n)], .literal (.number (.integer n)) .start⟩
  | negative {n : Int64} : n.toInt < 0 → n ≠ Int64.minValue → Written s ⟨.number (.integer n),
    "-" ++ (Number.integer (-n)).text, [.operator .sub, .number (.integer (-n))],
    .unary .neg (.literal (.number (.integer (-n))) .start) .start⟩
  | boolean {b : Bool} : Written s ⟨.boolean b, toString b, [(Literal.boolean b).kind],
    .literal (.boolean b) .start⟩
  | type {tag : TypeTag} : Written s ⟨.type tag, tag.name, [.identifier tag.name],
    .identifier tag.name .start⟩
  | vector {id : VectorId} {parts : List Form} : id.index < s.vectors.size →
    s.items id = parts.map Form.value → (∀ part ∈ parts, Written s part) →
    Written s ⟨.vector id, "[" ++ ", ".intercalate (parts.map Form.text) ++ "]",
      .opening .square :: (Expr.separated .comma (parts.map Form.kinds) ++ [.closing .square]),
      .vector (parts.map Form.expr) .start⟩

variable {s s' : Store} {v : Value} {form form' : Form}

/-- A value that can be written has a form in which it is. -/
theorem Writable.exists_form (h : s.Writable v) : ∃ form, s.Written form ∧ form.value = v := by
  induction h with
  | @integer n hn =>
    by_cases hsign : 0 ≤ n.toInt
    · exact ⟨_, .integer hsign, rfl⟩
    · exact ⟨_, .negative (Int.not_le.mp hsign) hn, rfl⟩
  | boolean => exact ⟨_, .boolean, rfl⟩
  | type => exact ⟨_, .type, rfl⟩
  | @vector id hid _ ih =>
    have hparts : ∀ items : List Value, (∀ v ∈ items, ∃ form, s.Written form ∧ form.value = v) →
        ∃ parts : List Form, items = parts.map Form.value ∧ ∀ part ∈ parts, s.Written part := by
      intro items
      induction items with
      | nil => exact fun _ => ⟨[], rfl, nofun⟩
      | cons v rest ihRest =>
        intro h
        obtain ⟨form, hform, rfl⟩ := h v List.mem_cons_self
        obtain ⟨parts, rfl, hparts⟩ := ihRest fun w hw => h w (List.mem_cons_of_mem _ hw)
        exact ⟨form :: parts, rfl, List.forall_mem_cons.mpr ⟨hform, hparts⟩⟩
    obtain ⟨parts, hitems, hparts⟩ := hparts (s.items id) ih
    exact ⟨_, .vector hid hitems hparts, rfl⟩

/-! ## Depth -/

/-- A vector that can be written is one that the store has. -/
theorem Writable.index_lt {id : VectorId} (h : s.Writable (.vector id)) :
    id.index < s.vectors.size := by
  cases h with
  | vector hid _ => exact hid

/-- What can be written does not hold itself. -/
theorem Writable.not_cyclic (h : s.Writable v) : ∀ id, v = .vector id →
    ¬ Relation.TransGen s.Carries id id := by
  induction h with
  | @vector id _ _ ih =>
    rintro _ ⟨⟩ hcycle
    -- the way round leads through an element, which would hold itself as well
    obtain ⟨inner, hfirst, hrest⟩ := Relation.TransGen.head'_iff.mp hcycle
    exact ih _ hfirst inner rfl (.tail' hrest hfirst)
  | _ => exact nofun

/-- No way down from a writable value is longer than there are vectors. -/
theorem Writable.nestedTo (h : s.Writable v) : s.NestedTo s.depth v := by
  have hvector : ∀ {v : Value}, s.Writable v → ∀ depth, (∀ id, v = .vector id → s.weight id < depth) →
      s.NestedTo depth v := by
    intro v h
    induction h with
    | @vector id hid hitems ih =>
      intro depth hdepth
      have hlt := hdepth id rfl
      obtain ⟨depth, rfl⟩ : ∃ d, depth = d + 1 := ⟨depth - 1, by omega⟩
      intro v hv
      refine ih v hv depth ?_
      rintro inner rfl
      have hinner := hitems _ hv
      have hfall := weight_lt hv hinner.index_lt (hinner.not_cyclic inner rfl)
      omega
    | _ => intro depth _; cases depth <;> trivial
  exact hvector h _ fun id _ => Nat.lt_succ_of_le (s.weight_le id)

/-! ## Printing -/

/-- Every integer but the least one has a negation. -/
theorem toInt_neg {n : Int64} (hn : n ≠ Int64.minValue) : (-n).toInt = -n.toInt := by
  have hlow := Int64.minValue_le_toInt n
  have hhigh := Int64.toInt_le n
  have hne : n.toInt ≠ Int64.minValue.toInt := fun h => hn (Int64.toInt_inj.mp h)
  rw [Int64.toInt_minValue] at hlow hne
  rw [Int64.toInt_maxValue] at hhigh
  rw [Int64.toInt_neg]
  exact Int.bmod_eq_of_le (by omega) (by omega)

/-- A negative integer is printed as a sign before the digits of its negation. -/
theorem text_negative {n : Int64} (hsign : n.toInt < 0) (hn : n ≠ Int64.minValue) :
    (Number.integer n).text = "-" ++ (Number.integer (-n)).text := by
  obtain ⟨k, hk⟩ := Int.eq_negSucc_of_lt_zero hsign
  rw [Number.text, Number.text, toInt_neg hn, hk]
  rfl

/-- What is written for a value is what is printed for it. -/
theorem Written.textTo (h : s.Written form) : ∀ {depth : Nat}, s.NestedTo depth form.value →
    s.textTo depth form.value = form.text := by
  induction h with
  | integer | boolean | type => 
    intro depth _
    cases depth <;> rfl
  | negative hsign hn =>
    intro depth _
    cases depth <;> exact text_negative hsign hn
  | @vector id parts _ hitems _ ih =>
    intro depth hnested
    cases depth with
    | zero => exact hnested.elim
    | succ depth =>
      have hparts : (s.items id).map (s.textTo depth) = parts.map Form.text := by
        rw [hitems, List.map_map]
        refine List.map_congr_left fun part hpart => ih part hpart (hnested _ ?_)
        rw [hitems]
        exact List.mem_map_of_mem hpart
      rw [Store.textTo, hparts]

/-! ## Copies -/

/-- The second value is the first one again, with vectors of its own. -/
inductive Copied (s : Store) : Value → Value → Prop
  | integer {n : Int64} : Copied s (.number (.integer n)) (.number (.integer n))
  | boolean {b : Bool} : Copied s (.boolean b) (.boolean b)
  | type {tag : TypeTag} : Copied s (.type tag) (.type tag)
  | vector {id id' : VectorId} {pairs : List (Value × Value)} : id.index < s.vectors.size →
    id'.index < s.vectors.size → s.items id = pairs.map Prod.fst →
    s.items id' = pairs.map Prod.snd → (∀ pair ∈ pairs, Copied s pair.1 pair.2) →
    Copied s (.vector id) (.vector id')

/-- A copy stays one while the store grows. -/
theorem Copied.grows {w : Value} (h : s.Copied v w) (grows : s.Grows s') : s'.Copied v w := by
  induction h with
  | integer => exact .integer
  | boolean => exact .boolean
  | type => exact .type
  | vector hid hid' hitems hitems' _ ih =>
    refine .vector (Nat.lt_of_lt_of_le hid grows.size_vectors)
      (Nat.lt_of_lt_of_le hid' grows.size_vectors) ?_ ?_ ih
    · rw [items_grows grows hid, hitems]
    · rw [items_grows grows hid', hitems']

/-- What can be written can be while the store grows. -/
theorem Writable.grows (h : s.Writable v) (grows : s.Grows s') : s'.Writable v := by
  induction h with
  | integer hn => exact .integer hn
  | boolean => exact .boolean
  | type => exact .type
  | vector hid _ ih =>
    refine .vector (Nat.lt_of_lt_of_le hid grows.size_vectors) ?_
    rw [items_grows grows hid]
    exact ih

/-- Copies are the same, as deep as they go. -/
theorem Copied.same {w : Value} (h : s.Copied v w) : ∀ {depth : Nat}, s.NestedTo depth v →
    s.equalTo Number.same depth v w = true := by
  induction h with
  | @vector id id' pairs _ _ hitems hitems' _ ih =>
    intro depth hnested
    cases depth with
    | zero => exact hnested.elim
    | succ depth =>
      have hpairs : ∀ pair ∈ pairs, s.equalTo Number.same depth pair.1 pair.2 = true := by
        refine fun pair hpair => ih pair hpair (hnested _ ?_)
        rw [hitems]
        exact List.mem_map_of_mem hpair
      have hzip : (s.items id).zip (s.items id') = pairs := by
        rw [hitems, hitems']
        exact (List.zip_of_prod rfl rfl).symm
      have hlength : ((s.items id).length == (s.items id').length) = true := by
        rw [hitems, hitems', List.length_map, List.length_map, beq_self_eq_true]
      rw [equalTo, hzip, hlength, List.all_eq_true.mpr hpairs, Bool.and_self, Bool.or_true]
  | _ =>
    intro depth _
    cases depth <;> simp [equalTo, Number.same, sameAtom]

/-! ## Evaluating -/

/-- In an outermost scope every type has its name. -/
theorem lookup_type {scope : ScopeId} (h : s.scope scope = .global) (tag : TypeTag) :
    s.lookup scope tag.name = .ok (.type tag) := by
  have hmem : (tag.name, Value.type tag) ∈ Scope.builtins :=
    List.mem_append_right _ (List.mem_map.mpr ⟨tag, by cases tag <;> decide, rfl⟩)
  have hchain : s.chain scope = [scope] := by
    rw [Store.chain, h]
    rfl
  rw [Store.lookup, hchain, List.findSome?_cons, h, Scope.get?_global hmem]

section Evaluation

variable {call : Call} {scope : ScopeId} {e : Expr}

/-- A tree that is a literal without its position is one with it. -/
theorem of_bare_literal {value : Literal} (h : e.bare = .literal value .start) :
    ∃ p, e = .literal value p := by
  cases e <;> cases h
  exact ⟨_, rfl⟩

/-- The value that an expression computes, with what it adds to the store. -/
def Computes (call : Call) (scope : ScopeId) (s : Store) (e : Expr) (v : Value) : Prop :=
  ∃ w s', Action.evaluate call e scope s = .ok w s' ∧ s.Grows s' ∧ s'.Copied v w

/-- A sign before a literal computes the negative integer, except the least one. -/
theorem computes_negative {n : Int64} (hn : n ≠ Int64.minValue)
    (h : e.bare = .unary .neg (.literal (.number (.integer (-n))) .start) .start) :
    Computes call scope s e (.number (.integer n)) := by
  cases e with
  | unary op operand p =>
    injection h with hop hoperand
    subst hop
    obtain ⟨q, rfl⟩ := of_bare_literal hoperand
    have hneg : (Number.integer (-n)).neg = .integer n := by
      rw [Number.neg, toInt_neg hn, Int.neg_neg, Number.widen, Lexeme.fit?_toInt]
    refine ⟨_, s, ?_, .refl _ s, .integer⟩
    show Action.negateTo p s.depth (.number (.integer (-n))) s = _
    rw [Store.depth, Action.negateTo, hneg]
    rfl
  | _ => cases h

/-- Parts are computed one after the other. -/
theorem computes_parts {parts : List Form} (hparts : ∀ part ∈ parts, ∀ {s₁ : Store} {e : Expr},
      e.bare = part.expr → s.Grows s₁ → scope.index < s₁.scopes.size → s₁.scope scope = .global →
      Computes call scope s₁ e part.value) :
    ∀ {s₁ : Store} {es : List Expr}, Expr.bareList es = parts.map Form.expr → s.Grows s₁ →
      scope.index < s₁.scopes.size → s₁.scope scope = .global →
      ∃ (pairs : List (Value × Value)) (s₂ : Store),
        Action.evaluateAll call es scope s₁ = .ok (pairs.map Prod.snd) s₂ ∧ s₁.Grows s₂ ∧
        pairs.map Prod.fst = parts.map Form.value ∧ ∀ pair ∈ pairs, s₂.Copied pair.1 pair.2 := by
  induction parts with
  | nil =>
    intro s₁ es hes _ _ _
    obtain rfl : es = [] := Grammar.bareList_eq_nil hes
    have hrun : Action.evaluateAll call [] scope s₁ = .ok [] s₁ := by
      rw [Action.evaluateAll]
      rfl
    exact ⟨[], s₁, hrun, .refl _ s₁, rfl, List.forall_mem_nil _⟩
  | cons part parts ih =>
    intro s₁ es hes hgrows hlt hscope
    cases es with
    | nil => cases hes
    | cons e es =>
      injection hes with he hes
      obtain ⟨w, s₂, hrun, hgrows₂, hcopied⟩ :=
        hparts part List.mem_cons_self he hgrows hlt hscope
      obtain ⟨pairs, s₃, hruns, hgrows₃, hvalues, hpairs⟩ :=
        ih (fun other hother => hparts other (List.mem_cons_of_mem _ hother)) hes
          (hgrows.trans hgrows₂) (Nat.lt_of_lt_of_le hlt hgrows₂.size_scopes)
          ((hgrows₂.scope hlt).trans hscope)
      refine ⟨(part.value, w) :: pairs, s₃, ?_, hgrows₂.trans hgrows₃, ?_, ?_⟩
      · rw [Action.evaluateAll, Action.bind_ok hrun, Action.bind_ok hruns]
        rfl
      · rw [List.map_cons, List.map_cons, hvalues]
      · exact List.forall_mem_cons.mpr ⟨hcopied.grows hgrows₃, hpairs⟩

/-- **What is read for a value computes it again** where types have their names. -/
theorem Written.computes (h : s.Written form) : ∀ {s₁ : Store} {e : Expr}, e.bare = form.expr →
    s.Grows s₁ → scope.index < s₁.scopes.size → s₁.scope scope = .global →
    Computes call scope s₁ e form.value := by
  induction h with
  | integer _ =>
    intro s₁ e he _ _ _
    obtain ⟨p, rfl⟩ := of_bare_literal he
    exact ⟨_, s₁, rfl, .refl _ s₁, .integer⟩
  | negative hsign hn => exact fun he _ _ _ => computes_negative hn he
  | boolean =>
    intro s₁ e he _ _ _
    obtain ⟨p, rfl⟩ := of_bare_literal he
    exact ⟨_, s₁, rfl, .refl _ s₁, .boolean⟩
  | @type tag =>
    intro s₁ e he _ _ hscope
    cases e with
    | identifier name p =>
      injection he with hname
      subst hname
      refine ⟨.type tag, s₁, ?_, .refl _ s₁, .type⟩
      show Action.ofName (·.lookup scope tag.name) p s₁ = _
      simp only [Action.ofName, lookup_type hscope]
    | _ => cases he
  | @vector id parts hid hitems _ ih =>
    intro s₁ e he hgrows hlt hscope
    cases e with
    | vector es p =>
      injection he with hes
      obtain ⟨pairs, s₂, hrun, hgrows₂, hvalues, hpairs⟩ :=
        computes_parts (fun part hpart => ih part hpart) hes hgrows hlt hscope
      have hnew := s₂.grows_addVector (pairs.map Prod.snd).toArray
      have hold := hgrows.trans (hgrows₂.trans hnew)
      refine ⟨.vector (s₂.addVector (pairs.map Prod.snd).toArray).1, _, ?_, hgrows₂.trans hnew,
        .vector (Nat.lt_of_lt_of_le hid hold.size_vectors) ?_ ?_ ?_
          fun pair hpair => (hpairs pair hpair).grows hnew⟩
      · rw [Action.evaluate, Action.bind_ok hrun]
        rfl
      · simp [addVector]
      · rw [items_grows hold hid, hitems, hvalues]
      · rw [Store.items, vector_addVector_new]
    | _ => cases he

end Evaluation

/-! ## Reading -/

/-- The name of a type is a name. -/
theorem isName_type (tag : TypeTag) : IsName tag.name := by
  cases tag <;> decide

/-- The negative of a negative integer is not negative, except that of the least one. -/
theorem toInt_nonneg_neg {n : Int64} (hsign : n.toInt < 0) (hn : n ≠ Int64.minValue) :
    0 ≤ (-n).toInt := by
  rw [toInt_neg hn]
  omega

/-- **What is printed for a value is read as its tokens** before a delimiter. -/
theorem Written.scans (h : s.Written form) : ScansAs form.text.toList form.kinds := by
  induction h with
  | integer hsign => exact Expr.scanned_integer hsign (p := .start)
  | boolean => exact Expr.scanned_boolean _ (p := .start)
  | type => exact Expr.scanned_identifier (isName_type _) (p := .start)
  | @negative n hsign hn =>
    have hdigits : ScansAs (Number.integer (-n)).text.toList [.number (.integer (-n))] :=
      Expr.scanned_integer (toInt_nonneg_neg hsign hn) (p := .start)
    obtain ⟨c, more, htext, -, harrow, hequals⟩ := hdigits.begins
    refine ⟨⟨'-', (Number.integer (-n)).text.toList, by simp, by decide⟩,
      fun {shapes rest ks} hrest hscans => ?_⟩
    have hsign : Lexeme.Lexes ['-'] (.operator .sub) ((Number.integer (-n)).text.toList ++ rest) := by
      rw [htext]
      exact Lexeme.lexes_unary .neg (fun e => harrow (Option.some.inj e))
        (fun e => hequals (Option.some.inj e))
    simpa using hsign.scans_inert rfl (hdigits.scans hrest hscans)
  | @vector id parts _ _ _ ih =>
    refine ⟨⟨'[', (", ".intercalate (parts.map Form.text)).toList ++ [']'], by simp, by decide⟩,
      fun {shapes rest ks} _ hscans => ?_⟩
    have hparts := (scans_parts ih .square hscans).opening .square
    simpa [Bracket.opening, Bracket.closing] using hparts

/-- A written form begins with a token that closes no bracket. -/
theorem Written.exists_kinds (h : s.Written form) :
    ∃ k ks, form.kinds = k :: ks ∧ ∀ b, k ≠ .closing b := by
  cases h with
  | @boolean b => cases b <;> exact ⟨_, _, rfl, nofun⟩
  | _ => exact ⟨_, _, rfl, nofun⟩

open Grammar in
/-- **The tokens of a value are read as its expression** where its part ends. -/
theorem Written.reads (h : s.Written form) : ∀ {m : Nat} {ks : List TokenKind},
    form.kinds.length ≤ m → Grammar.Ended ks →
    (expression (m + 1)).Reads (form.kinds ++ ks) ks fun e => e.bare = form.expr := by
  induction h with
  | integer _ => exact fun _ hks => reads_argument (.literal (.number _)) hks
  | boolean => exact fun _ hks => reads_argument (.literal (.boolean _)) hks
  | type => exact fun _ hks => reads_argument (.identifier _) hks
  | @negative n _ _ =>
    intro m ks hsize hks
    have hbudget : [UnaryOp.neg].length < m + 1 := Nat.lt_succ_of_lt hsize
    exact reads_expression (reads_prefixes (.literal (.number (.integer (-n))))
      (hks.head_ne (.inl rfl)) hbudget) hks nofun
  | @vector id parts _ _ hparts ih =>
    intro m ks hsize hks
    have hcount : parts.length ≤ (Expr.separated .comma (parts.map Form.kinds)).length := by
      rw [← List.length_map Form.kinds]
      refine Expr.length_le_separated .comma fun part hpart => ?_
      obtain ⟨form, hform, rfl⟩ := List.mem_map.mp hpart
      obtain ⟨k, more, hkinds, -⟩ := (hparts form hform).exists_kinds
      rw [hkinds]
      exact Nat.succ_pos _
    simp only [List.length_cons, List.length_append, List.length_nil] at hsize
    obtain ⟨m, rfl⟩ : ∃ m', m = m' + 1 := ⟨m - 1, by omega⟩
    rw [List.cons_append, List.append_assoc, List.singleton_append]
    refine reads_expression (reads_unary ?_ rfl) hks nofun
    unfold primary
    refine reads_next.bind fun o ho => ?_
    obtain ⟨p, rfl⟩ := ho
    refine (reads_parts (fun part hpart => ?_) (fun part hpart ks hks => ?_) (by omega)).bind
      fun es (hes : Expr.bareList es = parts.map Form.expr) => .pure ?_
    · obtain ⟨k, more, hkinds, hk⟩ := (hparts part hpart).exists_kinds
      exact ⟨k, more, hkinds, hk _⟩
    · have hmem : part.kinds ∈ parts.map Form.kinds := List.mem_map_of_mem hpart
      have hlength := Expr.length_le_of_mem_separated .comma hmem
      exact ih part hpart (by omega) hks
    · rw [Expr.bare, hes]

/-! ## From text to value -/

/-- The text of a value is a script of one expression. -/
theorem Written.script (h : s.Written form) :
    ∃ e taken, Script.read form.text.toList .start = ⟨[⟨e, taken⟩], none⟩ ∧ e.bare = form.expr := by
  obtain ⟨k, more, hk, -⟩ := h.exists_kinds
  have hscans := h.scans.scans Lexeme.delimited_nil scans_nil
  rw [List.append_nil, List.append_nil] at hscans
  obtain ⟨statement, hfirst, hkinds, htaken⟩ :=
    hscans (LineTable.ofText form.text.toList .start) false [] 0 0 rfl
  have hlength : statement.tokens.length = form.kinds.length := by
    rw [← hkinds, List.length_map]
  have hreads := h.reads (Nat.le_of_eq hlength.symm) Grammar.ended_nil
  rw [List.append_nil] at hreads
  obtain ⟨e, rest, hread, hrest, he⟩ := hreads statement.stop statement.tokens hkinds
  rw [List.map_eq_nil_iff] at hrest
  subst hrest
  have hexpr : statement.expr = .ok e := by
    rw [Statement.expr, Expr.ofTokens, hread]
    rfl
  have hne : statement.tokens ≠ [] := by
    intro hnil
    rw [hnil, hk] at hkinds
    cases hkinds
  have hdrop : form.text.toList.drop statement.taken = [] := by
    rw [htaken, Nat.zero_add, List.drop_length]
  refine ⟨e, statement.taken, ?_, he⟩
  rw [Script.read_of_first hfirst, hdrop, Script.read_nil, Script.begin, if_neg hne, hexpr]

/-- A new scope is all that a call adds before it begins. -/
theorem grows_addScope (s : Store) (scope : Scope) : s.Grows (s.addScope scope).2 :=
  { Keeps.refl _ s with
    size_scopes := by simp [addScope]
    scope := fun {id} hid => by
      simp only [addScope, Store.scope, Array.getD_eq_getD_getElem?, Array.getElem?_push_lt hid,
        Array.getElem?_eq_getElem hid] }

/-- **Printed values are read back.** In a new outermost scope the text of a value that is built of
integers but the least one, Booleans, types and vectors of these has a value, and that is the same. -/
theorem Writable.reads_back (h : s.Writable v) :
    let made := s.addScope .global
    ∃ w s', runSource (s.text v) made.1 made.2 = .ok (some w) s' ∧ s'.same v w = true := by
  intro made
  obtain ⟨form, hform, rfl⟩ := h.exists_form
  have htext : s.text form.value = form.text := hform.textTo h.nestedTo
  obtain ⟨e, taken, hscript, he⟩ := hform.script
  have hgrows : s.Grows made.2 := s.grows_addScope .global
  have hlt : made.1.index < made.2.scopes.size := by simp [made, addScope]
  have hscope : made.2.scope made.1 = .global := by
    simp [made, addScope, Store.scope, Array.getD_eq_getD_getElem?]
  obtain ⟨w, s', hrun, hgrows', hcopied⟩ :
      Computes (Action.apply Action.plenty) made.1 made.2 e form.value :=
    hform.computes he hgrows hlt hscope
  refine ⟨w, s', ?_, hcopied.same (h.grows (hgrows.trans hgrows')).nestedTo⟩
  have hscriptRun : Script.evaluate (Action.apply Action.plenty) made.1 [⟨e, taken⟩] none made.2 =
      .ok (some w) s' := by
    rw [Script.evaluate, Action.bind_ok hrun]
    rfl
  rw [htext, runSource, hscript, Script.run, hscriptRun]

/-- A vector of a vector with a negative integer, and of a type. -/
theorem vector_reads_back :
    let s := ((initial.2.addVector #[.integer (-5), .boolean true]).2.addVector
      #[.vector ⟨0⟩, .type .integer]).2
    let made := s.addScope .global
    s.Writable (.vector ⟨1⟩) ∧ s.text (.vector ⟨1⟩) = "[[-5, true], Integer]" ∧
      ∃ w s', runSource (s.text (.vector ⟨1⟩)) made.1 made.2 = .ok (some w) s' ∧
        s'.same (.vector ⟨1⟩) w = true := by
  intro s made
  have hinner : s.Writable (.vector ⟨0⟩) := by
    refine .vector (by decide) fun v hv => ?_
    have hitems : s.items ⟨0⟩ = [.integer (-5), .boolean true] := rfl
    rw [hitems] at hv
    rcases List.mem_pair.mp hv with rfl | rfl
    · exact .integer (by decide)
    · exact .boolean
  have houter : s.Writable (.vector ⟨1⟩) := by
    refine .vector (by decide) fun v hv => ?_
    have hitems : s.items ⟨1⟩ = [.vector ⟨0⟩, .type .integer] := rfl
    rw [hitems] at hv
    rcases List.mem_pair.mp hv with rfl | rfl
    · exact hinner
    · exact .type
  exact ⟨houter, by decide +kernel, houter.reads_back⟩

/-- The text of the least integer is refused: its digits without the sign are no integer. -/
theorem leastInteger_refused :
    initial.2.text (.number (.integer Int64.minValue)) = "-9223372036854775808" ∧
    runSource (initial.2.text (.number (.integer Int64.minValue))) initial.1 initial.2 =
      .error (.read (.lexical ⟨.badNumber "9223372036854775808", ⟨1, 1, 2⟩⟩)) initial.2 := by
  have htext : initial.2.text (.number (.integer Int64.minValue)) = "-9223372036854775808" := by
    decide +kernel
  have hfirst : Statement.first "-9223372036854775808".toList .start =
      .error ⟨.badNumber "9223372036854775808", ⟨1, 1, 2⟩⟩ := by
    decide +kernel
  refine ⟨htext, ?_⟩
  rw [htext, runSource, Script.read_of_error hfirst]
  rfl

end Store

end Abacus
