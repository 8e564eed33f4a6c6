import Abacus.Proofs.Syntax.Levels

/-!
# How operators group

A statement without brackets is a row of operands with operators between them. An operand is a word
or a literal after prefix operators and before the links of a chain, and it is read as one: the
prefix operators belong to its first token, and the links are folded from the left.

The six levels of the grammar are six nested loops. Each of them reads its operands at the next
level, up to an operator that is no tighter than its own, and makes a tree that leans to the left.

**The law** (`Expr.ofTokens_grouped`): every such row is read; its operands and operators are those
of the tree, in order; and no operator of the tree has a looser one on its left, or one that is not
tighter on its right. There is one such tree only (`Expr.Grouped.unique`).
-/

namespace Abacus

/-! ## Operands -/

/-- An operand of one token. -/
inductive Atom where
  | literal (value : Literal)
  | identifier (name : String)

/-- What an arrow hands a value on to: an atom that is called with it, or a call by name that has
further arguments. -/
inductive Link where
  | plain (f : Atom)
  | applied (name : String) (arguments : List Atom)

/-- An atom between prefix operators and links. -/
structure Operand where
  prefixes : List UnaryOp
  first : Atom
  links : List Link

namespace Atom

/-- The token of an atom. -/
def kind : Atom → TokenKind
  | .literal value => value.kind
  | .identifier name => .identifier name

/-- The tree of an atom. -/
def expr : Atom → Expr
  | .literal value => .literal value .start
  | .identifier name => .identifier name .start

end Atom

namespace Link

/-- The tokens after the arrow. -/
def kinds : Link → List TokenKind
  | .plain f => [f.kind]
  | .applied name arguments => .identifier name :: .opening .round ::
      (Expr.separated .comma (arguments.map fun a => [a.kind]) ++ [.closing .round])

/-- The call that a link makes of what is left of it. -/
def after (left : Expr) : Link → Expr
  | .plain f => .call f.expr [left] .start
  | .applied name arguments =>
    .call (.identifier name .start) (left :: arguments.map Atom.expr) .start

end Link

/-- The tokens of links with their arrows. -/
def linkKinds (links : List Link) : List TokenKind := links.flatMap fun l => .arrow :: l.kinds

namespace Operand

def kinds (x : Operand) : List TokenKind :=
  x.prefixes.map UnaryOp.kind ++ x.first.kind :: linkKinds x.links

/-- The prefix operators belong to the first atom, and the links are folded from the left. -/
def expr (x : Operand) : Expr :=
  x.links.foldl Link.after (x.prefixes.foldr (fun op e => .unary op e .start) x.first.expr)

end Operand

/-- The tokens of operands that follow their operators. -/
def tailKinds (tail : List (BinaryOp × Operand)) : List TokenKind :=
  tail.flatMap fun item => .operator item.1 :: item.2.kinds

/-! ## Trees -/

namespace Expr

/-- The operands of a tree of binary nodes, the first one and then each with the operator before it,
from left to right. -/
def spine : Expr → Expr × List (BinaryOp × Expr)
  | .binary op left right _ =>
    (left.spine.1, left.spine.2 ++ (op, right.spine.1) :: right.spine.2)
  | e => (e.bare, [])

/-- How strongly the operator at the root binds; an operand holds together more strongly than any. -/
def rootLevel : Expr → Nat
  | .binary op _ _ _ => op.level
  | _ => BinaryOp.levels

/-- At every binary node, no looser operator is at the root of the left operand, and none but a
tighter one at the root of the right operand. -/
def Grouped : Expr → Prop
  | .binary op left right _ =>
    op.level ≤ left.rootLevel ∧ op.level < right.rootLevel ∧ left.Grouped ∧ right.Grouped
  | _ => True

end Expr

namespace Expr

/-- The level of a tree's root is the same without positions. -/
theorem rootLevel_bare (e : Expr) : e.bare.rootLevel = e.rootLevel := by
  cases e <;> rfl

/-- A tree that is no binary node is its own only operand. -/
theorem spine_of_rootLevel {e : Expr} (h : e.rootLevel = BinaryOp.levels) :
    e.spine = (e.bare, []) ∧ e.Grouped := by
  cases e with
  | binary op left right p => exact absurd op.level_lt (Nat.not_lt_of_le (Nat.le_of_eq h.symm))
  | _ => exact ⟨rfl, trivial⟩

end Expr

/-- An operand is no binary node. -/
theorem Operand.rootLevel_expr (x : Operand) : x.expr.rootLevel = BinaryOp.levels := by
  have hlinks : ∀ (ls : List Link) (left : Expr), left.rootLevel = BinaryOp.levels →
      (ls.foldl Link.after left).rootLevel = BinaryOp.levels := by
    intro ls
    induction ls with
    | nil => exact fun left h => h
    | cons l ls ih => exact fun left _ => ih (l.after left) (by cases l <;> rfl)
  refine hlinks x.links _ ?_
  cases x.prefixes with
  | nil => cases hfirst : x.first <;> rfl
  | cons op ops => rfl

/-- An atom begins an expression. -/
theorem Atom.begins_kind (a : Atom) : a.kind.begins := by
  cases a with
  | identifier name => rfl
  | literal value =>
    cases value with
    | number | quoted => rfl
    | boolean b => cases b <;> rfl

/-- What an arrow hands a value on to begins with an atom. -/
theorem Link.begins_kinds (l : Link) : ∃ k ks, l.kinds = k :: ks ∧ k.begins := by
  cases l with
  | plain f => exact ⟨_, _, rfl, f.begins_kind⟩
  | applied name arguments => exact ⟨_, _, rfl, rfl⟩

/-- The tokens of links: an arrow and the tokens of each. -/
theorem linkKinds_cons (l : Link) (ls : List Link) :
    linkKinds (l :: ls) = .arrow :: (l.kinds ++ linkKinds ls) := rfl

/-- Every link has a token. -/
theorem length_le_linkKinds : ∀ ls : List Link, ls.length ≤ (linkKinds ls).length
  | [] => Nat.le_refl 0
  | l :: ls => by
    have ih := length_le_linkKinds ls
    rw [linkKinds_cons, List.length_cons, List.length_cons, List.length_append]
    omega

/-- What an operand begins with. -/
theorem Operand.exists_kinds (x : Operand) : ∃ k ks, x.kinds = k :: ks ∧ k ≠ .newline ∧
    k ≠ .keyword .localWord := by
  unfold kinds
  cases x.prefixes with
  | nil =>
    have hk := x.first.begins_kind
    refine ⟨_, _, rfl, ?_, ?_⟩ <;>
    · intro h
      rw [h] at hk
      cases hk
  | cons op ops => cases op <;> exact ⟨_, _, rfl, nofun, nofun⟩

/-- Only an operator follows an operand. -/
def Follows (ks : List TokenKind) : Prop := ∀ k, ks.head? = some k → ∃ op, k = .operator op

theorem follows_nil : Follows [] := nofun

/-- No kind but an operator is next. -/
theorem Follows.head_ne {ks : List TokenKind} (h : Follows ks) {k : TokenKind}
    (hk : ∀ op, k ≠ .operator op) : ks.head? ≠ some k := by
  intro hhead
  obtain ⟨op, rfl⟩ := h k hhead
  exact hk op rfl

/-- The tokens of a row: an operator and the operand's tokens for each item. -/
theorem tailKinds_cons (item : BinaryOp × Operand) (tail : List (BinaryOp × Operand)) :
    tailKinds (item :: tail) = .operator item.1 :: (item.2.kinds ++ tailKinds tail) := rfl

/-- Rows that are put together have their tokens put together. -/
theorem tailKinds_append (tail tail' : List (BinaryOp × Operand)) :
    tailKinds (tail ++ tail') = tailKinds tail ++ tailKinds tail' := List.flatMap_append

/-- No argument list follows an atom before links. -/
theorem head_linkKinds_ne (ls : List Link) {ks : List TokenKind} (hks : Follows ks) :
    (linkKinds ls ++ ks).head? ≠ some (.opening .round) := by
  cases ls with
  | nil => exact hks.head_ne nofun
  | cons l more => exact nofun

/-- What follows a row follows each operand in it, or an operator does. -/
theorem follows_tailKinds (tail : List (BinaryOp × Operand)) {ks : List TokenKind}
    (hks : Follows ks) : Follows (tailKinds tail ++ ks) := by
  cases tail with
  | nil => exact hks
  | cons item more =>
    intro k hk
    cases hk
    exact ⟨item.1, rfl⟩

namespace Grammar

variable {part : Rule Expr} {m budget : Nat} {ks : List TokenKind}

/-! ## Reading operands -/

/-- An atom is read where no argument list follows. -/
theorem reads_atom (a : Atom) (hks : ks.head? ≠ some (.opening .round)) :
    (primary part (budget + 1)).Reads (a.kind :: ks) ks fun e => e.bare = a.expr := by
  cases a with
  | identifier name =>
    unfold primary
    refine reads_next.bind fun o ho => ?_
    obtain ⟨q, rfl⟩ := ho
    exact (reads_callSuffix_end hks).imp fun e he => he ▸ rfl
  | literal value =>
    cases value with
    | number | quoted =>
      unfold primary
      refine reads_next.bind fun o ho => ?_
      obtain ⟨q, rfl⟩ := ho
      exact .pure rfl
    | boolean b =>
      unfold primary
      cases b <;>
      · refine reads_next.bind fun o ho => ?_
        obtain ⟨q, rfl⟩ := ho
        exact .pure rfl

/-- An atom that is an argument is read as an expression. -/
theorem reads_argument (a : Atom) (hks : Ended ks) :
    (expression (m + 1)).Reads (a.kind :: ks) ks fun e => e.bare = a.expr := by
  refine reads_expression (reads_unary (reads_atom a (hks.head_ne (.inl rfl)))
    (prefixOp?_of_begins a.begins_kind)) hks ?_
  intro hhead
  have hk := a.begins_kind
  rw [Option.some.inj hhead] at hk
  cases hk

/-- **What an arrow hands on to is read**, and the link is the call that it stands for. -/
theorem reads_link (l : Link) (left : Expr) (p : Position) (hsize : l.kinds.length ≤ m)
    (hks : ks.head? ≠ some (.opening .round)) :
    (primary (expression m) (m + 1)).Reads (l.kinds ++ ks) ks fun right =>
      (link left right p).bare = l.after left.bare := by
  cases l with
  | plain f =>
    refine (reads_atom f hks).imp fun right hright => ?_
    cases f <;> cases right <;> cases hright <;> rfl
  | applied name arguments =>
    have hlength : arguments.length ≤
        (Expr.separated .comma (arguments.map fun a => [a.kind])).length := by
      rw [← List.length_map (fun a : Atom => [a.kind])]
      refine Expr.length_le_separated .comma fun part hpart => ?_
      obtain ⟨a, -, rfl⟩ := List.mem_map.mp hpart
      exact Nat.zero_lt_one
    simp only [Link.kinds, List.length_cons, List.length_append, List.length_nil] at hsize
    obtain ⟨m, rfl⟩ : ∃ m', m = m' + 1 := ⟨m - 1, by omega⟩
    unfold primary
    simp only [Link.kinds, List.cons_append, List.append_assoc, List.nil_append]
    refine reads_next.bind fun o ho => ?_
    obtain ⟨q, rfl⟩ := ho
    unfold callSuffix
    refine reads_accept.bind fun o ho => ?_
    obtain ⟨q', rfl⟩ := ho
    refine (reads_parts (fun a _ => ⟨a.kind, [], rfl, ?_⟩) (fun a _ ks hks => reads_argument a hks)
      (by omega)).bind fun es hes => ?_
    · intro hclosing
      have hk := a.begins_kind
      rw [hclosing] at hk
      cases hk
    · refine (reads_callSuffix_end hks).imp fun e he => ?_
      rw [he]
      show Expr.call _ (left.bare :: Expr.bareList es) _ = _
      rw [hes]
      rfl

/-- **Links are read one after the other, and folded from the left.** -/
theorem reads_links (hks : Follows ks) : ∀ {ls : List Link} {left : Expr} {budget : Nat},
    ls.length < budget → (linkKinds ls).length ≤ m →
      (links (primary (expression m) (m + 1)) budget left).Reads (linkKinds ls ++ ks) ks
        fun e => e.bare = ls.foldl Link.after left.bare
  | _, _, 0, hbudget, _ => absurd hbudget (Nat.not_lt_zero _)
  | [], left, budget + 1, _, _ => by
    refine (reads_links_end (hks.head_ne nofun)).imp fun e he => ?_
    rw [he]
    rfl
  | l :: ls, left, budget + 1, hbudget, hsize => by
    rw [linkKinds_cons, List.length_cons, List.length_append] at hsize
    have hskip : (l.kinds ++ (linkKinds ls ++ ks)).head? ≠ some .newline := by
      obtain ⟨k, more, hkinds, hk⟩ := l.begins_kinds
      rw [hkinds]
      rintro ⟨⟩
      cases hk
    rw [linkKinds_cons, List.cons_append, List.append_assoc]
    unfold links
    refine reads_accept.bind fun o ho => ?_
    obtain ⟨p, rfl⟩ := ho
    refine (reads_skipNewlines hskip).bind fun _ _ => ?_
    refine (reads_link l left p (by omega) (head_linkKinds_ne ls hks)).bind fun right hright => ?_
    rw [List.foldl_cons, ← hright]
    exact reads_links hks (Nat.lt_of_succ_lt_succ hbudget) (by omega)

/-- Prefix operators belong to the atom that they stand before. -/
theorem reads_prefixes (a : Atom) (hks : ks.head? ≠ some (.opening .round)) :
    ∀ {ops : List UnaryOp} {budget : Nat}, ops.length < budget →
      (unary (primary part (m + 1)) budget).Reads (ops.map UnaryOp.kind ++ a.kind :: ks) ks
        fun e => e.bare = ops.foldr (fun op e => .unary op e .start) a.expr
  | _, 0, hbudget => absurd hbudget (Nat.not_lt_zero _)
  | [], _ + 1, _ => reads_unary (reads_atom a hks) (prefixOp?_of_begins a.begins_kind)
  | op :: ops, budget + 1, hbudget => by
    rw [List.map_cons, List.cons_append]
    unfold unary
    refine reads_peek.bind fun o ho => ?_
    obtain ⟨p, rfl⟩ := ho
    simp only [prefixOp?_kind]
    refine reads_next.bind fun _ _ => ?_
    refine (reads_prefixes a hks (Nat.lt_of_succ_lt_succ hbudget)).bind fun e he => .pure ?_
    rw [Expr.bare, he, List.foldr_cons]

/-- **An operand is read as one**: prefix operators first, then the links. -/
theorem reads_row_operand (x : Operand) (hsize : x.kinds.length ≤ m) (hks : Follows ks) :
    (chain (primary (expression m) (m + 1)) (m + 1)).Reads (x.kinds ++ ks) ks
      fun e => e.bare = x.expr := by
  have hlinks := length_le_linkKinds x.links
  have hnext := head_linkKinds_ne x.links hks
  simp only [Operand.kinds, List.length_append, List.length_cons, List.length_map] at hsize
  unfold chain
  rw [Operand.kinds, List.append_assoc, List.cons_append]
  refine (reads_prefixes x.first hnext (by omega)).bind fun e he => ?_
  refine (reads_links hks (by omega) (by omega)).imp fun e' he' => ?_
  rw [he', he]
  rfl

/-! ## Reading levels -/

/-- No operator of a list is looser than the tightest `levels` levels. -/
def Tight (levels : Nat) (tail : List (BinaryOp × Operand)) : Prop :=
  ∀ item ∈ tail, BinaryOp.levels - levels ≤ item.1.level

/-- The operators of a list with the trees of their operands. -/
def tailExprs (tail : List (BinaryOp × Operand)) : List (BinaryOp × Expr) :=
  tail.map fun item => (item.1, item.2.expr)

/-- The tree groups the operands as the tightest `levels` levels do. -/
structure Groups (levels : Nat) (first : Operand) (tail : List (BinaryOp × Operand)) (e : Expr) :
    Prop where
  spine : e.spine = (first.expr, tailExprs tail)
  grouped : e.Grouped
  level : BinaryOp.levels - levels ≤ e.rootLevel

/-- What one operand is read as is grouped. -/
theorem groups_operand {first : Operand} {e : Expr} (h : e.bare = first.expr) :
    Groups 0 first [] e := by
  have hroot : e.rootLevel = BinaryOp.levels := by
    rw [← e.rootLevel_bare, h, first.rootLevel_expr]
  obtain ⟨hspine, hgrouped⟩ := Expr.spine_of_rootLevel hroot
  exact ⟨by rw [hspine, h]; rfl, hgrouped, Nat.le_of_eq hroot.symm⟩

namespace Groups

variable {levels : Nat} {first : Operand} {tail : List (BinaryOp × Operand)} {left : Expr}

/-- Operands without an operator of the next level are grouped as that level does. -/
theorem succ (h : Groups levels first tail left) : Groups (levels + 1) first tail left :=
  ⟨h.spine, h.grouped, Nat.le_trans (Nat.sub_le_sub_left (Nat.le_succ levels) _) h.level⟩

/-- An operator of the next level joins what is on its left with tighter operators on its right. -/
theorem node {item : BinaryOp × Operand} {tighter : List (BinaryOp × Operand)} {right : Expr}
    (hlevels : levels + 1 ≤ BinaryOp.levels)
    (hop : item.1.level = BinaryOp.levels - (levels + 1)) (hleft : Groups (levels + 1) first tail left)
    (hright : Groups levels item.2 tighter right) (p : Position) :
    Groups (levels + 1) first (tail ++ item :: tighter) (.binary item.1 left right p) where
  spine := by
    simp only [Expr.spine, hleft.spine, hright.spine, tailExprs, List.map_append, List.map_cons]
  grouped := by
    have hl := hleft.level
    have hr := hright.level
    exact ⟨by omega, by omega, hleft.grouped, hright.grouped⟩
  level := Nat.le_of_eq hop.symm

end Groups

/-- What the tightest `levels` levels read of operands and operators, and the first looser operator
ends. -/
def ReadsLevel (operand : Rule Expr) (m levels : Nat) : Prop :=
  ∀ (first : Operand) (tail : List (BinaryOp × Operand)) (ks : List TokenKind),
    (first.kinds ++ tailKinds tail).length ≤ m → Tight levels tail → Follows ks →
      Looser levels ks → operand.Reads (first.kinds ++ (tailKinds tail ++ ks)) ks
        (Groups levels first tail)

/-- Every item of a row has a token. -/
theorem length_le_tailKinds : ∀ tail : List (BinaryOp × Operand),
    tail.length ≤ (tailKinds tail).length
  | [] => Nat.le_refl 0
  | item :: more => by
    have ih := length_le_tailKinds more
    rw [tailKinds_cons, List.length_cons, List.length_cons, List.length_append]
    omega

variable {operand : Rule Expr} {levels : Nat} {first : Operand} {tail : List (BinaryOp × Operand)}

/-- Operators that are not looser than a level begin with tighter ones, up to one of the level. -/
theorem Tight.split (h : Tight (levels + 1) tail) :
    ∃ tighter rest, tail = tighter ++ rest ∧ Tight levels tighter ∧ Tight (levels + 1) rest ∧
      ∀ item ∈ rest.head?, item.1.level = BinaryOp.levels - (levels + 1) := by
  induction tail with
  | nil => exact ⟨[], [], rfl, List.forall_mem_nil _, List.forall_mem_nil _, by simp⟩
  | cons item more ih =>
    by_cases hitem : item.1.level = BinaryOp.levels - (levels + 1)
    · refine ⟨[], item :: more, rfl, List.forall_mem_nil _, h, ?_⟩
      rintro _ ⟨⟩
      exact hitem
    · obtain ⟨tighter, rest, rfl, htighter, hrest⟩ :=
        ih fun other hother => h other (List.mem_cons_of_mem _ hother)
      refine ⟨item :: tighter, rest, rfl, fun other hother => ?_, hrest⟩
      rcases List.mem_cons.mp hother with rfl | hother
      · have := h other List.mem_cons_self
        omega
      · exact htighter other hother

/-- The first operator of a level ends what the next level reads. -/
theorem looser_tailKinds {ks : List TokenKind} (hlevels : levels + 1 ≤ BinaryOp.levels)
    (hhead : ∀ item ∈ tail.head?, item.1.level = BinaryOp.levels - (levels + 1))
    (hks : Looser (levels + 1) ks) : Looser levels (tailKinds tail ++ ks) := by
  cases tail with
  | nil => exact hks.pred
  | cons item more =>
    rintro op ⟨⟩
    have := hhead item rfl
    omega

/-- **The operators of one level lean to the left.** -/
theorem reads_operations (hlevels : levels + 1 ≤ BinaryOp.levels)
    (hoperand : ReadsLevel operand m levels) (hks : Follows ks) (hlooser : Looser (levels + 1) ks)
    {rest : List (BinaryOp × Operand)} {left : Expr} (hbudget : rest.length < budget)
    (hsize : (tailKinds rest).length ≤ m) (htight : Tight (levels + 1) rest)
    (hhead : ∀ item ∈ rest.head?, item.1.level = BinaryOp.levels - (levels + 1))
    (hleft : Groups (levels + 1) first tail left) :
    (operations operand (BinaryOp.levels - (levels + 1)) budget left).Reads (tailKinds rest ++ ks) ks
      (Groups (levels + 1) first (tail ++ rest)) := by
  induction hlength : rest.length using Nat.strongRecOn generalizing rest tail left budget with
  | ind n ih =>
    obtain ⟨budget, rfl⟩ : ∃ b, budget = b + 1 := ⟨budget - 1, by omega⟩
    cases rest with
    | nil =>
      rw [List.append_nil]
      exact (reads_operations_end hlooser).imp fun e he => he ▸ hleft
    | cons item more =>
      have hop : item.1.level = BinaryOp.levels - (levels + 1) := hhead item rfl
      -- the right operand takes in the tighter operators, and the loop goes on behind it
      obtain ⟨tighter, loose, rfl, htighter, hloose, hnext⟩ :=
        Tight.split fun other hother => htight other (List.mem_cons_of_mem _ hother)
      have hfound : binaryOp? (BinaryOp.levels - (levels + 1)) (.operator item.1) = some item.1 := by
        rw [binaryOp?, if_pos hop]
      rw [tailKinds_cons, tailKinds_append] at hsize ⊢
      simp only [List.length_cons, List.length_append] at hsize hlength hbudget
      have hskip : (item.2.kinds ++ (tailKinds tighter ++ (tailKinds loose ++ ks))).head? ≠
          some .newline := by
        obtain ⟨k, kinds, hkinds, hk, -⟩ := item.2.exists_kinds
        rw [hkinds]
        rintro ⟨⟩
        exact hk rfl
      have hright := hoperand item.2 tighter (tailKinds loose ++ ks)
        (by rw [List.length_append]; omega) htighter (follows_tailKinds loose hks)
        (looser_tailKinds hlevels hnext hlooser)
      rw [List.cons_append, List.append_assoc, List.append_assoc]
      unfold operations
      refine reads_peek.bind fun o ho => ?_
      obtain ⟨p, rfl⟩ := ho
      simp only [hfound]
      refine reads_next.bind fun _ _ => (reads_skipNewlines hskip).bind fun _ _ => ?_
      refine hright.bind fun right hright => ?_
      have hnode := hleft.node hlevels hop hright p
      have hrounds : loose.length < budget := by omega
      have hrest := ih loose.length (by omega) hrounds (by omega) hloose hnext hnode rfl
      rwa [List.append_assoc] at hrest

/-- **What the levels of binary operators read is grouped as they say.** -/
theorem readsLevel_binary (hbudget : m < budget)
    (hoperand : ∀ (x : Operand) (ks : List TokenKind), x.kinds.length ≤ m → Follows ks →
      operand.Reads (x.kinds ++ ks) ks fun e => e.bare = x.expr) :
    ∀ {levels : Nat}, levels ≤ BinaryOp.levels →
      ReadsLevel (binary operand budget levels) m levels
  | 0, _ => by
    intro first tail ks hsize htight hfollows _
    cases tail with
    | nil =>
      rw [tailKinds, List.flatMap_nil, List.append_nil] at hsize
      exact (hoperand first ks hsize hfollows).imp fun e he => groups_operand he
    | cons item more =>
      exact absurd item.1.level_lt (Nat.not_lt_of_le (htight item List.mem_cons_self))
  | levels + 1, hlevels => by
    intro first tail ks hsize htight hfollows hlooser
    obtain ⟨tighter, rest, rfl, htighter, hrest, hhead⟩ := htight.split
    rw [tailKinds_append] at hsize ⊢
    simp only [List.length_append] at hsize
    have hlength := length_le_tailKinds rest
    have hlevel := readsLevel_binary hbudget hoperand (Nat.le_of_succ_le hlevels)
    rw [List.append_assoc]
    unfold binary
    have hfirst := hlevel first tighter (tailKinds rest ++ ks)
      (by rw [List.length_append]; omega) htighter (follows_tailKinds rest hfollows)
      (looser_tailKinds hlevels hhead hlooser)
    refine hfirst.bind fun left hleft => ?_
    exact reads_operations hlevels hlevel hfollows hlooser (by omega) (by omega) hrest hhead hleft.succ

end Grammar

namespace Expr

open Grammar

/-- **Operators group by how strongly they bind, and to the left.** -/
theorem ofTokens_grouped (first : Operand) (tail : List (BinaryOp × Operand)) {ts : List Token}
    (hts : ts.map Token.kind = first.kinds ++ tailKinds tail) (stop : Position) :
    ∃ e, Expr.ofTokens ts stop = .ok e ∧ e.spine = (first.expr, tailExprs tail) ∧ e.Grouped := by
  have hlength : (first.kinds ++ tailKinds tail).length ≤ ts.length :=
    Nat.le_of_eq (by rw [← hts, List.length_map])
  have hread : (expression (ts.length + 1)).Reads (first.kinds ++ tailKinds tail) []
      (Groups BinaryOp.levels first tail) := by
    obtain ⟨k, kinds, hkinds, -, hk⟩ := first.exists_kinds
    have hbinary := readsLevel_binary (Nat.lt_succ_self ts.length)
      (fun x ks hsize hks => reads_row_operand x hsize hks) (Nat.le_refl _) first tail [] hlength
      (fun item _ => by omega) follows_nil (ended_nil.looser _)
    rw [List.append_nil] at hbinary
    unfold expression
    refine reads_assignment (reads_assignments hbinary (by simp)) ?_
    rw [hkinds]
    rintro ⟨⟩
    exact hk rfl
  obtain ⟨e, rest, hresult, hrest, hgroups⟩ := hread stop ts hts
  rw [List.map_eq_nil_iff] at hrest
  subst hrest
  exact ⟨e, by rw [Expr.ofTokens, hresult], hgroups.spine, hgroups.grouped⟩

/-- A row in which prefix operators, all levels, a literal as a callee and a call with arguments
meet: `-a ^ 2 * !b -> f(1, c) - 3 -> g & d == "x"`. -/
theorem ofTokens_grouped_row :
    let number (n : Int64) : Atom := .literal (.number (.integer n))
    let first : Operand := ⟨[.neg], .identifier "a", []⟩
    let tail : List (BinaryOp × Operand) :=
      [(.pow, ⟨[], number 2, []⟩),
        (.mul, ⟨[.not], .identifier "b", [.applied "f" [number 1, .identifier "c"]]⟩),
        (.sub, ⟨[], number 3, [.plain (.identifier "g")]⟩),
        (.and, ⟨[], .identifier "d", []⟩), (.eq, ⟨[], .literal (.quoted "x"), []⟩)]
    ∃ e, Expr.ofTokens ((first.kinds ++ tailKinds tail).map (⟨·, .start⟩)) .start = .ok e ∧
      e.spine = (first.expr, tailExprs tail) ∧ e.Grouped ∧
      e.text = "(((((-a) ^ 2) * f((!b), 1, c)) - g(3)) & (d == \"x\"))" := by
  intro number first tail
  have hts : ((first.kinds ++ tailKinds tail).map fun k => (⟨k, .start⟩ : Token)).map Token.kind =
      first.kinds ++ tailKinds tail := rfl
  obtain ⟨e, hresult, hspine, hgrouped⟩ := ofTokens_grouped first tail hts .start
  refine ⟨e, hresult, hspine, hgrouped, ?_⟩
  cases hresult
  decide +kernel

/-- A literal takes no argument list, after an arrow or elsewhere: `x -> 3(4)` is refused at the
bracket. -/
theorem ofTokens_applied_literal :
    Expr.ofTokens ([.identifier "x", .arrow, .number (.integer 3), .opening .round,
        .number (.integer 4), .closing .round].map (⟨·, .start⟩)) .start =
      .error (.unexpected (.opening .round) .endOfStatement .start) :=
  rfl

/-! ## Grouping decides the tree -/

/-- No operator of a grouped tree is looser than the one at its root. -/
theorem Grouped.rootLevel_le : ∀ {e : Expr}, e.Grouped → ∀ item ∈ e.spine.2,
    e.rootLevel ≤ item.1.level
  | .binary op left right _, ⟨hleft, hright, hgrouped, hgrouped'⟩, item, hitem => by
    rcases List.mem_append.mp hitem with hmem | hmem
    · exact Nat.le_trans hleft (hgrouped.rootLevel_le item hmem)
    · rcases List.mem_cons.mp hmem with rfl | hmem
      · exact Nat.le_refl _
      · exact Nat.le_trans (Nat.le_of_lt hright) (hgrouped'.rootLevel_le item hmem)

section Unique

variable {op op' : BinaryOp} {left right left' right' : Expr} {p p' : Position}

/-- Of two grouped trees with one row, none has its root farther to the left. -/
theorem Grouped.same_root (h : (binary op left right p).Grouped)
    (h' : (binary op' left' right' p').Grouped) {between : List (BinaryOp × Expr)}
    (hleft : left'.spine.2 = left.spine.2 ++ between)
    (hright : (op, right.spine.1) :: right.spine.2 =
      between ++ (op', right'.spine.1) :: right'.spine.2) : between = [] := by
  cases between with
  | nil => rfl
  | cons item more =>
    -- the root of the first is on the left of the second root, and the second on its right
    injection hright with hitem hrest
    have hbelow := h'.2.2.1.rootLevel_le item (by rw [hleft]; simp)
    have habove := h.2.2.2.rootLevel_le (op', right'.spine.1) (by rw [hrest]; simp)
    rw [← hitem] at hbelow
    have hle : op'.level ≤ op.level := Nat.le_trans h'.1 hbelow
    have hlt : op.level < op'.level := Nat.lt_of_lt_of_le h.2.1 habove
    exact absurd hle (Nat.not_le_of_lt hlt)

end Unique

/-- A tree with no operator is its only operand. -/
theorem spine_fst {e : Expr} (h : e.spine.2 = []) : e.spine.1 = e.bare := by
  cases e with
  | binary => simp [spine] at h
  | _ => rfl

/-- Equal rows without an operator are equal operands. -/
theorem bare_of_spine {e e' : Expr} (h : e.spine.2 = []) (hspine : e.spine = e'.spine) :
    e.bare = e'.bare := by
  rw [← spine_fst h, hspine, spine_fst (hspine ▸ h)]

/-- **A row of operands and operators is grouped in one way only.** -/
theorem Grouped.unique : ∀ {e e' : Expr}, e.Grouped → e'.Grouped → e.spine = e'.spine →
    e.bare = e'.bare
  | .binary op left right p, e', h, h', hspine => by
    cases e' with
    | binary op' left' right' p' =>
      injection hspine with hfirst hrow
      -- the roots stand at the same place of the row
      have hplace : left'.spine.2 = left.spine.2 ∧
          (op', right'.spine.1) :: right'.spine.2 = (op, right.spine.1) :: right.spine.2 := by
        rcases List.append_eq_append_iff.mp hrow with ⟨between, hleft, hright⟩ | ⟨between, hleft, hright⟩
        · obtain rfl := h.same_root h' hleft hright
          exact ⟨by rw [hleft, List.append_nil], hright.symm⟩
        · obtain rfl := h'.same_root h hleft hright
          exact ⟨by rw [hleft, List.append_nil], hright⟩
      obtain ⟨hleft, hright⟩ := hplace
      injection hright with hroot hrest
      injection hroot with hop hsecond
      have hbareLeft := h.2.2.1.unique h'.2.2.1 (Prod.ext hfirst hleft.symm)
      have hbareRight := h.2.2.2.unique h'.2.2.2 (Prod.ext hsecond.symm hrest.symm)
      rw [bare, bare, hbareLeft, hbareRight, hop]
    | _ => simp [spine] at hspine
  | .literal _ _, _, _, _, hspine | .identifier _ _, _, _, _, hspine | .vector _ _, _, _, _, hspine
  | .block _ _, _, _, _, hspine | .conditional _ _ _, _, _, _, hspine
  | .function _ _ _, _, _, _, hspine | .call _ _ _, _, _, _, hspine
  | .assign _ _ _ _, _, _, _, hspine | .unary _ _ _, _, _, _, hspine => bare_of_spine rfl hspine

end Expr

end Abacus
