import Abacus.Syntax.Expr
import Abacus.Syntax.Lexeme

/-!
# Expressions that are printed plainly

Not every tree can be read back from its printed form: a `local` stands before the brackets of its
assignment, a negative number is printed like the negation of one, and a function that is called or
combined takes in what follows it. `Expr.Plain` are the expressions that are printed without such
doubts, and `Expr.Closed` those of them that end with their own last token, whatever follows.

`Expr.kinds` are the tokens of the printed form, and `Expr.bare` is what it says: the tree without
its positions.
-/

namespace Abacus

/-- The text is a name: neither a keyword nor anything else than a word. -/
structure IsName (name : String) : Prop where
  word : ∃ c more, name.toList = c :: more ∧ Lexeme.isNameStart c ∧
    ∀ d ∈ more, Lexeme.isNameChar d
  free : ∀ k ∈ Keyword.all, k.text ≠ name

instance (name : String) : Decidable (IsName name) :=
  decidable_of_iff ((name.toList.head?.any Lexeme.isNameStart ∧
      name.toList.tail.all Lexeme.isNameChar) ∧ ∀ k ∈ Keyword.all, k.text ≠ name) <| by
    rw [List.all_eq_true]
    constructor
    · rintro ⟨⟨hstart, hmore⟩, free⟩
      cases hname : name.toList with
      | nil => simp [hname] at hstart
      | cons c more =>
        rw [hname] at hstart hmore
        exact ⟨⟨c, more, hname, hstart, hmore⟩, free⟩
    · rintro ⟨⟨c, more, hname, hstart, hmore⟩, free⟩
      rw [hname]
      exact ⟨⟨hstart, hmore⟩, free⟩

/-- The text may stand between quotes. -/
def IsQuotable (body : String) : Prop :=
  ∀ c ∈ body.toList, Lexeme.isAscii c ∧ c ≠ '"' ∧ c ≠ '\n'

instance (body : String) : Decidable (IsQuotable body) :=
  decidable_of_iff (body.toList.all fun c => Lexeme.isAscii c && c != '"' && c != '\n') <| by
    simp [IsQuotable, and_assoc]

namespace Expr

/-! ## Trees without positions -/

mutual

/-- The expression with all its positions forgotten. -/
def bare : Expr → Expr
  | .literal value _ => .literal value .start
  | .identifier name _ => .identifier name .start
  | .vector items _ => .vector (bareList items) .start
  | .block body _ => .block (bareList body) .start
  | .conditional branches otherwise _ => .conditional (bareBranches branches) otherwise.bare .start
  | .function parameters body _ => .function parameters body.bare .start
  | .call callee arguments _ => .call callee.bare (bareList arguments) .start
  | .assign name value isLocal _ => .assign name value.bare isLocal .start
  | .binary op left right _ => .binary op left.bare right.bare .start
  | .unary op operand _ => .unary op operand.bare .start

/-- The trees of a list without their positions. -/
def bareList : List Expr → List Expr
  | [] => []
  | e :: es => e.bare :: bareList es

/-- The trees of the branches without their positions. -/
def bareBranches : List (Expr × Expr) → List (Expr × Expr)
  | [] => []
  | (condition, body) :: branches => (condition.bare, body.bare) :: bareBranches branches

end

/-! ## The tokens of the printed form -/

/-- Names with commas between them. -/
def nameKinds : List String → List TokenKind
  | [] => []
  | [name] => [.identifier name]
  | name :: names => .identifier name :: .comma :: nameKinds names

end Expr

/-- The token that a literal is read from. -/
def Literal.kind : Literal → TokenKind
  | .number value => .number value
  | .boolean true => .keyword .trueWord
  | .boolean false => .keyword .falseWord
  | .quoted body => .quoted body

/-- The token of a prefix operator. -/
def UnaryOp.kind : UnaryOp → TokenKind
  | .neg => .operator .sub
  | .not => .bang

namespace Expr

mutual

/-- The kinds of the tokens of the printed form. -/
def kinds : Expr → List TokenKind
  | .literal value _ => [value.kind]
  | .identifier name _ => [.identifier name]
  | .vector items _ => .opening .square :: (listKinds .comma items ++ [.closing .square])
  | .block body _ => .opening .curly :: (listKinds .semicolon body ++ [.closing .curly])
  | .conditional branches otherwise _ =>
    branchKinds .ifWord branches ++ .keyword .elseWord :: otherwise.kinds
  | .function parameters body _ =>
    .operator .or :: (nameKinds parameters ++ .operator .or :: body.kinds)
  | .call callee arguments _ =>
    callee.kinds ++ .opening .round :: (listKinds .comma arguments ++ [.closing .round])
  | .assign name value isLocal _ =>
    (if isLocal then [.keyword .localWord] else []) ++
      .opening .round :: .identifier name :: .assign :: (value.kinds ++ [.closing .round])
  | .binary op left right _ =>
    .opening .round :: (left.kinds ++ .operator op :: (right.kinds ++ [.closing .round]))
  | .unary op operand _ => .opening .round :: op.kind :: (operand.kinds ++ [.closing .round])

/-- Expressions with a separator between them. -/
def listKinds (separator : TokenKind) : List Expr → List TokenKind
  | [] => []
  | [item] => item.kinds
  | item :: items => item.kinds ++ separator :: listKinds separator items

/-- Branches, the first after its own keyword and the others after `elif`. -/
def branchKinds (keyword : Keyword) : List (Expr × Expr) → List TokenKind
  | [] => []
  | (condition, body) :: branches =>
    .keyword keyword :: (condition.kinds ++ (body.kinds ++ branchKinds .elifWord branches))

end

/-- Lists of tokens with a separator between them. -/
def separated (separator : TokenKind) : List (List TokenKind) → List TokenKind
  | [] => []
  | [part] => part
  | part :: parts => part ++ separator :: separated separator parts

/-- The tokens of a list are those of its items with separators. -/
theorem listKinds_eq (separator : TokenKind) :
    ∀ items : List Expr, listKinds separator items = separated separator (items.map kinds)
  | [] | [_] => rfl
  | item :: item₂ :: items => by
    have ih := listKinds_eq separator (item₂ :: items)
    rw [listKinds, ih]
    · rfl
    · exact List.cons_ne_nil _ _

/-- To forget the positions of a list is to forget those of its items. -/
theorem bareList_eq : ∀ items : List Expr, bareList items = items.map bare
  | [] => rfl
  | item :: items => by rw [bareList, bareList_eq items, List.map_cons]

/-- The text of a list is made of those of its items with separators. -/
theorem textList_eq (separator : String) :
    ∀ items : List Expr, textList separator items = separator.intercalate (items.map text)
  | [] => rfl
  | [_] => by simp [textList]
  | item :: item₂ :: items => by
    have ih := textList_eq separator (item₂ :: items)
    rw [textList, ih]
    · simp
    · exact List.cons_ne_nil _ _

/-! ## Plain expressions -/

/-- Expressions that are printed in brackets. -/
def IsBracketed : Expr → Prop
  | .assign .. | .binary .. | .unary .. => True
  | _ => False

/-- Expressions after which an argument list is read as theirs. -/
def IsCallee : Expr → Prop
  | .identifier .. | .call .. | .assign .. | .binary .. | .unary .. => True
  | _ => False

mutual

/-- Plain expressions that end with their own last token. -/
inductive Closed : Expr → Prop
  | number {n : Int64} {p : Position} : 0 ≤ n.toInt → Closed (.literal (.number (.integer n)) p)
  | boolean {b : Bool} {p : Position} : Closed (.literal (.boolean b) p)
  | quoted {body : String} {p : Position} : IsQuotable body → Closed (.literal (.quoted body) p)
  | identifier {name : String} {p : Position} : IsName name → Closed (.identifier name p)
  | vector {items : List Expr} {p : Position} : (∀ e ∈ items, Plain e) → Closed (.vector items p)
  | block {body : List Expr} {p : Position} : body ≠ [] → (∀ e ∈ body, Plain e) →
    Closed (.block body p)
  | assign {name : String} {value : Expr} {p : Position} : IsName name → Plain value →
    Closed (.assign name value false p)
  | binary {op : BinaryOp} {left right : Expr} {p : Position} : Closed left → Plain right →
    Closed (.binary op left right p)
  | unary {op : UnaryOp} {operand : Expr} {p : Position} : Plain operand →
    Closed (.unary op operand p)
  | call {callee : Expr} {arguments : List Expr} {p : Position} : callee.IsCallee →
    Closed callee → (∀ e ∈ arguments, Plain e) → Closed (.call callee arguments p)

/-- Expressions whose printed form is read back. -/
inductive Plain : Expr → Prop
  | closed {e : Expr} : Closed e → Plain e
  | function {parameters : List String} {body : Expr} {p : Position} :
    (∀ x ∈ parameters, IsName x) → parameters.Nodup → Plain body →
    Plain (.function parameters body p)
  | conditional {branches : List (Expr × Expr)} {otherwise : Expr} {p : Position} :
    branches ≠ [] → (∀ b ∈ branches, b.1.IsBracketed) → (∀ b ∈ branches, Closed b.1) →
    (∀ b ∈ branches, Plain b.2) → Plain otherwise → Plain (.conditional branches otherwise p)

end

/-! ## How the printed form begins -/

end Expr

/-- Whether a token may begin an expression. -/
def TokenKind.begins : TokenKind → Bool
  | .number _ | .identifier _ | .quoted _ | .opening _ | .operator .or => true
  | .keyword word => word == .trueWord || word == .falseWord || word == .ifWord
  | _ => false

namespace Expr

/-- The first token of the printed form may begin an expression. -/
def Begins (e : Expr) : Prop := ∃ k ks, e.kinds = k :: ks ∧ k.begins

/-- A closed expression begins with a token that begins expressions. -/
theorem Closed.begins {e : Expr} : Closed e → e.Begins
  | .number _ => ⟨_, _, rfl, rfl⟩
  | .boolean (b := b) => ⟨_, _, rfl, by cases b <;> rfl⟩
  | .quoted _ => ⟨_, _, rfl, rfl⟩
  | .identifier _ => ⟨_, _, rfl, rfl⟩
  | .vector _ => ⟨_, _, rfl, rfl⟩
  | .block _ _ => ⟨_, _, rfl, rfl⟩
  | .assign _ _ => ⟨_, _, rfl, rfl⟩
  | .binary _ _ => ⟨_, _, rfl, rfl⟩
  | .unary _ => ⟨_, _, rfl, rfl⟩
  | .call _ h _ => by
    obtain ⟨k, ks, hkinds, hk⟩ := h.begins
    rw [Begins, kinds, hkinds]
    exact ⟨_, _, rfl, hk⟩

/-- A plain expression has a first token that may begin an expression. -/
theorem Plain.begins {e : Expr} (h : Plain e) : e.Begins := by
  cases h with
  | closed h => exact h.begins
  | function => exact ⟨_, _, rfl, rfl⟩
  | @conditional branches otherwise p hne =>
    cases branches with
    | nil => exact absurd rfl hne
    | cons b more => exact ⟨_, _, rfl, rfl⟩

/-- The tokens of bracketed expressions between their brackets. -/
def innerKinds : Expr → List TokenKind
  | .assign name value _ _ => .identifier name :: .assign :: value.kinds
  | .binary op left right _ => left.kinds ++ .operator op :: right.kinds
  | .unary op operand _ => op.kind :: operand.kinds
  | _ => []

/-- The tokens of an expression that is printed in brackets are the brackets and what is in them. -/
theorem Closed.kinds_eq {e : Expr} (h : Closed e) (hb : e.IsBracketed) :
    e.kinds = .opening .round :: (e.innerKinds ++ [.closing .round]) := by
  cases h with
  | assign | unary => rfl
  | binary => simp [kinds, innerKinds]
  | number | boolean | quoted | identifier | vector | block | call => exact hb.elim

/-! ## How long the printed form is -/

/-- What begins has a token. -/
theorem Begins.length_pos {e : Expr} (h : e.Begins) : 0 < e.kinds.length := by
  obtain ⟨k, ks, hkinds, -⟩ := h
  rw [hkinds, List.length_cons]
  omega

/-- A plain expression has a token. -/
theorem Plain.length_pos {e : Expr} (h : Plain e) : 0 < e.kinds.length := h.begins.length_pos

/-- One part more makes the list longer by the part at least. -/
theorem length_separated_cons (separator : TokenKind) (part : List TokenKind)
    (parts : List (List TokenKind)) :
    part.length + (separated separator parts).length ≤
      (separated separator (part :: parts)).length := by
  cases parts with
  | nil => simp [separated]
  | cons part₂ parts =>
    simp only [separated, List.length_append, List.length_cons]
    omega

/-- No part is longer than the list. -/
theorem length_le_of_mem_separated (separator : TokenKind) {part : List TokenKind}
    {parts : List (List TokenKind)} (h : part ∈ parts) :
    part.length ≤ (separated separator parts).length := by
  induction parts with
  | nil => cases h
  | cons first rest ih =>
    have hlength := length_separated_cons separator first rest
    rcases List.mem_cons.mp h with rfl | h
    · omega
    · exact Nat.le_trans (ih h) (by omega)

/-- There are at least as many tokens as parts. -/
theorem length_le_separated (separator : TokenKind) : ∀ {parts : List (List TokenKind)},
    (∀ part ∈ parts, 0 < part.length) → parts.length ≤ (separated separator parts).length
  | [], _ => Nat.le_refl 0
  | part :: parts, h => by
    have hlength := length_separated_cons separator part parts
    have hpos := h part List.mem_cons_self
    have ih := length_le_separated separator fun x hx => h x (List.mem_cons_of_mem part hx)
    rw [List.length_cons]
    omega

/-- No item has more tokens than the list. -/
theorem length_le_of_mem_listKinds (separator : TokenKind) {e : Expr} {es : List Expr}
    (h : e ∈ es) : e.kinds.length ≤ (listKinds separator es).length := by
  rw [listKinds_eq]
  exact length_le_of_mem_separated separator (List.mem_map_of_mem h)

/-- One item more makes the list longer by its tokens at least. -/
theorem length_listKinds_cons (separator : TokenKind) (e : Expr) (es : List Expr) :
    e.kinds.length + (listKinds separator es).length ≤ (listKinds separator (e :: es)).length := by
  rw [listKinds_eq, listKinds_eq]
  exact length_separated_cons separator e.kinds (es.map kinds)

/-- A list has at least as many tokens as items. -/
theorem length_le_listKinds (separator : TokenKind) {es : List Expr} (plain : ∀ e ∈ es, e.Plain) :
    es.length ≤ (listKinds separator es).length := by
  have hpos : ∀ part ∈ es.map kinds, 0 < part.length := by
    intro part hpart
    obtain ⟨e, he, rfl⟩ := List.mem_map.mp hpart
    exact (plain e he).length_pos
  have hlength := length_le_separated separator hpos
  rwa [List.length_map, ← listKinds_eq] at hlength

end Expr

end Abacus
