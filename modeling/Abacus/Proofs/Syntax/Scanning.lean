import Abacus.Proofs.Syntax.Lexing
import Abacus.Syntax.Statement

/-!
# The tokens of printed expressions

A statement keeps or drops a token by the brackets that are open before it, of which only the shapes
matter: `Scans shapes text ks` says that inside brackets of these shapes the rest of a statement, if
this is its text, has tokens of the kinds `ks`, and that the text is read to its end.

**The law** (`Expr.Plain.scans`): the printed form of a plain expression is read as its tokens, what
follows being read as it would be without it.
-/

namespace Abacus

open Lexeme Statement

/-- Inside brackets of these shapes the text is read to its end as tokens of these kinds. -/
def Scans (shapes : List Bracket) (text : List Char) (ks : List TokenKind) : Prop :=
  ∀ (table : LineTable) (begun : Bool) (opened : List Open) (taken offset : Nat),
    opened.map Prod.fst = shapes → ∃ s, gather table begun opened taken offset text = .ok s ∧
      s.tokens.map Token.kind = ks ∧ s.taken = taken + text.length

variable {shapes shapes' : List Bracket} {rest : List Char} {kind : TokenKind} {ks : List TokenKind}

/-- Nothing is left of a statement at its end. -/
theorem scans_nil : Scans [] [] [] := by
  intro table begun opened taken offset hopened
  rw [List.map_eq_nil_iff] at hopened
  subst hopened
  exact ⟨_, by rw [gather], rfl, rfl⟩

/-! ## Single tokens -/

/-- A token that is kept is the first one; then the brackets are open that it leaves open. -/
theorem Lexeme.Lexes.scans {text : List Char} (hlexes : Lexes text kind rest)
    (hkeep : ∀ p begun opened, opened.map Prod.fst = shapes → ∃ opened',
      reactToToken kind p begun opened = .keep kind opened' ∧ opened'.map Prod.fst = shapes')
    (h : Scans shapes' rest ks) : Scans shapes (text ++ rest) (kind :: ks) := by
  intro table begun opened taken offset hopened
  obtain ⟨c, more, rfl, hrule⟩ := hlexes
  obtain ⟨opened', hreact, hopened'⟩ := hkeep (table.position offset) begun opened hopened
  have hfirst : Lexeme.first c (more ++ rest) = ⟨c :: more, .token kind⟩ := by
    rw [Lexeme.first, hrule, List.take_left]
  have hafter : Lexeme.after c (more ++ rest) = rest := by
    rw [Lexeme.after, hrule, List.drop_left]
  obtain ⟨s, hgather, hkinds, htaken⟩ := h table true opened' (taken + (c :: more).length)
    (offset + byteLength (c :: more)) hopened'
  refine ⟨s.cons ⟨kind, table.position offset⟩, ?_, ?_, ?_⟩
  · rw [List.cons_append, gather, hfirst, hafter, react]
    simp only [hreact, hgather]
    rfl
  · exact congrArg (kind :: ·) hkinds
  · rw [List.length_append, ← Nat.add_assoc]
    exact htaken

/-- Whether a token opens or closes no bracket and separates no statements. -/
def TokenKind.isInert : TokenKind → Bool
  | .opening _ | .closing _ | .newline | .semicolon => false
  | _ => true

/-- A token that is neither a bracket nor a line feed is kept and leaves the brackets as they are.
-/
theorem Lexeme.Lexes.scans_inert {text : List Char} (hlexes : Lexes text kind rest)
    (hkind : kind.isInert) (h : Scans shapes rest ks) : Scans shapes (text ++ rest) (kind :: ks) := by
  refine hlexes.scans (fun p begun opened hopened => ⟨opened, ?_, hopened⟩) h
  cases kind <;> first | rfl | cases hkind

/-- An opening bracket is kept, and is open from there. -/
theorem Scans.opening (b : Bracket) (h : Scans (b :: shapes) rest ks) :
    Scans shapes (b.opening.toList ++ rest) (.opening b :: ks) :=
  (lexes_opening b rest).scans (fun p _ opened hopened =>
    ⟨(b, p) :: opened, rfl, congrArg (b :: ·) hopened⟩) h

/-- A closing bracket closes the innermost one. -/
theorem Scans.closing {b : Bracket} (b' : Bracket) (h : Scans shapes rest ks) :
    Scans (b :: shapes) (b'.closing.toList ++ rest) (.closing b' :: ks) := by
  refine (lexes_closing b' rest).scans (fun p begun opened hopened => ⟨opened.tail, rfl, ?_⟩) h
  rw [List.map_tail, hopened, List.tail_cons]

/-- Between the statements of a block a semicolon is kept. -/
theorem Scans.semicolon (h : Scans (.curly :: shapes) rest ks) :
    Scans (.curly :: shapes) (';' :: rest) (.semicolon :: ks) := by
  refine (lexes_semicolon rest).scans (fun p begun opened hopened => ⟨opened, ?_, hopened⟩) h
  cases opened with
  | nil => cases hopened
  | cons b opened =>
    obtain ⟨b, q⟩ := b
    cases hopened
    rfl

/-- The text does not begin with a blank. -/
def Flush (text : List Char) : Prop := ∀ c, text.head? = some c → isBlank c = false

/-- What begins with a visible character begins with no blank. -/
theorem flush_cons {c : Char} (h : isBlank c = false) (rest : List Char) : Flush (c :: rest) := by
  intro d hd
  cases hd
  exact h

/-- A blank before a character that is none is dropped. -/
theorem Scans.space (hrest : Flush rest)
    (h : Scans shapes rest ks) : Scans shapes (' ' :: rest) ks := by
  intro table begun opened taken offset hopened
  have hrun : rest.takeWhile isBlank = [] := by
    cases rest with
    | nil => rfl
    | cons c more => rw [List.takeWhile_cons, hrest c rfl]; rfl
  have hrule : rule ' ' rest = (0, .space) := by
    show ((rest.takeWhile isBlank).length, _) = _
    rw [hrun]
    rfl
  have hfirst : Lexeme.first ' ' rest = ⟨[' '], .space⟩ := by
    rw [Lexeme.first, hrule, List.take_zero]
  have hafter : Lexeme.after ' ' rest = rest := by
    rw [Lexeme.after, hrule, List.drop_zero]
  obtain ⟨s, hgather, hkinds, htaken⟩ := h table begun opened (taken + 1)
    (offset + byteLength [' ']) hopened
  refine ⟨s, ?_, hkinds, ?_⟩
  · rw [gather, hfirst, hafter, react]
    exact hgather
  · rw [List.length_cons, Nat.add_comm rest.length, ← Nat.add_assoc]
    exact htaken

/-! ## Printed parts -/

/-- Before a delimiter the text is read as these tokens. -/
structure ScansAs (text : List Char) (kinds : List TokenKind) : Prop where
  /-- Its first character makes no other token of a sign before it. -/
  begins : ∃ c more, text = c :: more ∧ isBlank c = false ∧ c ≠ '>' ∧ c ≠ '='
  scans : ∀ {shapes rest ks}, Delimited rest → Scans shapes rest ks →
    Scans shapes (text ++ rest) (kinds ++ ks)

/-- A printed expression begins with no blank. -/
theorem ScansAs.flush {text : List Char} {kinds : List TokenKind} (h : ScansAs text kinds)
    (rest : List Char) : Flush (text ++ rest) := by
  obtain ⟨c, more, htext, hblank, -⟩ := h.begins
  rw [htext]
  exact flush_cons hblank _

/-- An expression may stand after a space. -/
theorem ScansAs.spaced {text : List Char} {kinds : List TokenKind} (h : ScansAs text kinds)
    (hrest : Delimited rest) (hscans : Scans shapes rest ks) :
    Scans shapes (' ' :: (text ++ rest)) (kinds ++ ks) :=
  Scans.space (h.flush rest) (h.scans hrest hscans)

section Parts

variable {ι : Type} {text : ι → String} {kinds : ι → List TokenKind}

/-- A list with separators is its first text, a separator, and the list of the others. -/
theorem toList_intercalate_cons (separator : String) (x x₂ : ι) (xs : List ι) :
    (separator.intercalate ((x :: x₂ :: xs).map text)).toList ++ rest = (text x).toList ++
      (separator.toList ++ ((separator.intercalate ((x₂ :: xs).map text)).toList ++ rest)) := by
  simp

/-- A list that is not empty begins as its first text does. -/
theorem flush_intercalate (separator : String) {xs : List ι} (hne : xs ≠ [])
    (h : ∀ x ∈ xs, ScansAs (text x).toList (kinds x)) (rest : List Char) :
    Flush ((separator.intercalate (xs.map text)).toList ++ rest) := by
  cases xs with
  | nil => exact absurd rfl hne
  | cons x xs =>
    have hx := h x List.mem_cons_self
    cases xs with
    | nil => simpa using hx.flush rest
    | cons x₂ xs =>
      rw [toList_intercalate_cons]
      exact hx.flush _

/-- Parts with a separator between them are read if the separator is. -/
theorem scans_intercalate (separator : String) (kind : TokenKind)
    (hdelimited : ∀ rest, Delimited (separator.toList ++ rest))
    (hseparator : ∀ {rest ks}, Flush rest → Scans shapes rest ks →
      Scans shapes (separator.toList ++ rest) (kind :: ks))
    (hrest : Delimited rest) (hscans : Scans shapes rest ks) :
    ∀ {xs : List ι}, (∀ x ∈ xs, ScansAs (text x).toList (kinds x)) →
      Scans shapes ((separator.intercalate (xs.map text)).toList ++ rest)
        (Expr.separated kind (xs.map kinds) ++ ks)
  | [], _ => by simpa [Expr.separated] using hscans
  | [x], h => by simpa [Expr.separated] using (h x List.mem_cons_self).scans hrest hscans
  | x :: x₂ :: xs, h => by
    have htail := fun y hy => h y (List.mem_cons_of_mem x hy)
    have ih := scans_intercalate separator kind hdelimited hseparator hrest hscans htail
    rw [toList_intercalate_cons, List.map_cons, List.map_cons, Expr.separated, List.append_assoc,
      List.cons_append]
    · refine (h x List.mem_cons_self).scans (hdelimited _) (hseparator ?_ ih)
      exact flush_intercalate separator (List.cons_ne_nil x₂ xs) htail rest
    · exact List.cons_ne_nil _ _

/-- Parts with commas between them up to a closing bracket. -/
theorem scans_parts {xs : List ι} (h : ∀ x ∈ xs, ScansAs (text x).toList (kinds x)) {b : Bracket}
    (b' : Bracket) (hscans : Scans shapes rest ks) :
    Scans (b :: shapes) ((", ".intercalate (xs.map text)).toList ++ (b'.closing.toList ++ rest))
      (Expr.separated .comma (xs.map kinds) ++ .closing b' :: ks) := by
  refine scans_intercalate ", " .comma (fun rest => delimited_cons (by decide) _)
    (fun hflush hscans => ?_) ?_ (hscans.closing b') h
  · exact (lexes_comma _).scans_inert rfl (Scans.space hflush hscans)
  · exact delimited_closing b' rest

end Parts

/-! ## Printed expressions -/

namespace Expr

/-- Before a delimiter the printed form is read as its tokens. -/
abbrev Scanned (e : Expr) : Prop := ScansAs e.text.toList e.kinds

/-! ## Lists -/

/-- Items or arguments up to their closing bracket. -/
theorem scans_items {es : List Expr} (h : ∀ e ∈ es, e.Scanned) {b : Bracket} (b' : Bracket)
    (hscans : Scans shapes rest ks) :
    Scans (b :: shapes) ((textList ", " es).toList ++ (b'.closing.toList ++ rest))
      (listKinds .comma es ++ .closing b' :: ks) := by
  rw [textList_eq, listKinds_eq]
  exact scans_parts h b' hscans

/-- Statements up to the closing bracket of their block. -/
theorem scans_statements {es : List Expr} (h : ∀ e ∈ es, e.Scanned)
    (hscans : Scans shapes rest ks) :
    Scans (.curly :: shapes) ((textList "; " es).toList ++ (Bracket.curly.closing.toList ++ rest))
      (listKinds .semicolon es ++ .closing .curly :: ks) := by
  rw [textList_eq, listKinds_eq]
  exact scans_intercalate "; " .semicolon (fun rest => delimited_cons (by decide) _)
    (fun hflush hscans => Scans.semicolon (Scans.space hflush hscans))
    (delimited_closing .curly rest) (hscans.closing .curly) h

/-! ## Literals and names -/

attribute [local simp] text kinds Bracket.opening Bracket.closing

variable {p : Position}

/-- A character of a class that holds no blank and neither of these signs may begin an expression. -/
theorem begins_of_class {q : Char → Bool} {c : Char} (hblanks : blanks.any q = false)
    (harrow : q '>' = false) (hequals : q '=' = false) (hc : q c) :
    isBlank c = false ∧ c ≠ '>' ∧ c ≠ '=' := by
  refine ⟨not_isBlank hblanks hc, ?_, ?_⟩
  · rintro rfl
    exact Bool.eq_false_iff.mp harrow hc
  · rintro rfl
    exact Bool.eq_false_iff.mp hequals hc

/-- An integer that is not negative is one token. -/
theorem scanned_integer {n : Int64} (hn : 0 ≤ n.toInt) :
    (literal (.number (.integer n)) p).Scanned where
  begins := by
    obtain ⟨c, more, htext, hdigits, -⟩ := exists_digits hn
    exact ⟨c, more, htext, begins_of_class rfl rfl rfl (hdigits c List.mem_cons_self)⟩
  scans hrest h := (lexes_integer hn hrest).scans_inert rfl h

/-- A boolean is one word. -/
theorem scanned_boolean (b : Bool) : (literal (.boolean b) p).Scanned where
  begins := by
    cases b
    · exact ⟨'f', ['a', 'l', 's', 'e'], by simp [Literal.text, toString], by decide⟩
    · exact ⟨'t', ['r', 'u', 'e'], by simp [Literal.text, toString], by decide⟩
  scans hrest h := by
    cases b
    · exact (lexes_keyword .falseWord hrest).scans_inert rfl h
    · exact (lexes_keyword .trueWord hrest).scans_inert rfl h

/-- A quoted text is one token. -/
theorem scanned_quoted {body : String} (hbody : IsQuotable body) :
    (literal (.quoted body) p).Scanned where
  begins := ⟨'"', body.toList ++ ['"'], by simp [Literal.text], by decide⟩
  scans _ h := (lexes_quoted hbody _).scans_inert rfl h

/-- A name is one token. -/
theorem scanned_identifier {name : String} (hname : IsName name) :
    (identifier name p).Scanned where
  begins := by
    obtain ⟨c, more, hc, hstart, -⟩ := hname.word
    exact ⟨c, more, hc, begins_of_class (q := isNameStart) rfl rfl rfl hstart⟩
  scans hrest h := (lexes_name hname hrest).scans_inert rfl h

/-! ## Brackets -/

/-- A vector is its bracket, its items and commas, and its bracket. -/
theorem scanned_vector {items : List Expr} (h : ∀ e ∈ items, e.Scanned) :
    (vector items p).Scanned where
  begins := ⟨'[', (textList ", " items).toList ++ [']'], by simp, by decide⟩
  scans _ hscans := by
    have hitems := (scans_items h .square hscans).opening .square
    simpa using hitems

/-- A block likewise, with semicolons. -/
theorem scanned_block {body : List Expr} (h : ∀ e ∈ body, e.Scanned) :
    (block body p).Scanned where
  begins := ⟨'\x7b', (textList "; " body).toList ++ ['\x7d'], by simp, by decide⟩
  scans _ hscans := by
    have hbody := (scans_statements h hscans).opening .curly
    simpa using hbody

/-- A call is its callee and its arguments in brackets. -/
theorem scanned_call {callee : Expr} {arguments : List Expr} (hcallee : callee.Scanned)
    (h : ∀ e ∈ arguments, e.Scanned) : (call callee arguments p).Scanned where
  begins := by
    obtain ⟨c, more, htext, hc⟩ := hcallee.begins
    refine ⟨c, more ++ ('(' :: ((textList ", " arguments).toList ++ [')'])), ?_, hc⟩
    simp [htext]
  scans {shapes rest ks} _ hscans := by
    have harguments := (scans_items h .round hscans).opening .round
    have hall := hcallee.scans (delimited_round _) harguments
    simpa using hall

/-- An assignment is printed in brackets. -/
theorem scanned_assign {name : String} {value : Expr} (hname : IsName name) (hvalue : value.Scanned) :
    (assign name value false p).Scanned where
  begins := ⟨'(', name.toList ++ (" = ".toList ++ (value.text.toList ++ [')'])), by simp,
    by decide⟩
  scans {shapes rest ks} _ hscans := by
    have hend := hscans.closing (b := .round) .round
    have hright := hvalue.spaced (delimited_closing .round rest) hend
    have hassign := ((lexes_assign _).scans_inert rfl hright).space (flush_cons (by decide) _)
    have hleft := (lexes_name hname (delimited_cons (by decide) _)).scans_inert rfl hassign
    simpa using hleft.opening .round

/-- No operator is printed with a blank in front. -/
theorem flush_symbol (op : BinaryOp) (rest : List Char) : Flush (op.symbol.toList ++ rest) := by
  cases op <;> exact flush_cons (by decide) _

/-- An operation is printed in brackets, with spaces about the operator. -/
theorem scanned_binary {op : BinaryOp} {left right : Expr} (hleft : left.Scanned)
    (hright : right.Scanned) : (binary op left right p).Scanned where
  begins := ⟨'(', left.text.toList ++ (' ' :: (op.symbol.toList ++
    (' ' :: (right.text.toList ++ [')'])))), by simp, by decide⟩
  scans {shapes rest ks} _ hscans := by
    have hend := hscans.closing (b := .round) .round
    have hr := hright.spaced (delimited_closing .round rest) hend
    have hop := ((lexes_operator op _).scans_inert rfl hr).space (flush_symbol op _)
    have hl := hleft.scans (delimited_cons (by decide) _) hop
    simpa using hl.opening .round

/-- Prefix operators open and close nothing. -/
theorem isInert_kind (op : UnaryOp) : op.kind.isInert := by
  cases op <;> rfl

/-- A prefix operator is printed right before its operand. -/
theorem scanned_unary {op : UnaryOp} {operand : Expr} (h : operand.Scanned) :
    (unary op operand p).Scanned where
  begins := ⟨'(', op.symbol.toList ++ (operand.text.toList ++ [')']), by simp, by decide⟩
  scans {shapes rest ks} _ hscans := by
    obtain ⟨c, more, htext, -, harrow, hequals⟩ := h.begins
    have hend := hscans.closing (b := .round) .round
    have hoperand := h.scans (delimited_closing .round rest) hend
    have hop : Lexes op.symbol.toList op.kind (operand.text.toList ++ ')' :: rest) := by
      rw [htext]
      exact lexes_unary op (fun e => harrow (Option.some.inj e)) (fun e => hequals (Option.some.inj e))
    have hall := (hop.scans_inert (isInert_kind op) hoperand).opening .round
    simpa using hall

/-! ## Functions -/

/-- A name begins with no blank. -/
theorem flush_name {name : String} (h : IsName name) (rest : List Char) :
    Flush (name.toList ++ rest) := by
  obtain ⟨c, more, hname, hc, -⟩ := h.word
  rw [hname]
  exact flush_cons (not_isBlank (p := isNameStart) rfl hc) _

/-- Parameters are names and commas. -/
theorem scans_names (hrest : Delimited rest) (hscans : Scans shapes rest ks) :
    ∀ {names : List String}, (∀ x ∈ names, IsName x) →
      Scans shapes ((", ".intercalate names).toList ++ rest) (nameKinds names ++ ks)
  | [], _ => by simpa [nameKinds] using hscans
  | [name], h => by
    have hname := (lexes_name (h name List.mem_cons_self) hrest).scans_inert rfl hscans
    simpa [nameKinds] using hname
  | name :: name₂ :: names, h => by
    have htail := fun x hx => h x (List.mem_cons_of_mem name hx)
    have ih := scans_names hrest hscans htail
    have hflush : Flush ((", ".intercalate (name₂ :: names)).toList ++ rest) := by
      have hname₂ := htail name₂ List.mem_cons_self
      cases names with
      | nil => simpa using flush_name hname₂ rest
      | cons name₃ names => simpa using flush_name hname₂ _
    have hcomma := (lexes_comma _).scans_inert rfl (ih.space hflush)
    have hname := (lexes_name (h name List.mem_cons_self)
      (delimited_cons (by decide) _)).scans_inert rfl hcomma
    simpa [nameKinds] using hname

/-- A function is its parameters between bars and its body after a space. -/
theorem scanned_function {parameters : List String} {body : Expr} (h : ∀ x ∈ parameters, IsName x)
    (hbody : body.Scanned) : (function parameters body p).Scanned where
  begins := ⟨'|', (", ".intercalate parameters).toList ++ ('|' :: ' ' :: body.text.toList),
    by simp, by decide⟩
  scans {shapes rest ks} hrest hscans := by
    have hbar := (lexes_bar _).scans_inert rfl (hbody.spaced hrest hscans)
    have hnames := scans_names (delimited_cons (by decide) _) hbar h
    have hall := (lexes_bar _).scans_inert rfl hnames
    simpa using hall

/-! ## Conditionals -/

/-- A word of the language begins with no blank. -/
theorem flush_keyword (word : Keyword) (rest : List Char) : Flush (word.text.toList ++ rest) := by
  cases word <;> exact flush_cons (by decide) _

/-- One branch with its keyword. -/
theorem scans_branch (word : Keyword) {condition body : Expr} (hcondition : condition.Scanned)
    (hbody : body.Scanned) (hrest : Delimited rest) (hscans : Scans shapes rest ks) :
    Scans shapes
      (word.text.toList ++ ' ' :: (condition.text.toList ++ ' ' :: (body.text.toList ++ rest)))
      (.keyword word :: (condition.kinds ++ (body.kinds ++ ks))) := by
  have hboth := hcondition.spaced (delimited_cons (by decide) _) (hbody.spaced hrest hscans)
  exact (lexes_keyword word (delimited_cons (by decide) _)).scans_inert rfl hboth

/-- Further branches are words, conditions in brackets and bodies. -/
theorem scans_furtherBranches (hrest : Delimited rest) (hscans : Scans shapes rest ks) :
    ∀ {branches : List (Expr × Expr)}, (∀ b ∈ branches, b.1.Scanned ∧ b.2.Scanned) →
      Scans shapes ((textBranches " elif" branches).toList ++ rest)
        (branchKinds .elifWord branches ++ ks) ∧
      Delimited ((textBranches " elif" branches).toList ++ rest)
  | [], _ => ⟨hscans, hrest⟩
  | (condition, body) :: branches, h => by
    obtain ⟨hcondition, hbody⟩ := h _ List.mem_cons_self
    obtain ⟨ih, hdelimited⟩ := scans_furtherBranches hrest hscans
      fun b hb => h b (List.mem_cons_of_mem _ hb)
    have hbranch := scans_branch .elifWord hcondition hbody hdelimited ih
    have hall := hbranch.space (flush_keyword .elifWord _)
    constructor
    · simpa [textBranches, branchKinds, Keyword.text] using hall
    · simpa [textBranches] using delimited_cons (by decide) _

/-- A conditional is its branches and the last body. -/
theorem scanned_conditional {branches : List (Expr × Expr)} {otherwise : Expr} (hne : branches ≠ [])
    (h : ∀ b ∈ branches, b.1.Scanned ∧ b.2.Scanned) (hotherwise : otherwise.Scanned) :
    (conditional branches otherwise p).Scanned := by
  cases branches with
  | nil => exact absurd rfl hne
  | cons b branches =>
    obtain ⟨condition, body⟩ := b
    obtain ⟨hcondition, hbody⟩ := h _ List.mem_cons_self
    refine ⟨⟨'i', 'f' :: ' ' :: (condition.text.toList ++ ' ' :: (body.text.toList ++
      ((textBranches " elif" branches).toList ++ (" else ".toList ++ otherwise.text.toList)))),
      by simp [textBranches], by decide⟩, fun {shapes rest ks} hrest hscans => ?_⟩
    have helse := (lexes_keyword .elseWord (delimited_cons (by decide) _)).scans_inert rfl
      (hotherwise.spaced hrest hscans)
    obtain ⟨hmore, hdelimited⟩ := scans_furtherBranches (delimited_cons (by decide) _)
      (helse.space (flush_keyword .elseWord _)) fun b hb => h b (List.mem_cons_of_mem _ hb)
    have hall := scans_branch .ifWord hcondition hbody hdelimited hmore
    simpa [textBranches, branchKinds, Keyword.text] using hall

/-! ## Plain expressions -/

mutual

/-- Every closed expression is read as its tokens: one case for each form. -/
theorem Closed.scanned {e : Expr} : e.Closed → e.Scanned
  | .number hn => scanned_integer hn
  | .boolean => scanned_boolean _
  | .quoted hbody => scanned_quoted hbody
  | .identifier hname => scanned_identifier hname
  | .vector plain => scanned_vector fun e he => (plain e he).scanned
  | .block _ plain => scanned_block fun e he => (plain e he).scanned
  | .assign hname hvalue => scanned_assign hname hvalue.scanned
  | .binary hleft hright => scanned_binary hleft.scanned hright.scanned
  | .unary hoperand => scanned_unary hoperand.scanned
  | .call _ hcallee plain => scanned_call hcallee.scanned fun e he => (plain e he).scanned

/-- So is every plain one. -/
theorem Plain.scanned {e : Expr} : e.Plain → e.Scanned
  | .closed h => h.scanned
  | .function hnames _ hbody => scanned_function hnames hbody.scanned
  | .conditional hne _ closed plain hotherwise =>
    scanned_conditional hne (fun b hb => ⟨(closed b hb).scanned, (plain b hb).scanned⟩)
      hotherwise.scanned

end

end Expr

end Abacus
