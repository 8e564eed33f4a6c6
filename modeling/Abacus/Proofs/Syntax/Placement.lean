import Abacus.Proofs.Syntax.Composition

/-!
# Where expressions and faults stand

The grammar makes up no positions. Every node of a tree stands at one of the statement's tokens, and
every refusal speaks of a token, as it is and where it stands, or of the end of the statement. So
whatever is known of the tokens is known of all positions in what is read from them. Tokens and ends
of statements are places in the text, and what is true of the places in a text is true of what is
read from it.

**The laws** (`Expr.ofTokens_known`, `Expr.ofTokens_placed`, `Script.read_placed`): a tree stands at
tokens, and a refusal blames a token or the end; both stand where the tokens and the end of the
statement stand; and a script and its fault stand in their text.
-/

namespace Abacus

/-! ## Trees -/

namespace Expr

variable {place : Position → Prop}

mutual

/-- All nodes of the tree stand at such places. -/
def Placed (place : Position → Prop) : Expr → Prop
  | .literal _ p | .identifier _ p => place p
  | .vector items p | .block items p => place p ∧ AllPlaced place items
  | .conditional branches otherwise p =>
    place p ∧ BranchesPlaced place branches ∧ otherwise.Placed place
  | .function _ body p => place p ∧ body.Placed place
  | .call callee arguments p => place p ∧ callee.Placed place ∧ AllPlaced place arguments
  | .assign _ value _ p => place p ∧ value.Placed place
  | .binary _ left right p => place p ∧ left.Placed place ∧ right.Placed place
  | .unary _ operand p => place p ∧ operand.Placed place

/-- All nodes of all the trees stand at such places. -/
def AllPlaced (place : Position → Prop) : List Expr → Prop
  | [] => True
  | e :: rest => e.Placed place ∧ AllPlaced place rest

/-- All nodes of the conditions and bodies stand at such places. -/
def BranchesPlaced (place : Position → Prop) : List (Expr × Expr) → Prop
  | [] => True
  | (condition, body) :: rest =>
    condition.Placed place ∧ body.Placed place ∧ BranchesPlaced place rest

end

mutual

/-- If all places will do, then every tree does. -/
theorem placed_of_forall (h : ∀ p, place p) : ∀ e : Expr, e.Placed place
  | .literal _ p | .identifier _ p => h p
  | .vector items p | .block items p => ⟨h p, allPlaced_of_forall h items⟩
  | .conditional branches otherwise p =>
    ⟨h p, branchesPlaced_of_forall h branches, placed_of_forall h otherwise⟩
  | .function _ body p => ⟨h p, placed_of_forall h body⟩
  | .call callee arguments p => ⟨h p, placed_of_forall h callee, allPlaced_of_forall h arguments⟩
  | .assign _ value _ p => ⟨h p, placed_of_forall h value⟩
  | .binary _ left right p => ⟨h p, placed_of_forall h left, placed_of_forall h right⟩
  | .unary _ operand p => ⟨h p, placed_of_forall h operand⟩

/-- Then all trees of a list do. -/
theorem allPlaced_of_forall (h : ∀ p, place p) : ∀ es : List Expr, AllPlaced place es
  | [] => trivial
  | e :: rest => ⟨placed_of_forall h e, allPlaced_of_forall h rest⟩

/-- And all branches. -/
theorem branchesPlaced_of_forall (h : ∀ p, place p) :
    ∀ branches : List (Expr × Expr), BranchesPlaced place branches
  | [] => trivial
  | (condition, body) :: rest =>
    ⟨placed_of_forall h condition, placed_of_forall h body, branchesPlaced_of_forall h rest⟩

end

/-- The position of a tree is that of its root. -/
theorem Placed.position {e : Expr} (h : e.Placed place) : place e.position := by
  cases e with
  | literal | identifier => exact h
  | _ => exact h.1

end Expr

/-! ## Rules -/

/-- A token that is known stands there. -/
def Grammar.PlaceOf (known : Token → Prop) (p : Position) : Prop :=
  ∃ token, known token ∧ token.position = p

/-- Tokens that are known, and the end of the statement, are all that a refusal speaks of. -/
def ParseError.Blames (known : Token → Prop) (stop : Position) : ParseError → Prop
  | .unexpected found _ p => known ⟨found, p⟩
  | .missing _ p => p = stop
  | .invalid _ p => Grammar.PlaceOf known p

namespace Grammar

variable {known : Token → Prop} {α β : Type} {good : α → Prop} {fine : β → Prop}

/-- The token, if there is one, is known. -/
def TokenKnown (known : Token → Prop) (token : Option Token) : Prop :=
  ∀ t ∈ token, known t

/-- Where a known token stands is a place of known tokens. -/
theorem placeOf_position {token : Token} (h : known token) : PlaceOf known token.position :=
  ⟨token, h, rfl⟩

/-- Either something good is read and the remaining tokens are known, or the refusal speaks of what
is known. -/
def Outcome.Placed (known : Token → Prop) (stop : Position) (good : α → Prop) : Outcome α → Prop
  | .read value rest => good value ∧ ∀ token ∈ rest, known token
  | .refused error => error.Blames known stop
  | .exhausted => True

/-- From tokens that are known, the outcome is placed. -/
def Rule.Places (known : Token → Prop) (rule : Rule α) (good : α → Prop) : Prop :=
  ∀ (stop : Position) (tokens : List Token), (∀ token ∈ tokens, known token) →
    (rule stop tokens).Placed known stop good

namespace Rule.Places

variable {rule : Rule α} {next : α → Rule β}

/-- To read nothing and give something good. -/
theorem pure {a : α} (h : good a) : Rule.Places known (Pure.pure a) good :=
  fun _ _ htokens => ⟨h, htokens⟩

/-- **Rules that place what they read do so one after the other.** -/
theorem bind (h : rule.Places known good) (hnext : ∀ {a}, good a → (next a).Places known fine) :
    (rule >>= next).Places known fine := by
  intro stop tokens htokens
  have hread := h stop tokens htokens
  show (Rule.bind rule next stop tokens).Placed known stop fine
  unfold Rule.bind
  cases hresult : rule stop tokens with
  | read value rest =>
    rw [hresult] at hread
    exact hnext hread.1 stop rest hread.2
  | refused error =>
    rw [hresult] at hread
    exact hread
  | exhausted => trivial

/-- A token that is known may be refused. -/
theorem refuse_token {token : Token} {expected : Expected} (h : known token) :
    (Grammar.refuse (.ofToken token expected) : Rule α).Places known good :=
  fun _ _ _ => h

/-- Something may be misused where a known token stands. -/
theorem misuse {misuse : Misuse} {p : Position} (h : PlaceOf known p) :
    (Grammar.refuse (.invalid misuse p) : Rule α).Places known good :=
  fun _ _ _ => h

/-- What comes after a refusal never runs. -/
theorem misuse_bind {misuse : Misuse} {p : Position} {rest : β → Rule α} (h : PlaceOf known p) :
    (Grammar.refuse (.invalid misuse p) >>= rest).Places known good :=
  fun _ _ _ => h

/-- What is missing is missed at the next token or at the end. -/
theorem missing {expected : Expected} : (Grammar.missing expected : Rule α).Places known good :=
  fun _ _ _ => rfl

/-- A rule without budget reads nothing and refuses nothing. -/
theorem exhausted : (Grammar.exhausted : Rule α).Places known good :=
  fun _ _ _ => trivial

end Rule.Places

open Rule (Places)

/-! ## Single tokens -/

section Tokens

variable {kind : TokenKind} {expected : Expected}

/-- The first of known tokens is known. -/
theorem tokenKnown_head? {tokens : List Token} (h : ∀ token ∈ tokens, known token) :
    TokenKnown known tokens.head? :=
  fun _ ht => h _ (List.mem_of_mem_head? ht)

/-- A token that is there is known as it is. -/
theorem tokenKnown_some {token : Token} : TokenKnown known (some token) ↔ known token := by
  simp [TokenKnown]

theorem tokenKnown_none : TokenKnown known none := fun _ ht => nomatch ht

/-- To look at the next token leaves it, and it is known. -/
theorem places_peek : peek.Places known (TokenKnown known) :=
  fun _ _ htokens => ⟨tokenKnown_head? htokens, htokens⟩

/-- To look past line feeds leaves them. -/
theorem places_peekPastNewlines : peekPastNewlines.Places known (TokenKnown known) :=
  fun _ _ htokens => ⟨fun _ ht => htokens _ (List.mem_of_find?_eq_some ht), htokens⟩

/-- To take a token leaves known ones. -/
theorem places_next : next.Places known (TokenKnown known) :=
  fun _ _ htokens =>
    ⟨tokenKnown_head? htokens, fun token ht => htokens token (List.mem_of_mem_tail ht)⟩

/-- To take a token of one kind, if it is next. -/
theorem places_accept : (accept kind).Places known (TokenKnown known) := by
  intro stop tokens htokens
  cases tokens with
  | nil => exact ⟨tokenKnown_none, htokens⟩
  | cons token rest =>
    by_cases hkind : token.kind = kind
    · rw [accept, if_pos hkind]
      exact ⟨tokenKnown_some.mpr (htokens token List.mem_cons_self),
        fun t ht => htokens t (List.mem_cons_of_mem _ ht)⟩
    · rw [accept, if_neg hkind]
      exact ⟨tokenKnown_none, htokens⟩

/-- To take a token of one kind, or to refuse what stands in its place. -/
theorem places_expect : (expect kind expected).Places known fun _ => True := by
  refine places_accept.bind fun {token} _ => ?_
  split
  · exact .pure trivial
  · refine places_peek.bind fun {token} htoken => ?_
    cases token with
    | some token => exact .refuse_token (tokenKnown_some.mp htoken)
    | none => exact .missing

/-- To drop line feeds. -/
theorem places_skipNewlines : skipNewlines.Places known fun _ => True :=
  fun _ _ htokens =>
    ⟨trivial, fun token ht => htokens token ((List.dropWhile_sublist _).subset ht)⟩

/-- To drop line feeds and semicolons. -/
theorem places_skipSeparators : skipSeparators.Places known fun _ => True :=
  fun _ _ htokens =>
    ⟨trivial, fun token ht => htokens token ((List.dropWhile_sublist _).subset ht)⟩

end Tokens

/-! ## Lists of parts -/

section Parts

variable {part : Rule Expr} (hpart : part.Places known (Expr.Placed (PlaceOf known)))

include hpart

/-- The items of a list are placed if the rule for one places it: by induction on the budget, as the
loops below are. -/
theorem places_items (close : TokenKind) (expected : Expected) (budget : Nat) :
    (items part close expected budget).Places known (Expr.AllPlaced (PlaceOf known)) := by
  induction budget with
  | zero => exact .exhausted
  | succ budget ih =>
    refine places_accept.bind fun _ => ?_
    split
    · exact .pure trivial
    · refine hpart.bind fun hitem => places_accept.bind fun _ => ?_
      split
      · exact ih.bind fun hitems => .pure ⟨hitem, hitems⟩
      · exact places_expect.bind fun _ => .pure ⟨hitem, trivial⟩

/-- A call stands where its callee does. -/
theorem places_callSuffix (budget : Nat) {callee : Expr} (hcallee : callee.Placed (PlaceOf known)) :
    (callSuffix part budget callee).Places known (Expr.Placed (PlaceOf known)) := by
  induction budget generalizing callee with
  | zero => exact .exhausted
  | succ budget ih =>
    refine places_accept.bind fun _ => ?_
    split
    · refine (places_items hpart _ _ _).bind fun harguments => ih ?_
      exact ⟨hcallee.position, hcallee, harguments⟩
    · exact .pure hcallee

/-- The statements of a block are placed. -/
theorem places_blockBody (budget : Nat) :
    (blockBody part budget).Places known (Expr.AllPlaced (PlaceOf known)) := by
  induction budget with
  | zero => exact .exhausted
  | succ budget ih =>
    refine places_accept.bind fun _ => ?_
    split
    · exact .pure trivial
    · refine hpart.bind fun hstatement => places_peek.bind fun {token} htoken => ?_
      cases token with
      | none => exact .missing
      | some token =>
        dsimp only
        split
        · refine places_skipSeparators.bind fun _ => ?_
          exact ih.bind fun hmore => .pure ⟨hstatement, hmore⟩
        · split
          · exact ih.bind fun hmore => .pure ⟨hstatement, hmore⟩
          · exact .refuse_token (tokenKnown_some.mp htoken)

/-- A block stands at its opening brace. -/
theorem places_block (budget : Nat) {position : Position} (hposition : PlaceOf known position) :
    (block part budget position).Places known (Expr.Placed (PlaceOf known)) := by
  refine places_skipSeparators.bind fun _ => ?_
  refine (places_blockBody hpart budget).bind fun {body} hbody => ?_
  dsimp only
  split
  · exact .misuse_bind hposition
  · exact .pure ⟨hposition, hbody⟩

/-- A condition is placed. -/
theorem places_condition : (condition part).Places known (Expr.Placed (PlaceOf known)) := by
  refine places_expect.bind fun _ => hpart.bind fun hcondition => ?_
  exact places_expect.bind fun _ => places_skipNewlines.bind fun _ => .pure hcondition

/-- The further branches of a conditional are placed, and so is the last one. -/
theorem places_furtherBranches (budget : Nat) :
    (furtherBranches part budget).Places known fun more =>
      Expr.BranchesPlaced (PlaceOf known) more.1 ∧ more.2.Placed (PlaceOf known) := by
  induction budget with
  | zero => exact .exhausted
  | succ budget ih =>
    refine places_peekPastNewlines.bind fun {token} htoken => ?_
    cases token with
    | none => exact .missing
    | some token =>
      dsimp only
      split
      · refine places_skipNewlines.bind fun _ => places_next.bind fun _ => ?_
        refine (places_condition hpart).bind fun hcondition => hpart.bind fun hbody => ?_
        exact ih.bind fun hmore => .pure ⟨⟨hcondition, hbody, hmore.1⟩, hmore.2⟩
      · split
        · refine places_skipNewlines.bind fun _ => places_next.bind fun _ => ?_
          exact places_skipNewlines.bind fun _ => hpart.bind fun hbody => .pure ⟨trivial, hbody⟩
        · exact .refuse_token (tokenKnown_some.mp htoken)

/-- A conditional stands at its first word. -/
theorem places_conditional (budget : Nat) {position : Position} (hposition : PlaceOf known position) :
    (conditional part budget position).Places known (Expr.Placed (PlaceOf known)) := by
  refine (places_condition hpart).bind fun hcondition => hpart.bind fun hbody => ?_
  refine (places_furtherBranches hpart budget).bind fun hmore => .pure ?_
  exact ⟨hposition, ⟨hcondition, hbody, hmore.1⟩, hmore.2⟩

omit hpart in
/-- Parameters are names without positions; a repeated one is blamed on its token. -/
theorem places_parameters (budget : Nat) (seen : List String) :
    (parameters budget seen).Places known fun _ => True := by
  induction budget generalizing seen with
  | zero => exact .exhausted
  | succ budget ih =>
    refine places_next.bind fun {token} htoken => ?_
    cases token with
    | none => exact .missing
    | some token =>
      replace htoken := tokenKnown_some.mp htoken
      dsimp only
      split
      · next name _ =>
        have hrest : (do
            if (← accept .comma).isSome then
              return name :: (← parameters budget (name :: seen))
            expect (.operator .or) .commaOrBar
            return [name] : Rule (List String)).Places known fun _ => True := by
          refine places_accept.bind fun _ => ?_
          split
          · exact (ih _).bind fun _ => .pure trivial
          · exact places_expect.bind fun _ => .pure trivial
        split
        · exact .misuse_bind (placeOf_position htoken)
        · exact hrest
      · exact .refuse_token htoken

/-- A function stands at its bar. -/
theorem places_function (budget : Nat) {position : Position} (hposition : PlaceOf known position) :
    (function part budget position).Places known (Expr.Placed (PlaceOf known)) := by
  have hbody : ∀ names : List String, (do
      skipNewlines
      return .function names (← part) position : Rule Expr).Places known
        (Expr.Placed (PlaceOf known)) :=
    fun _ => places_skipNewlines.bind fun _ => hpart.bind fun hbody => .pure ⟨hposition, hbody⟩
  refine places_accept.bind fun _ => ?_
  split
  · exact hbody []
  · exact (places_parameters budget []).bind fun _ => hbody _

/-! ## From primaries to assignments -/

/-- Whatever an operand begins with is a known token, and the operand stands there. -/
theorem places_primary (budget : Nat) :
    (primary part budget).Places known (Expr.Placed (PlaceOf known)) := by
  refine places_next.bind fun {token} htoken => ?_
  cases token with
  | none => exact .missing
  | some token =>
    replace htoken := tokenKnown_some.mp htoken
    have hplace := placeOf_position htoken
    dsimp only
    split
    case h_1 | h_2 | h_3 | h_4 => exact .pure hplace
    case h_5 => exact places_callSuffix hpart budget hplace
    case h_6 =>
      refine hpart.bind fun hinner => places_expect.bind fun _ => ?_
      exact places_callSuffix hpart budget hinner
    case h_7 => exact (places_items hpart _ _ _).bind fun hitems => .pure ⟨hplace, hitems⟩
    case h_8 => exact places_block hpart budget hplace
    case h_9 => exact places_conditional hpart budget hplace
    case h_10 => exact places_function hpart budget hplace
    case h_11 => exact .refuse_token htoken

end Parts

section Operands

variable {operand : Rule Expr} (hoperand : operand.Places known (Expr.Placed (PlaceOf known)))

include hoperand

/-- A prefix operator stands at its token. -/
theorem places_unary (budget : Nat) :
    (unary operand budget).Places known (Expr.Placed (PlaceOf known)) := by
  induction budget with
  | zero => exact .exhausted
  | succ budget ih =>
    refine places_peek.bind fun {token} htoken => ?_
    cases token with
    | none => exact hoperand
    | some token =>
      dsimp only
      split
      · refine places_next.bind fun _ => ih.bind fun hinner => .pure ?_
        exact ⟨placeOf_position (tokenKnown_some.mp htoken), hinner⟩
      · exact hoperand

omit hoperand in
/-- What is piped into something becomes part of its call: the call stands at the arrow or where it
stood. -/
theorem placed_link {left right : Expr} {arrow : Position} (hleft : left.Placed (PlaceOf known))
    (hright : right.Placed (PlaceOf known)) (harrow : PlaceOf known arrow) :
    (link left right arrow).Placed (PlaceOf known) := by
  unfold link
  split
  · exact ⟨hright.1, hright.2.1, hleft, hright.2.2⟩
  · exact ⟨harrow, hright, hleft, trivial⟩

/-- A pipeline is placed, whichever links it has. -/
theorem places_links (budget : Nat) {left : Expr} (hleft : left.Placed (PlaceOf known)) :
    (links operand budget left).Places known (Expr.Placed (PlaceOf known)) := by
  induction budget generalizing left with
  | zero => exact .exhausted
  | succ budget ih =>
    refine places_accept.bind fun {token} htoken => ?_
    cases token with
    | none => exact .pure hleft
    | some arrow =>
      refine places_skipNewlines.bind fun _ => hoperand.bind fun hright => ih ?_
      exact placed_link hleft hright (placeOf_position (tokenKnown_some.mp htoken))

/-- A pipeline begins with an operand. -/
theorem places_chain (budget : Nat) :
    (chain operand budget).Places known (Expr.Placed (PlaceOf known)) :=
  (places_unary hoperand budget).bind fun hleft => places_links hoperand budget hleft

/-- The operations of one level are placed: an operation stands at its operator. -/
theorem places_operations (level budget : Nat) {left : Expr} (hleft : left.Placed (PlaceOf known)) :
    (operations operand level budget left).Places known (Expr.Placed (PlaceOf known)) := by
  induction budget generalizing left with
  | zero => exact .exhausted
  | succ budget ih =>
    refine places_peek.bind fun {token} htoken => ?_
    cases token with
    | none => exact .pure hleft
    | some token =>
      dsimp only
      split
      · refine places_next.bind fun _ => places_skipNewlines.bind fun _ => ?_
        have hplace := placeOf_position (tokenKnown_some.mp htoken)
        exact hoperand.bind fun hright => ih ⟨hplace, hleft, hright⟩
      · exact .pure hleft

/-- The operations of all levels are placed, by induction on the levels. -/
theorem places_binary (budget levels : Nat) :
    (binary operand budget levels).Places known (Expr.Placed (PlaceOf known)) := by
  induction levels with
  | zero => exact hoperand
  | succ levels ih => exact ih.bind fun hleft => places_operations ih _ budget hleft

/-- Assignments stand at their names. -/
theorem places_assignments (isLocal : Bool) (budget : Nat) :
    (assignments operand isLocal budget).Places known (Expr.Placed (PlaceOf known)) := by
  induction budget with
  | zero => exact .exhausted
  | succ budget ih =>
    refine hoperand.bind fun {target} htarget => places_accept.bind fun _ => ?_
    split
    · refine places_skipNewlines.bind fun _ => ?_
      split
      · exact ih.bind fun hvalue => .pure ⟨htarget, hvalue⟩
      · exact .misuse htarget.position
    · exact .pure htarget

/-- An expression, with the word `local` or without it, is placed. -/
theorem places_assignment (budget : Nat) :
    (assignment operand budget).Places known (Expr.Placed (PlaceOf known)) := by
  refine places_accept.bind fun {token} htoken => ?_
  cases token with
  | none => exact places_assignments hoperand false budget
  | some word =>
    refine (places_assignments hoperand true budget).bind fun {e} he => ?_
    split
    · exact .pure he
    · exact .misuse (placeOf_position (tokenKnown_some.mp htoken))

end Operands

/-- **The rule of an expression places all that it reads.** -/
theorem places_expression (budget : Nat) :
    (expression budget).Places known (Expr.Placed (PlaceOf known)) := by
  induction budget with
  | zero => exact .exhausted
  | succ budget ih =>
    exact places_assignment (places_binary (places_chain (places_primary ih _) _) _ _) _

end Grammar

/-- **An expression stands at tokens of the statement, and the fault that there is none speaks of one
of them or of the end of the statement.** -/
theorem Expr.ofTokens_known {known : Token → Prop} {tokens : List Token} (stop : Position)
    (htokens : ∀ token ∈ tokens, known token) :
    (∀ e, Expr.ofTokens tokens stop = .ok e → e.Placed (Grammar.PlaceOf known)) ∧
      ∀ error, Expr.ofTokens tokens stop = .error error → error.Blames known stop := by
  have hread := Grammar.places_expression (tokens.length + 1) stop tokens htokens
  unfold ofTokens
  cases hresult : Grammar.expression (tokens.length + 1) stop tokens with
  | read e rest =>
    rw [hresult] at hread
    cases rest with
    | nil =>
      refine ⟨fun _ h => ?_, fun _ h => by cases h⟩
      cases h
      exact hread.1
    | cons token rest =>
      refine ⟨fun _ h => (by cases h), fun _ h => ?_⟩
      cases h
      exact hread.2 token List.mem_cons_self
  | refused error =>
    rw [hresult] at hread
    refine ⟨fun _ h => (by cases h), fun _ h => ?_⟩
    cases h
    exact hread
  | exhausted =>
    refine ⟨fun _ h => (by cases h), fun _ h => ?_⟩
    cases h
    rfl

/-- If the tokens and the end of the statement stand at such places, then so does what is read, or
the fault that there is nothing. -/
theorem Expr.ofTokens_placed {place : Position → Prop} {tokens : List Token} {stop : Position}
    (htokens : ∀ token ∈ tokens, place token.position) (hstop : place stop) :
    (∀ e, Expr.ofTokens tokens stop = .ok e → e.Placed place) ∧
      ∀ error, Expr.ofTokens tokens stop = .error error → place error.position := by
  have hplace : Grammar.PlaceOf (fun token => place token.position) = place := by
    funext p
    refine propext ⟨?_, fun hp => ⟨⟨.comma, p⟩, hp, rfl⟩⟩
    rintro ⟨_, htoken, rfl⟩
    exact htoken
  have hknown := Expr.ofTokens_known stop htokens
  rw [hplace] at hknown
  refine ⟨hknown.1, fun error herror => ?_⟩
  have hblames := hknown.2 error herror
  cases error with
  | unexpected found expected p => exact hblames
  | missing expected p => exact hblames.symm ▸ hstop
  | invalid misuse p => exact hplace ▸ hblames

/-! ## Texts -/

/-- The position is a place in a text that stands at an origin: that before one of its characters, or
its end. -/
def Position.StandsIn (p : Position) (text : List Char) (origin : Position) : Prop :=
  ∃ front back, text = front ++ back ∧ p = origin.advance front

/-- A text stands at its origin. -/
theorem Position.standsIn_origin (text : List Char) (origin : Position) :
    origin.StandsIn text origin :=
  ⟨[], text, rfl, rfl⟩

/-- A place in what is left of a text is one in the text. -/
theorem Position.StandsIn.of_drop {text : List Char} {origin p : Position} (count : Nat)
    (h : p.StandsIn (text.drop count) (origin.advance (text.take count))) :
    p.StandsIn text origin := by
  obtain ⟨front, back, htext, rfl⟩ := h
  refine ⟨text.take count ++ front, back, ?_, (Position.advance_append _ _ _).symm⟩
  rw [List.append_assoc, ← htext, List.take_append_drop]

namespace Statement

open Lexeme (stream)

/-- The outcome of reading a statement stands at such places. -/
def OutcomePlaced (place : Position → Prop) : Except LexError Statement → Prop
  | .ok s => (∀ token ∈ s.tokens, place token.position) ∧ place s.stop
  | .error e => place e.position

/-- Brackets that are open after a token were open before it, or one opens there. -/
theorem opened_of_react_keep {kind : LexemeKind} {last : Bool} {p : Position} {begun : Bool}
    {opened opened' : List Open} {kept : TokenKind}
    (h : react kind last p begun opened = .keep kept opened') :
    ∀ bracket ∈ opened', bracket ∈ opened ∨
      bracket.2 = p ∧ kind = .token (.opening bracket.1) := by
  cases kind with
  | token kind =>
    obtain hsame | htail | ⟨shape, hkind, hopen⟩ :
        opened' = opened ∨ opened' = opened.tail ∨
          ∃ shape, kind = .opening shape ∧ opened' = (shape, p) :: opened := by
      cases kind with
      | opening shape => cases h; exact .inr (.inr ⟨shape, rfl, rfl⟩)
      | closing shape => cases h; exact .inr (.inl rfl)
      | newline | semicolon =>
        refine .inl ?_
        cases opened with
        | nil => cases begun <;> cases h
        | cons bracket outer =>
          obtain ⟨shape, q⟩ := bracket
          cases shape <;> cases h <;> rfl
      | _ => cases h; exact .inl rfl
    · exact fun b hb => .inl (hsame ▸ hb)
    · exact fun b hb => .inl (List.mem_of_mem_tail (htail ▸ hb))
    · intro b hb
      rw [hopen] at hb
      rcases List.mem_cons.mp hb with rfl | hb
      · exact .inr ⟨rfl, congrArg LexemeKind.token hkind⟩
      · exact .inl hb
  | space => cases h
  | continuation joined => cases joined <;> cases h
  | invalid fault => cases h

/-- Tokens, ends and faults of a statement stand at lexemes, or at brackets that were open before:
by induction on the lexemes. -/
theorem ofLexemes_placed {place : Position → Prop} {xs : List Lexeme} {p : Position} {begun : Bool}
    {opened : List Open} {taken consumed : Nat}
    (hplaces : ∀ ys zs : List Lexeme, xs = ys ++ zs → place (p.advance (ys.flatMap Lexeme.text)))
    (hopened : ∀ bracket ∈ opened, place bracket.2) :
    OutcomePlaced place (ofLexemes p begun opened taken consumed xs) := by
  induction xs generalizing p begun opened taken consumed with
  | nil =>
    cases opened with
    | nil => exact ⟨fun _ ht => absurd ht List.not_mem_nil, hplaces [] [] rfl⟩
    | cons bracket outer => exact hopened bracket List.mem_cons_self
  | cons x rest ih =>
    have hp : place p := hplaces [] (x :: rest) rfl
    have hrest : ∀ ys zs : List Lexeme, rest = ys ++ zs →
        place ((p.advance x.text).advance (ys.flatMap Lexeme.text)) := by
      rintro ys zs rfl
      rw [← Position.advance_append, ← List.flatMap_cons]
      exact hplaces (x :: ys) zs rfl
    rw [ofLexemes]
    cases hreact : react x.kind rest.isEmpty p begun opened with
    | skip => exact ih hrest hopened
    | keep kind opened' =>
      dsimp only
      have hopened' : ∀ bracket ∈ opened', place bracket.2 := fun bracket hb =>
        (opened_of_react_keep hreact bracket hb).elim (hopened bracket) fun h => h.1 ▸ hp
      have hmore : OutcomePlaced place
          (ofLexemes (p.advance x.text) true opened' (taken + x.text.length)
            (consumed + byteLength x.text) rest) :=
        ih hrest hopened'
      cases hread : ofLexemes (p.advance x.text) true opened' (taken + x.text.length)
          (consumed + byteLength x.text) rest with
      | error e =>
        rw [hread] at hmore
        exact hmore
      | ok s =>
        rw [hread] at hmore
        refine ⟨fun token ht => ?_, hmore.2⟩
        rcases List.mem_cons.mp ht with rfl | ht
        · exact hp
        · exact hmore.1 token ht
    | stop => exact ⟨fun _ ht => absurd ht List.not_mem_nil, hp⟩
    | fail fault => exact hp

/-- **A statement, and the fault that there is none, stands in the text.** -/
theorem first_placed {place : Position → Prop} {text : List Char} {origin : Position}
    (h : ∀ p, Position.StandsIn p text origin → place p) :
    OutcomePlaced place (first text origin) := by
  rw [first_eq]
  refine ofLexemes_placed (fun ys zs hstream => h _ ?_) fun _ hb => nomatch hb
  refine ⟨ys.flatMap Lexeme.text, zs.flatMap Lexeme.text, ?_, rfl⟩
  rw [← List.flatMap_append, ← hstream, Lexeme.flatten_stream]

end Statement

/-! ## Scripts -/

/-- **A script and its fault stand in their text.** -/
theorem Script.read_placed {place : Position → Prop} {text : List Char} {origin : Position}
    (h : ∀ p, Position.StandsIn p text origin → place p) :
    (∀ entry ∈ (read text origin).entries, entry.expr.Placed place) ∧
      ∀ error ∈ (read text origin).fault, place error.position := by
  induction text, origin using read.induct with
  | case1 text origin e hfirst =>
    have hplaced := Statement.first_placed h
    rw [hfirst] at hplaced
    rw [read_of_error hfirst]
    refine ⟨fun _ he => absurd he List.not_mem_nil, ?_⟩
    rintro _ ⟨⟩
    exact hplaced
  | case2 text origin s hfirst hempty =>
    rw [read_of_first hfirst, begin, if_pos hempty]
    exact ⟨fun _ he => absurd he List.not_mem_nil, fun _ he => absurd he (Option.not_mem_none _)⟩
  | case3 text origin s hfirst hne e hexpr =>
    have hplaced := Statement.first_placed h
    rw [hfirst] at hplaced
    rw [read_of_first hfirst, begin, if_neg hne, hexpr]
    refine ⟨fun _ he => absurd he List.not_mem_nil, ?_⟩
    rintro _ ⟨⟩
    cases hread : Expr.ofTokens s.tokens s.stop with
    | ok expr => rw [Statement.expr, hread] at hexpr; cases hexpr
    | error error =>
      rw [Statement.expr, hread] at hexpr
      cases hexpr
      exact (Expr.ofTokens_placed hplaced.1 hplaced.2).2 error hread
  | case4 text origin s hfirst hne expr hexpr ih =>
    have hplaced := Statement.first_placed h
    rw [hfirst] at hplaced
    rw [read_of_first hfirst, begin, if_neg hne, hexpr]
    obtain ⟨hentries, hfault⟩ := ih fun p hp => h p (hp.of_drop s.taken)
    refine ⟨fun entry hentry => ?_, hfault⟩
    rcases List.mem_cons.mp hentry with rfl | hentry
    · cases hread : Expr.ofTokens s.tokens s.stop with
      | ok expr' =>
        rw [Statement.expr, hread] at hexpr
        cases hexpr
        exact (Expr.ofTokens_placed hplaced.1 hplaced.2).1 _ hread
      | error error => rw [Statement.expr, hread] at hexpr; cases hexpr
    · exact hentries entry hentry

end Abacus
