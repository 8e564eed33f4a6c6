import Abacus.Proofs.Syntax.Inversion

/-!
# The grammar under watch

A tree or a refusal does not tell all about the reading that led to it: which tokens were left when
something was found missing, from where a rule looked ahead, and whether the rounds of a loop took
tokens. The grammar under watch reads as the grammar does and asks a watch at each such site. There is
one such grammar for all watches: what a watch does is left open. A watch that lets the reading go on
where all is as it should be tells, by what becomes of the reading, whether all was so at every site:
whatever else it does there shows in the outcome.

`Watched.ofTokens` reads a statement under watch. That nothing comes of it is part of the laws about
rounds and about provenance.
-/

namespace Abacus

namespace Grammar

/-! ## What there is to be found -/

/-- Of these tokens at least one was taken, and the rest is left. -/
def Behind (ts rest : List Token) : Prop := rest <:+ ts ∧ rest.length < ts.length

namespace Behind

variable {t : Token} {ts ts' rest : List Token}

/-- A token that is taken leaves what stands behind it. -/
theorem tail : Behind (t :: ts) ts := ⟨List.suffix_cons t ts, Nat.lt_succ_self _⟩

/-- An end of what stands behind stands behind. -/
theorem of_suffix (h : Behind ts ts') (hrest : rest <:+ ts') : Behind ts rest :=
  ⟨hrest.trans h.1, Nat.lt_of_le_of_lt hrest.length_le h.2⟩

/-- What stands behind an end of the tokens stands behind the tokens. -/
theorem after_suffix (h : ts' <:+ ts) (hrest : Behind ts' rest) : Behind ts rest :=
  ⟨hrest.1.trans h, Nat.lt_of_lt_of_le hrest.2 h.length_le⟩

/-- What stands behind what stands behind. -/
theorem trans (h : Behind ts ts') (hrest : Behind ts' rest) : Behind ts rest :=
  h.of_suffix hrest.1

end Behind

/-- A moment of a reading at which there is something to be found about the tokens that are left. -/
inductive Site where
  /-- The statement is going to be refused because it ends too early. -/
  | missing
  /-- A rule is going to look past line feeds. -/
  | lookahead
  /-- A loop is going into another round. These tokens were left when the round before began. -/
  | again (before : List Token)

namespace Site

/-- Where something is found missing, nothing but line feeds is left. -/
def Spent : Site → List Token → Prop
  | .missing, rest => Newlines rest
  | _, _ => True

/-- A look ahead is one at the last of the statement's tokens, and between two rounds of a loop at
least one token is taken. -/
def Within (tokens : List Token) : Site → List Token → Prop
  | .lookahead, rest => rest <:+ tokens
  | .again before, rest => Behind before rest
  | .missing, _ => True

instance : ∀ site : Site, DecidablePred site.Spent
  | .missing, rest => inferInstanceAs (Decidable (∀ t ∈ rest, t.kind = .newline))
  | .lookahead, _ | .again _, _ => inferInstanceAs (Decidable True)

instance (tokens : List Token) : ∀ site : Site, DecidablePred (site.Within tokens)
  | .lookahead, rest => inferInstanceAs (Decidable (rest <:+ tokens))
  | .again before, rest => inferInstanceAs (Decidable (_ ∧ rest.length < before.length))
  | .missing, _ => inferInstanceAs (Decidable True)

/-- All is as it should be. -/
def Fine (tokens : List Token) (site : Site) (rest : List Token) : Prop :=
  site.Spent rest ∧ site.Within tokens rest

end Site

/-- What is done at the sites of a reading. -/
abbrev Watch := Site → Rule Unit

namespace Watch

/-- Where it finds things so, the watch lets the reading go on. -/
def SilentWhere (watch : Watch) (fine : Site → List Token → Prop) : Prop :=
  ∀ (site : Site) (stop : Position) (rest : List Token), fine site rest →
    watch site stop rest = .read () rest

/-- A watch that is silent wherever all is fine is silent wherever more is asked for. -/
theorem SilentWhere.mono {watch : Watch} {fine fine' : Site → List Token → Prop}
    (h : watch.SilentWhere fine) (himp : ∀ site rest, fine' site rest → fine site rest) :
    watch.SilentWhere fine' :=
  fun site stop rest hfine => h site stop rest (himp site rest hfine)

/-- Ends the reading where things are not so. -/
def alarm (fine : Site → List Token → Prop) [∀ site, DecidablePred (fine site)] : Watch :=
  fun site _ rest => if fine site rest then .read () rest else .exhausted

/-- An alarm is silent where all is fine: it is told to be. -/
theorem silentWhere_alarm (fine : Site → List Token → Prop) [∀ site, DecidablePred (fine site)] :
    (alarm fine).SilentWhere fine :=
  fun _ _ _ hfine => if_pos hfine

end Watch

/-! ## Single tokens -/

/-- The tokens that are left. -/
def remaining : Rule (List Token) := fun _ tokens => .read tokens tokens

namespace Watched

variable (watch : Watch)

/-- `Grammar.missing` with a watch over the site; each rule below is the rule of its name with its
sites watched. -/
def missing {α : Type} (expected : Expected) : Rule α := do
  watch .missing
  Grammar.missing expected

def peekPastNewlines : Rule (Option Token) := do
  watch .lookahead
  Grammar.peekPastNewlines

def expect (kind : TokenKind) (expected : Expected) : Rule Unit := do
  if (← accept kind).isSome then return
  match ← peek with
  | some token => refuse (.ofToken token expected)
  | none => missing watch expected

/-! ## Lists of parts -/

/-- The items of a list, with a watch over each round. -/
def items (part : Rule Expr) (close : TokenKind) (expected : Expected) : Nat → Rule (List Expr)
  | 0 => exhausted
  | budget + 1 => do
    let before ← remaining
    if (← accept close).isSome then return []
    let item ← part
    if (← accept .comma).isSome then
      watch (.again before)
      return item :: (← items part close expected budget)
    expect watch close expected
    return [item]

/-- The calls after an operand, with a watch over each round. -/
def callSuffix (part : Rule Expr) : Nat → Expr → Rule Expr
  | 0, _ => exhausted
  | budget + 1, callee => do
    let before ← remaining
    if (← accept (.opening .round)).isSome then
      let arguments ← items watch part (.closing .round) .closingRound (budget + 1)
      watch (.again before)
      callSuffix part budget (.call callee arguments callee.position)
    else return callee

/-- The statements of a block, with a watch over each round. -/
def blockBody (part : Rule Expr) : Nat → Rule (List Expr)
  | 0 => exhausted
  | budget + 1 => do
    let before ← remaining
    if (← accept (.closing .curly)).isSome then return []
    let statement ← part
    match ← peek with
    | some token =>
      if token.kind.isSeparator then
        skipSeparators
        watch (.again before)
        return statement :: (← blockBody part budget)
      else if token.kind = .closing .curly then
        watch (.again before)
        return statement :: (← blockBody part budget)
      else refuse (.ofToken token .separatorOrClosingCurly)
    | none => missing watch .closingCurly

def block (part : Rule Expr) (budget : Nat) (position : Position) : Rule Expr := do
  skipSeparators
  let body ← blockBody watch part budget
  if body.isEmpty then refuse (.invalid .emptyBlock position)
  return .block body position

def condition (part : Rule Expr) : Rule Expr := do
  expect watch (.opening .round) .openingRound
  let condition ← part
  expect watch (.closing .round) .closingRound
  skipNewlines
  return condition

/-- The further branches of a conditional, with a watch over each round. -/
def furtherBranches (part : Rule Expr) : Nat → Rule (List (Expr × Expr) × Expr)
  | 0 => exhausted
  | budget + 1 => do
    let before ← remaining
    match ← peekPastNewlines watch with
    | some token =>
      if token.kind = .keyword .elifWord then
        skipNewlines
        let _ ← next
        let condition ← condition watch part
        let body ← part
        watch (.again before)
        let more ← furtherBranches part budget
        return ((condition, body) :: more.1, more.2)
      else if token.kind = .keyword .elseWord then
        skipNewlines
        let _ ← next
        skipNewlines
        return ([], ← part)
      else refuse (.ofToken token .elifOrElse)
    | none => missing watch .elseWord

def conditional (part : Rule Expr) (budget : Nat) (position : Position) : Rule Expr := do
  let condition ← condition watch part
  let body ← part
  let more ← furtherBranches watch part budget
  return .conditional ((condition, body) :: more.1) more.2 position

/-- The parameters of a function, with a watch over each round. -/
def parameters : Nat → List String → Rule (List String)
  | 0, _ => exhausted
  | budget + 1, seen => do
    let before ← remaining
    match ← next with
    | none => missing watch .parameterName
    | some token =>
      match token.kind with
      | .identifier name =>
        if seen.contains name then refuse (.invalid (.duplicateParameter name) token.position)
        if (← accept .comma).isSome then
          watch (.again before)
          return name :: (← parameters budget (name :: seen))
        expect watch (.operator .or) .commaOrBar
        return [name]
      | _ => refuse (.ofToken token .parameterName)

def function (part : Rule Expr) (budget : Nat) (position : Position) : Rule Expr := do
  let names ←
    if (← accept (.operator .or)).isSome then Rule.pure [] else parameters watch budget []
  skipNewlines
  return .function names (← part) position

/-! ## From primaries to assignments -/

def primary (part : Rule Expr) (budget : Nat) : Rule Expr := do
  match ← next with
  | none => missing watch .expression
  | some token =>
    match token.kind with
    | .number value => return .literal (.number value) token.position
    | .keyword .trueWord => return .literal (.boolean true) token.position
    | .keyword .falseWord => return .literal (.boolean false) token.position
    | .quoted body => return .literal (.quoted body) token.position
    | .identifier name => callSuffix watch part budget (.identifier name token.position)
    | .opening .round =>
      let inner ← part
      expect watch (.closing .round) .closingRound
      callSuffix watch part budget inner
    | .opening .square =>
      let items ← items watch part (.closing .square) .commaOrClosingSquare budget
      return .vector items token.position
    | .opening .curly => block watch part budget token.position
    | .keyword .ifWord => conditional watch part budget token.position
    | .operator .or => function watch part budget token.position
    | _ => refuse (.ofToken token .expression)

/-- The links of a pipeline, with a watch over each round. -/
def links (primary : Rule Expr) : Nat → Expr → Rule Expr
  | 0, _ => exhausted
  | budget + 1, left => do
    let before ← remaining
    match ← accept .arrow with
    | some arrow =>
      skipNewlines
      let right ← primary
      watch (.again before)
      links primary budget (link left right arrow.position)
    | none => return left

def chain (primary : Rule Expr) (budget : Nat) : Rule Expr := do
  links watch primary budget (← unary primary budget)

/-- The operations of one level, with a watch over each round. -/
def operations (operand : Rule Expr) (level : Nat) : Nat → Expr → Rule Expr
  | 0, _ => exhausted
  | budget + 1, left => do
    let before ← remaining
    match ← peek with
    | some token =>
      match binaryOp? level token.kind with
      | some op =>
        let _ ← next
        skipNewlines
        let right ← operand
        watch (.again before)
        operations operand level budget (.binary op left right token.position)
      | none => return left
    | none => return left

def binary (chain : Rule Expr) (budget : Nat) : (levels : Nat) → Rule Expr
  | 0 => chain
  | levels + 1 => do
    operations watch (binary chain budget levels) (BinaryOp.levels - (levels + 1)) budget
      (← binary chain budget levels)

/-- The rule of an expression under a watch, put together as `Grammar.expression` is. -/
def expression : Nat → Rule Expr
  | 0 => exhausted
  | budget + 1 =>
    assignment (binary watch (chain watch (primary watch (expression budget) (budget + 1))
      (budget + 1)) (budget + 1) BinaryOp.levels) (budget + 1)

/-- The expression of a statement, read under watch, or that there is none. It is neither if the
budget is used up. -/
def ofTokens (tokens : List Token) (stop : Position) : Option (Except ParseError Expr) :=
  match expression watch (tokens.length + 1) stop tokens with
  | .read e [] => some (.ok e)
  | .read _ (token :: _) => some (.error (.ofToken token .endOfStatement))
  | .refused error => some (.error error)
  | .exhausted => none

end Watched

end Grammar

end Abacus
