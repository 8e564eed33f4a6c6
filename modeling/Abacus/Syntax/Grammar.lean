import Abacus.Syntax.ParseError

/-!
# The grammar of a statement

A rule reads an expression, or a part of one, from the front of the statement's tokens. From the
loosest to the tightest: assignments group to the right; six levels of binary operators group to the
left; chains `a -> f(b)` stand for calls `f(a, b)`; prefix operators bind more strongly than powers;
and a primary may be followed by argument lists.

The grammar is recursive through `expression` only. Each rule is given the rule of its parts and a
budget for the number of its rounds, and every round consumes a token; so a budget of one more than
the number of tokens is never used up.
-/

namespace Abacus

namespace Grammar

/-- How the reading of a rule ends. -/
inductive Outcome (α : Type) where
  | read (value : α) (rest : List Token)
  | refused (error : ParseError)
  /-- The budget is used up. -/
  | exhausted

/-- A rule knows where the statement ends and reads from its remaining tokens. -/
def Rule (α : Type) := Position → List Token → Outcome α

namespace Rule

def pure {α : Type} (value : α) : Rule α := fun _ tokens => .read value tokens

def bind {α β : Type} (rule : Rule α) (next : α → Rule β) : Rule β := fun stop tokens =>
  match rule stop tokens with
  | .read value rest => next value stop rest
  | .refused error => .refused error
  | .exhausted => .exhausted

instance : Monad Rule where
  pure := Rule.pure
  bind := Rule.bind

end Rule

/-! ## Single tokens -/

def exhausted {α : Type} : Rule α := fun _ _ => .exhausted

def refuse {α : Type} (error : ParseError) : Rule α := fun _ _ => .refused error

/-- Refuses because the statement ends too early. -/
def missing {α : Type} (expected : Expected) : Rule α := fun stop _ =>
  .refused (.missing expected stop)

/-- The next token, left in place. -/
def peek : Rule (Option Token) := fun _ tokens => .read tokens.head? tokens

/-- The next token that is no line feed, left in place. -/
def peekPastNewlines : Rule (Option Token) := fun _ tokens =>
  .read (tokens.find? (·.kind != .newline)) tokens

/-- Reads the next token. -/
def next : Rule (Option Token) := fun _ tokens => .read tokens.head? tokens.tail

/-- Reads the next token if it is of this kind. -/
def accept (kind : TokenKind) : Rule (Option Token) := fun _ tokens =>
  match tokens with
  | token :: rest => if token.kind = kind then .read (some token) rest else .read none tokens
  | [] => .read none []

/-- Reads a token that has to be of this kind. -/
def expect (kind : TokenKind) (expected : Expected) : Rule Unit := do
  if (← accept kind).isSome then return
  match ← peek with
  | some token => refuse (.ofToken token expected)
  | none => missing expected

/-- Line feeds reach the grammar inside blocks only, where an open operator or keyword may go on in
the next line. -/
def skipNewlines : Rule Unit := fun _ tokens => .read () (tokens.dropWhile (·.kind == .newline))

def skipSeparators : Rule Unit := fun _ tokens => .read () (tokens.dropWhile (·.kind.isSeparator))

/-! ## Lists of parts

These rules take the rule of their parts and a budget. -/

/-- Expressions between commas up to a closing bracket, which a comma may precede. -/
def items (part : Rule Expr) (close : TokenKind) (expected : Expected) : Nat → Rule (List Expr)
  | 0 => exhausted
  | budget + 1 => do
    if (← accept close).isSome then return []
    let item ← part
    if (← accept .comma).isSome then
      return item :: (← items part close expected budget)
    expect close expected
    return [item]

/-- Argument lists after a callee; there may be several. -/
def callSuffix (part : Rule Expr) : Nat → Expr → Rule Expr
  | 0, _ => exhausted
  | budget + 1, callee => do
    if (← accept (.opening .round)).isSome then
      let arguments ← items part (.closing .round) .closingRound (budget + 1)
      callSuffix part budget (.call callee arguments callee.position)
    else return callee

/-- The statements of a block with the bracket that closes it. -/
def blockBody (part : Rule Expr) : Nat → Rule (List Expr)
  | 0 => exhausted
  | budget + 1 => do
    if (← accept (.closing .curly)).isSome then return []
    let statement ← part
    match ← peek with
    | some token =>
      if token.kind.isSeparator then
        skipSeparators
        return statement :: (← blockBody part budget)
      else if token.kind = .closing .curly then
        return statement :: (← blockBody part budget)
      else refuse (.ofToken token .separatorOrClosingCurly)
    | none => missing .closingCurly

def block (part : Rule Expr) (budget : Nat) (position : Position) : Rule Expr := do
  skipSeparators
  let body ← blockBody part budget
  if body.isEmpty then refuse (.invalid .emptyBlock position)
  return .block body position

/-- A condition in its brackets. -/
def condition (part : Rule Expr) : Rule Expr := do
  expect (.opening .round) .openingRound
  let condition ← part
  expect (.closing .round) .closingRound
  skipNewlines
  return condition

/-- The branches that follow the first, and what is evaluated if no condition holds. -/
def furtherBranches (part : Rule Expr) : Nat → Rule (List (Expr × Expr) × Expr)
  | 0 => exhausted
  | budget + 1 => do
    match ← peekPastNewlines with
    | some token =>
      if token.kind = .keyword .elifWord then
        skipNewlines
        let _ ← next
        let condition ← condition part
        let body ← part
        let more ← furtherBranches part budget
        return ((condition, body) :: more.1, more.2)
      else if token.kind = .keyword .elseWord then
        skipNewlines
        let _ ← next
        skipNewlines
        return ([], ← part)
      else refuse (.ofToken token .elifOrElse)
    | none => missing .elseWord

def conditional (part : Rule Expr) (budget : Nat) (position : Position) : Rule Expr := do
  let condition ← condition part
  let body ← part
  let more ← furtherBranches part budget
  return .conditional ((condition, body) :: more.1) more.2 position

/-- Parameter names between commas up to the closing bar; `seen` are those before. -/
def parameters : Nat → List String → Rule (List String)
  | 0, _ => exhausted
  | budget + 1, seen => do
    match ← next with
    | none => missing .parameterName
    | some token =>
      match token.kind with
      | .identifier name =>
        if seen.contains name then refuse (.invalid (.duplicateParameter name) token.position)
        if (← accept .comma).isSome then
          return name :: (← parameters budget (name :: seen))
        expect (.operator .or) .commaOrBar
        return [name]
      | _ => refuse (.ofToken token .parameterName)

def function (part : Rule Expr) (budget : Nat) (position : Position) : Rule Expr := do
  let names ←
    if (← accept (.operator .or)).isSome then Rule.pure [] else parameters budget []
  skipNewlines
  return .function names (← part) position

/-! ## From primaries to assignments -/

def primary (part : Rule Expr) (budget : Nat) : Rule Expr := do
  match ← next with
  | none => missing .expression
  | some token =>
    match token.kind with
    | .number value => return .literal (.number value) token.position
    | .keyword .trueWord => return .literal (.boolean true) token.position
    | .keyword .falseWord => return .literal (.boolean false) token.position
    | .quoted body => return .literal (.quoted body) token.position
    | .identifier name => callSuffix part budget (.identifier name token.position)
    | .opening .round =>
      let inner ← part
      expect (.closing .round) .closingRound
      callSuffix part budget inner
    | .opening .square =>
      let items ← items part (.closing .square) .commaOrClosingSquare budget
      return .vector items token.position
    | .opening .curly => block part budget token.position
    | .keyword .ifWord => conditional part budget token.position
    | .operator .or => function part budget token.position
    | _ => refuse (.ofToken token .expression)

/-- The prefix operator that a token stands for. -/
def prefixOp? : TokenKind → Option UnaryOp
  | .operator .sub => some .neg
  | .bang => some .not
  | _ => none

def unary (primary : Rule Expr) : Nat → Rule Expr
  | 0 => exhausted
  | budget + 1 => do
    match ← peek with
    | some token =>
      match prefixOp? token.kind with
      | some op =>
        let _ ← next
        return .unary op (← unary primary budget) token.position
      | none => primary
    | none => primary

/-- `a -> f(b)` is the call `f(a, b)`, and `a -> f` the call `f(a)`. -/
def link (left right : Expr) (arrow : Position) : Expr :=
  match right with
  | .call callee arguments position => .call callee (left :: arguments) position
  | callee => .call callee [left] arrow

def links (primary : Rule Expr) : Nat → Expr → Rule Expr
  | 0, _ => exhausted
  | budget + 1, left => do
    match ← accept .arrow with
    | some arrow =>
      skipNewlines
      links primary budget (link left (← primary) arrow.position)
    | none => return left

def chain (primary : Rule Expr) (budget : Nat) : Rule Expr := do
  links primary budget (← unary primary budget)

/-- The operator of a binding level that a token stands for. -/
def binaryOp? (level : Nat) : TokenKind → Option BinaryOp
  | .operator op => if op.level = level then some op else none
  | _ => none

/-- Operators of one level with their right operands. -/
def operations (operand : Rule Expr) (level : Nat) : Nat → Expr → Rule Expr
  | 0, _ => exhausted
  | budget + 1, left => do
    match ← peek with
    | some token =>
      match binaryOp? level token.kind with
      | some op =>
        let _ ← next
        skipNewlines
        operations operand level budget (.binary op left (← operand) token.position)
      | none => return left
    | none => return left

/-- The tightest `levels` levels of binary operators. -/
def binary (chain : Rule Expr) (budget : Nat) : (levels : Nat) → Rule Expr
  | 0 => chain
  | levels + 1 => do
    operations (binary chain budget levels) (BinaryOp.levels - (levels + 1)) budget
      (← binary chain budget levels)

def assignments (operand : Rule Expr) (isLocal : Bool) : Nat → Rule Expr
  | 0 => exhausted
  | budget + 1 => do
    let target ← operand
    if (← accept .assign).isSome then
      skipNewlines
      match target with
      | .identifier name position =>
        return .assign name (← assignments operand isLocal budget) isLocal position
      | _ => refuse (.invalid (.assignmentTo target) target.position)
    else return target

/-- Whether an expression is an assignment. -/
def isAssignment : Expr → Bool
  | .assign .. => true
  | _ => false

def assignment (operand : Rule Expr) (budget : Nat) : Rule Expr := do
  match ← accept (.keyword .localWord) with
  | some word =>
    let e ← assignments operand true budget
    if isAssignment e then return e
    refuse (.invalid .localWithoutAssignment word.position)
  | none => assignments operand false budget

/-- The rule of an expression. -/
def expression : Nat → Rule Expr
  | 0 => exhausted
  | budget + 1 =>
    assignment (binary (chain (primary (expression budget) (budget + 1)) (budget + 1)) (budget + 1)
      BinaryOp.levels) (budget + 1)

end Grammar

/-- The expression of a statement that ends at `stop`. -/
def Expr.ofTokens (tokens : List Token) (stop : Position) : Except ParseError Expr :=
  match Grammar.expression (tokens.length + 1) stop tokens with
  | .read e [] => .ok e
  | .read _ (token :: _) => .error (.ofToken token .endOfStatement)
  | .refused error => .error error
  | .exhausted => .error (.missing .endOfStatement stop)

end Abacus
