import Abacus.Syntax.Token

/-!
# Expressions

The tree of a statement. Every node keeps the position at which faults of its evaluation are
reported: that of its first token as a rule, that of the operator for a binary node, and that of the
arrow for a call written as a chain.

The printed form is fully parenthesized, so that it shows the shape of the tree.
-/

namespace Abacus

/-- A value that is written out. -/
inductive Literal where
  | number (value : Number)
  | boolean (value : Bool)
  /-- A quoted text, which stands for the vector of its character codes. -/
  | quoted (body : String)
deriving DecidableEq

inductive Expr where
  | literal (value : Literal) (position : Position)
  | identifier (name : String) (position : Position)
  | vector (items : List Expr) (position : Position)
  | block (body : List Expr) (position : Position)
  /-- Conditions with their bodies, in the order in which they are tried. -/
  | conditional (branches : List (Expr × Expr)) (otherwise : Expr) (position : Position)
  | function (parameters : List String) (body : Expr) (position : Position)
  | call (callee : Expr) (arguments : List Expr) (position : Position)
  | assign (name : String) (value : Expr) (isLocal : Bool) (position : Position)
  | binary (op : BinaryOp) (left right : Expr) (position : Position)
  | unary (op : UnaryOp) (operand : Expr) (position : Position)

def Literal.text : Literal → String
  | .number value => value.text
  | .boolean value => toString value
  | .quoted body => "\"" ++ body ++ "\""

namespace Expr

instance : Inhabited Expr := ⟨.literal (.boolean false) .start⟩

/-- Where faults of the node are reported. -/
def position : Expr → Position
  | .literal _ p | .identifier _ p | .vector _ p | .block _ p | .conditional _ _ p
  | .function _ _ p | .call _ _ p | .assign _ _ _ p | .binary _ _ _ p | .unary _ _ p => p

mutual

/-- The printed form. -/
def text : Expr → String
  | .literal value _ => value.text
  | .identifier name _ => name
  | .vector items _ => "[" ++ textList ", " items ++ "]"
  | .block body _ => "\x7b" ++ textList "; " body ++ "\x7d"
  | .conditional branches otherwise _ =>
    textBranches "if" branches ++ " else " ++ otherwise.text
  | .function parameters body _ => "|" ++ ", ".intercalate parameters ++ "| " ++ body.text
  | .call callee arguments _ => callee.text ++ "(" ++ textList ", " arguments ++ ")"
  | .assign name value isLocal _ =>
    (if isLocal then "local " else "") ++ "(" ++ name ++ " = " ++ value.text ++ ")"
  | .binary op left right _ => "(" ++ left.text ++ " " ++ op.symbol ++ " " ++ right.text ++ ")"
  | .unary op operand _ => "(" ++ op.symbol ++ operand.text ++ ")"

/-- Printed forms with a separator between them. -/
def textList (separator : String) : List Expr → String
  | [] => ""
  | [item] => item.text
  | item :: items => item.text ++ separator ++ textList separator items

/-- Branches, the first after its own keyword and the others after `elif`. -/
def textBranches (keyword : String) : List (Expr × Expr) → String
  | [] => ""
  | (condition, body) :: branches =>
    keyword ++ " " ++ condition.text ++ " " ++ body.text ++ textBranches " elif" branches

end

end Expr

end Abacus
