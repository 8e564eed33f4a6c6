/-!
# Operators

The fourteen binary operators with their signs and their binding strength, and the two prefix
operators. All binary operators group to the left, powers too.
-/

namespace Abacus

inductive BinaryOp where
  | add | sub | mul | div | rem | pow
  | eq | notEq | less | lessEq | greater | greaterEq
  | and | or
deriving DecidableEq

def BinaryOp.symbol : BinaryOp → String
  | .add => "+"
  | .sub => "-"
  | .mul => "*"
  | .div => "/"
  | .rem => "%"
  | .pow => "^"
  | .eq => "=="
  | .notEq => "!="
  | .less => "<"
  | .lessEq => "<="
  | .greater => ">"
  | .greaterEq => ">="
  | .and => "&"
  | .or => "|"

def BinaryOp.all : List BinaryOp :=
  [.add, .sub, .mul, .div, .rem, .pow, .eq, .notEq, .less, .lessEq, .greater, .greaterEq, .and, .or]

theorem BinaryOp.mem_all (op : BinaryOp) : op ∈ all := by
  cases op <;> decide

/-- The operator of a sign. -/
def BinaryOp.ofSymbol? (symbol : String) : Option BinaryOp := all.find? (·.symbol = symbol)

/-- How strongly an operator binds, from the loosest level. -/
def BinaryOp.level : BinaryOp → Nat
  | .and | .or => 0
  | .eq | .notEq => 1
  | .less | .lessEq | .greater | .greaterEq => 2
  | .add | .sub => 3
  | .mul | .div | .rem => 4
  | .pow => 5

/-- The number of binding levels. -/
def BinaryOp.levels : Nat := 6

theorem BinaryOp.level_lt (op : BinaryOp) : op.level < levels := by
  cases op <;> decide

inductive UnaryOp where
  | neg
  | not
deriving DecidableEq

def UnaryOp.symbol : UnaryOp → String
  | .neg => "-"
  | .not => "!"

end Abacus
