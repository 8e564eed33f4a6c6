/-!
# Arities

How many arguments a built-in function takes.
-/

namespace Abacus

inductive Arity where
  | exactly (count : Nat)
  | atLeast (count : Nat)
  | between (least most : Nat)
deriving DecidableEq

namespace Arity

def accepts : Arity → Nat → Bool
  | .exactly n, count => count == n
  | .atLeast n, count => n ≤ count
  | .between least most, count => least ≤ count && count ≤ most

def text : Arity → String
  | .exactly 1 => "exactly 1 argument"
  | .exactly n => "exactly " ++ toString n ++ " arguments"
  | .atLeast n => "at least " ++ toString n ++ " arguments"
  | .between least most =>
    "between " ++ toString least ++ " and " ++ toString most ++ " arguments"

end Arity

end Abacus
