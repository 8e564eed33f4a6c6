import Abacus.Number.Functions
import Abacus.Value.Arity
import Abacus.Value.TypeTag

/-!
# Built-in functions

The names and the arities of the functions that every program can use. What they do is said where
they run.
-/

namespace Abacus

/-- Built-in functions of one number. -/
inductive NumericFunction where
  | sqrt | exp | sin | cos | tan | asin | acos | atan
  | abs | floor | ceil | round
  | re | im | conj | arg
deriving DecidableEq

namespace NumericFunction

def name : NumericFunction → String
  | .sqrt => "sqrt"
  | .exp => "exp"
  | .sin => "sin"
  | .cos => "cos"
  | .tan => "tan"
  | .asin => "asin"
  | .acos => "acos"
  | .atan => "atan"
  | .abs => "abs"
  | .floor => "floor"
  | .ceil => "ceil"
  | .round => "round"
  | .re => "re"
  | .im => "im"
  | .conj => "conj"
  | .arg => "arg"

def apply : NumericFunction → Number → Except Number.Failure Number
  | .sqrt, n => .ok n.sqrt
  | .exp, n => .ok n.exp
  | .sin, n => .ok n.sin
  | .cos, n => .ok n.cos
  | .tan, n => .ok n.tan
  | .asin, n => .ok n.asin
  | .acos, n => .ok n.acos
  | .atan, n => .ok n.atan
  | .abs, n => .ok n.abs
  | .floor, n => n.floor
  | .ceil, n => n.ceil
  | .round, n => n.round
  | .re, n => .ok n.re
  | .im, n => .ok n.im
  | .conj, n => .ok n.conj
  | .arg, n => .ok n.arg

end NumericFunction

inductive Native where
  | numeric (f : NumericFunction)
  | log
  | min | max
  | type | is
  | len | get | set | zeros
  | seq | iterate | range | iter
  | map | filter | reduce
  | take | skip | zip
  | collect | next | peek | hasNext
  | tryOr | tryCatch
  | assert | assertEq
  | print | printAscii
  | exit
deriving DecidableEq

namespace Native

def all : List Native :=
  [.numeric .sqrt, .numeric .exp, .log, .numeric .sin, .numeric .cos, .numeric .tan,
    .numeric .asin, .numeric .acos, .numeric .atan, .numeric .abs, .numeric .floor, .numeric .ceil,
    .numeric .round, .numeric .re, .numeric .im, .numeric .conj, .numeric .arg, .min, .max, .type,
    .is, .len, .get, .set, .zeros, .seq, .iterate, .range, .iter, .map, .filter, .reduce, .take,
    .skip, .zip, .collect, .next, .peek, .hasNext, .tryOr, .tryCatch, .assert, .assertEq, .print,
    .printAscii, .exit]

theorem mem_all (native : Native) : native ∈ all := by
  cases native with
  | numeric f => cases f <;> decide
  | _ => decide

def name : Native → String
  | .numeric f => f.name
  | .log => "log"
  | .min => "min"
  | .max => "max"
  | .type => "type"
  | .is => "is"
  | .len => "len"
  | .get => "get"
  | .set => "set"
  | .zeros => "zeros"
  | .seq => "seq"
  | .iterate => "iterate"
  | .range => "range"
  | .iter => "iter"
  | .map => "map"
  | .filter => "filter"
  | .reduce => "reduce"
  | .take => "take"
  | .skip => "skip"
  | .zip => "zip"
  | .collect => "collect"
  | .next => "next"
  | .peek => "peek"
  | .hasNext => "has_next"
  | .tryOr => "try_or"
  | .tryCatch => "try_catch"
  | .assert => "assert"
  | .assertEq => "assert_eq"
  | .print => "print"
  | .printAscii => "print_ascii"
  | .exit => "exit"

def arity : Native → Arity
  | .log | .seq => .between 1 2
  | .range => .between 2 3
  | .min | .max | .print => .atLeast 1
  | .is | .get | .iterate | .map | .filter | .take | .skip | .zip | .tryOr | .tryCatch
  | .assertEq => .exactly 2
  | .set | .reduce => .exactly 3
  | _ => .exactly 1

end Native

end Abacus
