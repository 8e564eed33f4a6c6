import Abacus.Store.Vectors

/-!
# Looking into values

Functions and sequences print as nothing but their type. Their inspected form tells more: the
parameters and the body of a function, and of a sequence the number of its transformers, the number
of elements consumed from its source and the place where it was built.
-/

namespace Abacus

namespace Inspect

/-- The lowest hexadecimal digits of a character code, without leading zeros. -/
def hexadecimal (n : Nat) : String := String.ofList (Nat.toDigits 16 n)

/-- A character between quotes: quotes, backslashes and control characters are escaped. -/
def escaped (c : Char) : String :=
  match c with
  | '"' => "\\\""
  | '\\' => "\\\\"
  | '\n' => "\\n"
  | '\r' => "\\r"
  | '\t' => "\\t"
  | '\x00' => "\\0"
  | c => if c.toNat < 0x20 || c.toNat == 0x7f then "\\u\x7b" ++ hexadecimal c.toNat ++ "\x7d" else c.toString

/-- A text in quotes. -/
def quoted (text : String) : String :=
  "\"" ++ String.join (text.toList.map escaped) ++ "\""

/-- A record by its name and the texts of its fields; it has more fields than are told. -/
def partialRecord (name : String) (fields : List (String × String)) : String :=
  name ++ " \x7b " ++ String.join (fields.map fun field => field.1 ++ ": " ++ field.2 ++ ", ") ++
    ".. \x7d"

def position (p : Position) : String :=
  "Position \x7b offset: " ++ toString p.offset ++ ", line: " ++ toString p.line ++ ", column: " ++
    toString p.column ++ " \x7d"

end Inspect

/-- The inspected form of a function or a sequence; other values have none. -/
def Store.inspect? (s : Store) : Value → Option String
  | .function closure =>
    some (Inspect.partialRecord "Closure"
      [("params", "[" ++ ", ".intercalate (closure.parameters.map Inspect.quoted) ++ "]"),
        ("body", Inspect.quoted closure.body.text)])
  | .sequence id =>
    let sequence := s.sequence id
    some (Inspect.partialRecord "Sequence"
      [("transformers", toString sequence.transformers.length),
        ("advanced", toString (s.source sequence.source).advanced),
        ("position", Inspect.position sequence.position)])
  | _ => none

end Abacus
