import Abacus.Run.Evaluate

/-!
# Running sources

A source runs statement by statement in a scope, and its value is that of the last one. A fault in
reading it is reported when the statements before it have run.
-/

namespace Abacus

/-- Why a source has no value. -/
inductive SourceError where
  | read (error : ReadError)
  | run (interruption : Interruption)

namespace SourceError

/-- The kind of an error; an exit is none. -/
def kind? : SourceError → Option ErrorKind
  | .read e => some e.kind
  | .run (.fault e) => some e.fault.kind
  | .run _ => none

def position? : SourceError → Option Position
  | .read e => some e.position
  | .run (.fault e) => some e.position
  | .run _ => none

/-- The code with which a program asked to end. -/
def exitCode? : SourceError → Option Int
  | .run (.exit code) => some code
  | _ => none

def message : SourceError → String
  | .read e => e.message
  | .run (.fault e) => e.fault.message
  | .run (.exit code) => "exit(" ++ toString code ++ ")"
  | .run .outOfFuel => "out of fuel"
  | .run .misapplied => "misapplied built-in function"

end SourceError

namespace Script

/-- Evaluates statements in order; the value is that of the last one. -/
def evaluate (call : Call) (scope : ScopeId) : List ScriptEntry → Option Value → Action (Option Value)
  | [], last => pure last
  | entry :: rest, _ => do
    let value ← Action.evaluate call entry.expr scope
    evaluate call scope rest (some value)

/-- Runs a script in a scope with a budget. -/
def run (fuel : Nat) (script : Script) (scope : ScopeId) : EStateM SourceError Store (Option Value) :=
  fun s =>
    match evaluate (Action.apply fuel) scope script.entries none s with
    | .error interruption s => .error (.run interruption) s
    | .ok value s =>
      match script.fault with
      | some e => .error (.read e) s
      | none => .ok value s

end Script

/-- Runs a source in a scope. -/
def runSource (source : String) (scope : ScopeId) : EStateM SourceError Store (Option Value) :=
  (Script.read source.toList .start).run Action.plenty scope

end Abacus
