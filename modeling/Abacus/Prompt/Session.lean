import Abacus.Report

/-!
# The prompt

The prompt reads a line and further lines as long as its text is not complete, and runs the text in
the one scope of the session. It shows the value or the report of an error, and goes on until the
input ends, the program asks to end, or a line says `exit`.
-/

namespace Abacus

/-- What a program wrote and the code with which it ended. -/
structure Transcript where
  output : String
  errors : String
  code : Nat
deriving DecidableEq

/-- The part of an exit code that the system keeps. -/
def exitStatus (code : Int) : Nat := (code % 256).toNat

namespace Prompt

/-! ## Asking for more lines -/

/-- What is thought of a text before it runs. -/
inductive Verdict where
  /-- It runs as it is. -/
  | valid
  /-- More lines could complete it. -/
  | incomplete
deriving DecidableEq

/-- One round of the check of a text, of which the part before the origin has been checked: its
verdict, or what is left behind the next statement and where that stands. -/
def round (rest : List Char) (origin : Position) : Verdict ⊕ (List Char × Position) :=
  match Statement.first rest origin with
  | .error e => .inl (if e.fault = .incomplete then .incomplete else .valid)
  | .ok s =>
    if s.taken = 0 ∨ s.tokens = [] then .inl .valid
    else .inr (rest.drop s.taken, origin.advance (rest.take s.taken))

/-- Every round that goes on leaves less of the text. -/
theorem length_lt_of_round {rest : List Char} {origin : Position} {later : List Char × Position}
    (h : round rest origin = .inr later) : later.1.length < rest.length := by
  unfold round at h
  split at h
  · cases h
  · next s hfirst =>
    split at h
    · cases h
    · next hgoes =>
      cases h
      exact Statement.length_drop_lt hfirst (not_or.mp hgoes).2

/-- Checks a text statement by statement. -/
def validate (rest : List Char) (origin : Position) : Verdict :=
  match _h : round rest origin with
  | .inl verdict => verdict
  | .inr later => validate later.1 later.2
termination_by rest.length
decreasing_by exact length_lt_of_round _h

/-- Whether more lines could complete the text. -/
def isIncomplete (text : List Char) : Bool := validate text .start = .incomplete

/-! ## Sessions -/

/-- A line of the input and the line end that follows it. -/
structure Line where
  text : List Char
  ending : List Char

/-- Takes a carriage return at its end from a line that a line feed ends. -/
def Line.ofLineFeed (text : List Char) : Line :=
  if text.getLast? = some '\r' then ⟨text.dropLast, ['\r', '\n']⟩ else ⟨text, ['\n']⟩

/-- The lines of the input; the last one may lack a line end. -/
def inputLines (current : List Char) : List Char → List Line
  | [] => if current.isEmpty then [] else [⟨current.reverse, []⟩]
  | '\n' :: rest => Line.ofLineFeed current.reverse :: inputLines [] rest
  | c :: rest => inputLines (c :: current) rest

/-- The state of a session between two texts. -/
structure State where
  store : Store
  output : String
  errors : String

/-- Takes what has been printed to the output. -/
def State.flush (state : State) (store : Store) : State :=
  { state with store := { store with output := "" }, output := state.output ++ store.output }

/-- Ends the session. -/
def State.finish (state : State) (code : Nat) : Transcript := ⟨state.output, state.errors, code⟩

/-- What comes after a text. -/
inductive Next where
  | goOn (state : State)
  | finish (transcript : Transcript)

/-- Runs a complete text. -/
def enter (scope : ScopeId) (state : State) (text : String) : Next :=
  match runSource text scope state.store with
  | .ok value store =>
    let state := state.flush store
    match value with
    | some value => .goOn { state with output := state.output ++ state.store.text value ++ "\n" }
    | none => .goOn state
  | .error e store =>
    let state := state.flush store
    match e.exitCode? with
    | some code => .finish (state.finish (exitStatus code))
    | none =>
      match e.report? "REPL" text with
      | some report => .goOn { state with errors := state.errors ++ report }
      -- an error that stands inside a character of this text cannot be shown
      | none => .finish (state.finish 101)

/-- Goes through the lines; `pending` is the text that is not complete yet. -/
def loop (scope : ScopeId) : List Line → (pending : List Char) → State → Transcript
  | [], _, state => { state.finish 0 with output := state.output ++ "\nExiting.\n" }
  | line :: rest, pending, state =>
    let text := pending ++ line.text
    if isIncomplete text then loop scope rest (text ++ line.ending) state
    else
      match trim text with
      | [] => loop scope rest [] state
      | ['e', 'x', 'i', 't'] => state.finish 0
      | _ =>
        match enter scope state (String.ofList text) with
        | .goOn state => loop scope rest [] state
        | .finish transcript => transcript

def greeting : String := "reckon REPL v0.1.0\nType 'exit' or press Ctrl-D to quit.\n"

/-- A session on an input. -/
def run (input : String) (hasHistory : Bool) : Transcript :=
  let (scope, store) := Store.initial
  let output := if hasHistory then greeting else greeting ++ "No previous history.\n"
  loop scope (inputLines [] input.toList) [] ⟨store, output, ""⟩

end Prompt

end Abacus
