import Abacus.Prompt.Session

/-!
# The command line

The program runs one source, from a file or from the command line, and may print its last value.
Arguments are read from left to right; asking for the version ends the reading at once, and what
does not fit together is found when all have been read.
-/

namespace Abacus

namespace CommandLine

/-- What the arguments ask for. -/
structure Options where
  file : Option String
  source : Option String
  printLast : Bool
deriving DecidableEq

/-- Why the arguments ask for nothing that can be run. -/
inductive Refusal where
  /-- The version is asked for. -/
  | version
  | usage
deriving DecidableEq

/-- Takes a source; a second one does not fit. -/
def Options.withSource (o : Options) (source : String) : Except Refusal Options :=
  if o.source.isSome then .error .usage else .ok { o with source := some source }

/-- Takes the flag to print the last value; a second one does not fit. -/
def Options.withPrintLast (o : Options) : Except Refusal Options :=
  if o.printLast then .error .usage else .ok { o with printLast := true }

/-- Takes a file; a second one or one without a name does not fit. -/
def Options.withFile (o : Options) (file : String) : Except Refusal Options :=
  if o.file.isSome || file.isEmpty then .error .usage else .ok { o with file := some file }

/-- An argument that may be the value of an option: a single dash may. -/
def isValue (argument : String) : Bool :=
  match argument.toList with
  | '-' :: _ :: _ => false
  | _ => true

/-- Reads letters after a dash. The answer says whether the next argument is to be the source. -/
def readLetters (o : Options) : List Char → Except Refusal (Options × Bool)
  | [] => .ok (o, false)
  | 'p' :: rest => do readLetters (← o.withPrintLast) rest
  | 'V' :: _ => .error .version
  | 'e' :: [] => .ok (o, true)
  | 'e' :: '=' :: value => do return (← o.withSource (String.ofList value), false)
  | 'e' :: value => do return (← o.withSource (String.ofList value), false)
  | _ => .error .usage

/-- Reads the word after two dashes. The answer says whether the next argument is to be the
source. -/
def readWord (o : Options) (word : List Char) : Except Refusal (Options × Bool) :=
  let name := String.ofList (word.takeWhile (· != '='))
  let value := (word.dropWhile (· != '=')).tail
  if !word.contains '=' then
    match name with
    | "eval" => .ok (o, true)
    | "print-last" => do return (← o.withPrintLast, false)
    | "version" => .error .version
    | _ => .error .usage
  else if name = "eval" then do return (← o.withSource (String.ofList value), false)
  else .error .usage

/-- Reads one argument that is no value of an option. -/
def readArgument (o : Options) (argument : String) : Except Refusal (Options × Bool) :=
  match argument.toList with
  | '-' :: '-' :: word => readWord o word
  | '-' :: letter :: letters => readLetters o (letter :: letters)
  | _ => do return (← o.withFile argument, false)

/-- Reads arguments. -/
def readArguments (o : Options) : List String → Except Refusal Options
  | [] => .ok o
  | "--" :: files => files.foldlM Options.withFile o
  | argument :: rest => do
    match ← readArgument o argument with
    | (o, false) => readArguments o rest
    | (o, true) =>
      match rest with
      | value :: rest => if isValue value then readArguments (← o.withSource value) rest else .error .usage
      | [] => .error .usage

/-- The options that arguments give: a file or a source, and not both. -/
def parse (arguments : List String) : Except Refusal Options := do
  let o ← readArguments ⟨none, none, false⟩ arguments
  if o.file.isSome = o.source.isSome then throw .usage
  return o

/-- The file that has to be read to run the program on arguments. -/
def file? (arguments : List String) : Option String :=
  match parse arguments with
  | .ok ⟨file, none, _⟩ => file
  | _ => none

/-- The exit status of an error: that of an exit is its own, that of a source that cannot be read is
two, and that of a fault is one. -/
def status (e : SourceError) : Nat :=
  match e with
  | .run (.exit code) => exitStatus code
  | .read _ => 2
  | .run _ => 1

/-- Runs a source under a name. -/
def runNamed (name source : String) (printLast : Bool) : Transcript :=
  let (scope, store) := Store.initial
  match runSource source scope store with
  | .ok value store =>
    let last := match printLast, value with
      | true, some value => store.text value ++ "\n"
      | _, _ => ""
    ⟨store.output ++ last, "", 0⟩
  | .error e store => ⟨store.output, (e.report? name source).getD "", status e⟩

/-- What the program does. -/
inductive Result where
  | ran (transcript : Transcript)
  /-- The arguments do not fit; how they should be is told elsewhere. -/
  | usageError
deriving DecidableEq

/-- Runs the program on arguments; `read` gives the texts of files, or the reason why not. -/
def run (arguments : List String) (read : String → Except String String) : Result :=
  match parse arguments with
  | .error .version => .ran ⟨"reckon 0.1.0\n", "", 0⟩
  | .error .usage => .usageError
  | .ok o =>
    match o.source, o.file with
    | some source, _ => .ran (runNamed "<eval>" source o.printLast)
    | none, some file =>
      match read file with
      | .ok source => .ran (runNamed file source o.printLast)
      | .error reason => .ran ⟨"", "Failed to read '" ++ file ++ "': " ++ reason ++ "\n", 1⟩
    | none, none => .usageError

end CommandLine

end Abacus
