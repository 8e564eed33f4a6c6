import Abacus.CommandLine

/-!
# The terminal

The outermost layer. It fetches what the program and the prompt read, hands it to
`CommandLine.run` and `Prompt.run`, and writes what they answer; it decides nothing itself.
-/

namespace Abacus.Terminal

/-- Why a file cannot be read, in the system's words. -/
def reason : IO.Error → String
  | .noFileOrDirectory .. => "No such file or directory (os error 2)"
  | .permissionDenied .. => "Permission denied (os error 13)"
  | .inappropriateType .. => "Is a directory (os error 21)"
  | e => toString e

/-- The text of a file, or the reason why there is none. -/
def readText (file : String) : IO (Except String String) := do
  try
    match String.fromUTF8? (← IO.FS.readBinFile file) with
    | some text => return .ok text
    | none => return .error "stream did not contain valid UTF-8"
  catch e => return .error (reason e)

/-- The lines of the standard input that have not been read yet. -/
partial def readAll (input : IO.FS.Stream) (text : String) : IO String := do
  let line ← input.getLine
  if line.isEmpty then return text
  readAll input (text ++ line)

/-- Writes what was written, and answers with the exit status. -/
def write (transcript : Transcript) : IO UInt32 := do
  IO.print transcript.output
  IO.eprint transcript.errors
  return transcript.code.toUInt32

/-- The form of the arguments. -/
def usage : String := "Usage: reckon [OPTIONS] [FILE]"

/-- The program that runs one source. -/
def program (arguments : List String) : IO UInt32 := do
  let text ← match CommandLine.file? arguments with
    | some file => readText file
    | none => pure (.error "")
  match CommandLine.run arguments fun _ => text with
  | .ran transcript => write transcript
  | .usageError =>
    IO.eprintln usage
    return 2

/-- The file that keeps the lines of earlier sessions. -/
def historyFile : IO String := do
  return (← IO.getEnv "RECKON_HISTORY").getD "reckon_history.txt"

/-- The program that reads sources from the standard input. -/
def prompt : IO UInt32 := do
  let hasHistory := (← readText (← historyFile)).toOption.isSome
  write (Prompt.run (← readAll (← IO.getStdin) "") hasHistory)

end Abacus.Terminal
