/-
The program.

All that a command depends on is fetched first: the variables of the
environment and the files it may look at.  Only the prompt reads on while it
answers.

* `fetch` — what is found under a name;
* `surroundings` — what lies around the program;
* `converse` — the prompt;
* `main` — the program.
-/
import Lox.Command

namespace Lox.Program

/-- What is found under a name. -/
def fetch (path : String) : IO Entry := do
  try
    return .file (← IO.FS.readBinFile path).toList
  catch
    | .inappropriateType _ 21 _ => return .directory
    | .inappropriateType .. => return .underFile
    | .invalidArgument _ 36 _ => return .nameTooLong
    | _ => return .missing

/-- The variables that settings are read from. -/
def variableNames : List String :=
  ["TREELOX_CONFIG", "TREELOX_MAX_ERRORS", "TREELOX_SHOW_SOURCE",
   "TREELOX_RECURSION_LIMIT", "TREELOX_LOG_LEVEL"]

/-- The names of the files that a command may look at, in any of the places
where settings are looked for. -/
def fileNames (a : Arguments) (folder : String) (settingsFile : Option String) :
    List String :=
  let program := match a.action with
    | .run file | .check file _ | .tokens file => [file]
    | .repl => []
  let named := match a.config with
    | .given path => [path]
    | .absent | .dropped => []
  usualSettingsFile folder
    :: (named ++ settingsFile.toList ++ program).map normalPath

/-- Values under names, as a function. -/
def lookup (found : List (String × β)) (otherwise : β) (name : String) : β :=
  (found.lookup name).getD otherwise

/-- What lies around the program. -/
def surroundings (a : Arguments) : IO Surroundings := do
  let folder := (← IO.currentDir).toString
  let values ← variableNames.mapM fun name => return (name, ← IO.getEnv name)
  let environment := lookup values none
  let names := fileNames a folder (environment "TREELOX_CONFIG")
  let files ← names.mapM fun name => return (name, ← fetch name)
  return { look := lookup files .missing, environment, folder }

/-- The machine that programs run on. -/
def host : IO Host := do
  let now ← IO.monoNanosNow
  return { frames := 25000, turns := Nat.pow 2 60, clock := fun n => (now + n).toFloat / 1e9 }

/-- Shows an answer. -/
def display (r : Response) : IO Unit := do
  (← IO.getStdout).putStr r.output
  (← IO.getStderr).putStr r.errors

/-- Answers lines that were read together. -/
def answerLines (mark : String) : Prompt → List String → IO Prompt
  | p, [] => return p
  | p, line :: rest => do
    let (r, p) := p.answer line
    display r
    unless rest.isEmpty do IO.print mark
    answerLines mark p rest

/-- Reads lines and answers them, to the end of the input. -/
partial def converse (mark : String) (p : Prompt) : IO Unit := do
  IO.print mark
  (← IO.getStdout).flush
  let read ← (← IO.getStdin).getLine
  unless read.isEmpty do
    let lines := inputLines (String.ofList (Text.unifyBreaks read.toList))
    converse mark (← answerLines mark p lines)

/-- The short help. -/
def usage : String :=
  "usage: lox [-h] [--config FILE] [-v] \x7brun,check,tokens,repl\x7d ..."

/-- What is said when a command breaks down. -/
def breakdownText : Breakdown → String
  | .settingsNameDropped => "the settings file has no name"
  | .faultySettings _ => "the settings file holds a value that cannot be made"
  | .nullInName => "embedded null byte"
  | .limitTooLarge => "the recursion limit is too large"

/-- The exit code after a breakdown. -/
def breakdownCode : UInt32 := 1

/-- Performs what is asked for; at the prompt, once it is clear that there will
be an answer. -/
def perform (a : Arguments) : IO UInt32 := do
  let around ← surroundings a
  let host ← host
  match a.perform { around with host, input := "", isTerminal := false } with
  | .error e => do
    IO.eprintln (breakdownText e)
    return breakdownCode
  | .ok r =>
    match a.action, a.config.path?, r.exitCode with
    | .repl, .ok path, .success => do
      let isTerminal ← (← IO.getStdin).isTty
      if let .ok settings := Settings.load around path {} then
        converse (promptMark isTerminal) (.start host settings (a.wantsLog settings))
      return 0
    | _, _, _ => do
      display r
      return r.exitCode.toNat.toUInt32

/-- Understands some words and performs what they ask for. -/
def run (words : List String) : IO UInt32 := do
  match Arguments.parse words with
  | .error .helpWanted =>
    IO.println usage
    return ExitCode.success.toNat.toUInt32
  | .error .misunderstood =>
    IO.eprintln usage
    return ExitCode.usage.toNat.toUInt32
  | .ok a => perform a

end Lox.Program

/-- The program. -/
def main (words : List String) : IO UInt32 := do
  Lox.Program.run words
