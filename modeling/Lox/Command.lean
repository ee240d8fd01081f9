/-
The commands.

A command is a function of what lies around it: the files, the environment and
the input.  It answers with an exit code and the texts for the two outputs,
unless it breaks down.

* `Response` — the answer of a command;
* `Breakdown` — why a command has no answer;
* `Report.toJson` — a report for other tools;
* `logLines` — what a command tells about the stages of a unit;
* `Prompt.answer` — one line at the prompt;
* `Arguments.perform` — a command.
-/
import Lox.Command.Arguments
import Lox.Json
import Lox.Session
import Lox.Settings.Load

namespace Lox

/-! ### Answers -/

/-- Why a command ends. -/
inductive ExitCode where
  | success
  /-- The command line was not understood. -/
  | usage
  /-- The program has an error and was not run. -/
  | staticError
  /-- The program cannot be read. -/
  | noInput
  /-- The program stopped at a fault. -/
  | runtimeError
  /-- The settings are unusable. -/
  | config
  deriving DecidableEq, Repr

/-- The number of an exit code. -/
def ExitCode.toNat : ExitCode → Nat
  | success => 0
  | usage => 2
  | staticError => 65
  | noInput => 66
  | runtimeError => 70
  | config => 78

/-- The answer of a command. -/
structure Response where
  exitCode : ExitCode := .success
  output : String := ""
  errors : String := ""

/-- Why a command has no answer. -/
inductive Breakdown where
  /-- The name of the settings file was dropped. -/
  | settingsNameDropped
  /-- Something in the settings file has no value, and nothing is said about
  it. -/
  | faultySettings (f : Yaml.Fault)
  /-- The name of a program holds a character that no name can hold. -/
  | nullInName
  /-- The recursion limit does not fit in a machine word. -/
  | limitTooLarge
  deriving DecidableEq, Repr

/-- Lines as text, each with a line feed at its end. -/
def linesText (lines : List String) : String :=
  String.join (lines.map (· ++ "\n"))

/-! ### Reports for other tools -/

/-- A place for other tools. -/
def Location.toJson (l : Location) : Json :=
  .object [("line", .number l.line), ("column", .number l.column), ("offset", .number l.offset)]

/-- A message for other tools. -/
def Diagnostic.toJson (d : Diagnostic) : Json :=
  .object
    [("code", .text d.code), ("message", .text d.message), ("severity", .text d.severity.name),
     ("range", .object [("start", d.span.start.toJson), ("end", d.span.stop.toJson)]),
     ("hints", .list (d.hints.map .text))]

/-- A report for other tools. -/
def Report.toJson (r : Report) : Json :=
  .object
    [("diagnostics", .list (r.diagnostics.toList.map Diagnostic.toJson)),
     ("error_count", .number r.errorCount), ("warning_count", .number r.warningCount)]

/-! ### The log -/

/-- What is told about scanning. -/
def scanLog (tokens : Array Token) (r : Report) : List String :=
  ["DEBUG treelox.lexer: scanned " ++ toString tokens.size ++ " token(s), "
    ++ toString r.errorCount ++ " error(s)"]

/-- The code of the message about nesting that is too deep to be read. -/
def nestingCode : String := "E106"

/-- What is told about the stages of checking. -/
def Checked.log (c : Checked) : List String :=
  let tooDeep := c.parsed.diagnostics.toList.filter (·.code == nestingCode)
  scanLog c.tokens c.scanned
    ++ tooDeep.map (fun d =>
        "DEBUG treelox.parser: nesting limit reached at line " ++ toString d.line)
    ++ ["DEBUG treelox.parser: parsed " ++ toString c.statements.length
          ++ " top-level statement(s), " ++ toString c.parsed.errorCount ++ " error(s)",
        "DEBUG treelox.resolver: resolved " ++ toString c.uses.size
          ++ " local reference(s), " ++ toString c.report.errorCount ++ " error(s)"]

/-- What is told about the end of a run. -/
def Ending.log : Ending → List String
  | .faulted f t =>
    ["DEBUG treelox.runtime.interpreter: runtime fault at line " ++ toString t.line
      ++ ": " ++ f.message]
  | _ => []

/-- The log, if it is wanted. -/
def logged (wanted : Bool) (lines : List String) : List String :=
  if wanted then lines else []

/-- The text of a report, if it has any message. -/
def Report.shown (r : Report) (settings : Settings) : List String :=
  if r.diagnostics.isEmpty then [] else [r.render settings.showSource]

/-! ### Commands on a program -/

/-- The exit code after a run. -/
def RunResult.exitCode (r : RunResult) : ExitCode :=
  match r.ending with
  | .finished => .success
  | .rejected => .staticError
  | .faulted .. | .unfinished | .defective _ => .runtimeError

/-- Checks and runs a program. -/
def runProgram (host : Host) (settings : Settings) (log : Bool) (file source : String) :
    Response :=
  let checked := check host settings (some file) source
  let (result, _) := Session.start.runChecked host settings source checked
  { exitCode := result.exitCode
    output := result.output
    errors := linesText (logged log (checked.log ++ result.ending.log)
      ++ result.report.shown settings) }

/-- Checks a program. -/
def checkProgram (host : Host) (settings : Settings) (log json : Bool)
    (file source : String) : Response :=
  let checked := check host settings (some file) source
  let failed := checked.report.hasErrors
  let exitCode := if failed then .staticError else .success
  let told := logged log checked.log
  if json then
    { exitCode, output := linesText [checked.report.toJson.render], errors := linesText told }
  else if failed then
    { exitCode, errors := linesText (told ++ [checked.report.render settings.showSource]) }
  else
    { exitCode
      output := linesText ["OK: " ++ file ++ ": " ++ toString checked.statements.length
        ++ " statement(s)"]
      errors := linesText told }

/-- A text moved to the left to fill `width` columns. -/
def alignLeft (width : Nat) (s : String) : String :=
  s.pushn ' ' (width - s.length)

/-- A token with its place. -/
def tokenLine (t : Token) : String :=
  Diagnostic.alignRight 4 (toString t.line) ++ ":" ++ alignLeft 4 (toString t.column)
    ++ " " ++ t.render

/-- Lists the tokens of a program. -/
def listTokens (settings : Settings) (log : Bool) (file source : String) : Response :=
  let (tokens, report) := Token.scan source (some file) {}
  let failed := report.hasErrors
  { exitCode := if failed then .staticError else .success
    output := linesText (tokens.toList.map tokenLine)
    errors := linesText (logged log (scanLog tokens report)
      ++ if failed then [report.render settings.showSource] else []) }

/-! ### The prompt -/

/-- A prompt at which programs of one line each are run. -/
structure Prompt where
  host : Host
  settings : Settings
  log : Bool
  session : Session

namespace Prompt

/-- A prompt at which nothing has been said. -/
def start (host : Host) (settings : Settings) (log : Bool) : Prompt :=
  { host, settings := { settings with replMode := true }, log, session := .start }

/-- Runs a line.  Its messages are shown, or else the value of its last
expression. -/
def answer (p : Prompt) (line : String) : Response × Prompt :=
  let checked := check p.host p.settings (some "<stdin>") line
  let (result, session) := p.session.runChecked p.host p.settings line checked
  let value := if result.report.diagnostics.isEmpty then result.value.toList else []
  ({ output := result.output ++ linesText value
     errors := linesText (logged p.log (checked.log ++ result.ending.log)
       ++ result.report.shown p.settings) },
   { p with session })

/-- Runs lines one after another; `mark` is shown before each line is read, and
before the end of the input is found. -/
def answerAll (mark : String) : Prompt → List String → Response
  | _, [] => { output := mark }
  | p, line :: rest =>
    let (first, p) := p.answer line
    let others := answerAll mark p rest
    { output := mark ++ first.output ++ others.output
      errors := first.errors ++ others.errors }

end Prompt

/-- What is shown at a terminal before a line is read. -/
def promptMark (isTerminal : Bool) : String :=
  if isTerminal then "> " else ""

/-- The lines of an input; nothing follows a final line feed. -/
def inputLines (input : String) : List String :=
  match (input.splitOn "\n").reverse with
  | "" :: rest => rest.reverse
  | all => all.reverse

/-! ### Commands -/

/-- What a command is given. -/
structure World extends Surroundings where
  host : Host
  /-- All that will be typed. -/
  input : String
  isTerminal : Bool

/-- Reads a program and does something with it. -/
def World.withProgram (w : World) (file : String) (f : String → Except Breakdown Response) :
    Except Breakdown Response :=
  let path := normalPath file
  if path.toList.contains (Char.ofNat 0) then .error .nullInName
  else match (w.look path).text path with
    | .ok source => f source
    | .error e =>
      .ok { exitCode := .noInput
            errors := linesText ["Error: cannot read " ++ path ++ ": " ++ e.message] }

/-- The greatest recursion limit. -/
def maxRecursionLimit : Int := 2147483647

/-- An answer that takes a recursion limit. -/
def Settings.limiting (s : Settings) (r : Response) : Except Breakdown Response :=
  if maxRecursionLimit < s.recursionLimit then .error .limitTooLarge else .ok r

/-- Performs a command under some settings. -/
def Action.perform (w : World) (settings : Settings) (log : Bool) :
    Action → Except Breakdown Response
  | run file =>
    w.withProgram file fun source =>
      settings.limiting (runProgram w.host settings log file source)
  | check file json =>
    w.withProgram file fun source =>
      settings.limiting (checkProgram w.host settings log json file source)
  | tokens file => w.withProgram file fun source => .ok (listTokens settings log file source)
  | repl =>
    settings.limiting ((Prompt.start w.host settings log).answerAll (promptMark w.isTerminal)
      (inputLines (String.ofList (Text.unifyBreaks w.input.toList))))

/-- The answer if there are no settings. -/
def SettingsError.response (e : SettingsError) : Except Breakdown Response :=
  match e.message?, e with
  | some message, _ =>
    .ok { exitCode := .config
          errors := linesText ["Error: invalid configuration: " ++ message] }
  | none, faulty f => .error (.faultySettings f)
  | none, _ => .ok { exitCode := .config }

/-- Whether the log is wanted. -/
def Arguments.wantsLog (a : Arguments) (s : Settings) : Bool :=
  a.verbose || s.logLevel == "DEBUG"

/-- The name of the settings file. -/
def SettingsName.path? : SettingsName → Except Breakdown (Option String)
  | absent => .ok none
  | given path => .ok (some path)
  | dropped => .error .settingsNameDropped

/-- Performs what is asked for. -/
def Arguments.perform (w : World) (a : Arguments) : Except Breakdown Response := do
  let path ← a.config.path?
  match Settings.load w.toSurroundings path {} with
  | .error e => e.response
  | .ok settings => a.action.perform w settings (a.wantsLog settings)

end Lox
