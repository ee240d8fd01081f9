/-
Programs run one after another.

A unit is a source text that is checked as a whole: scanned, read and resolved,
with one report for all of it.  Only a unit without an error is run.  The units
of a session share their globals.

* `check` — a unit without running it;
* `interpret` — statements on a machine;
* `Session.run` — a unit in a session;
* `RunResult` — what a unit printed, how it ended, and its report.
-/
import Lox.Machine.Eval
import Lox.Scope.Resolve
import Lox.Settings
import Lox.Token.Scan
import Lox.Tree.Parse

namespace Lox

/-- How many frames a run may use: the host's, or more if that is set. -/
def Settings.frames (s : Settings) (host : Host) : Nat :=
  max host.frames s.recursionLimit.toNat

/-! ### Checking -/

/-- A unit that was scanned, read and resolved. -/
structure Checked where
  tokens : Array Token
  statements : List Stmt
  uses : Array Scope.Use
  /-- The report after scanning. -/
  scanned : Report
  /-- The report after reading. -/
  parsed : Report
  /-- The report at the end. -/
  report : Report

/-- Scans, reads and resolves a unit. -/
def check (host : Host) (settings : Settings) (file : Option String) (source : String) :
    Checked :=
  let frames := settings.frames host
  let listing := Listing.ofText source
  let (tokens, scanned) := Token.scan source file { limit := settings.maxErrors }
  let (statements, parsed) := Tree.parse frames tokens.toList listing scanned
  match Scope.resolve frames statements listing parsed with
  | .ok r =>
    { tokens, statements := r.statements, uses := r.uses, scanned, parsed, report := r.report }
  | .error _ => { tokens, statements, uses := #[], scanned, parsed, report := parsed }

/-! ### Running -/

/-- How the run of a unit ended. -/
inductive Ending where
  | finished
  /-- The unit has an error and was not run. -/
  | rejected
  | faulted (f : Fault) (t : Token)
  | unfinished
  | defective (d : Defect)

/-- What came of running a unit. -/
structure RunResult where
  output : String := ""
  ending : Ending
  /-- The text of the last top-level expression, if it was recorded. -/
  value : Option String := none
  report : Report

namespace RunResult

/-- Whether the unit was not run because of an error. -/
def hadStaticError (r : RunResult) : Bool :=
  match r.ending with
  | .rejected => true
  | _ => false

/-- Whether the run stopped at a fault. -/
def hadRuntimeError (r : RunResult) : Bool :=
  match r.ending with
  | .faulted .. => true
  | _ => false

/-- Whether the unit was run without a fault. -/
def success (r : RunResult) : Bool :=
  !(r.hadStaticError || r.hadRuntimeError)

end RunResult

/-- Two frames are used for every nested expression or statement. -/
def framesPerLevel : Nat := 2

/-- Runs a top-level statement.  A recorded expression gives its text. -/
def runTopLevel (host : Host) (levels : Nat) (record : Bool) (s : Stmt) :
    Eval (Option String) :=
  Eval.catchExhausted (Node.firstToken (.stmt s)) do
    match record, s with
    | true, .expression e =>
      let v ← eval host levels e
      match ← Eval.ask (·.display? levels v) with
      | some text => pure (some text)
      | none => throw .exhausted
    | _, _ =>
      let _ ← exec host levels s
      pure none

/-- The ending that a stop brings about. -/
def Ending.ofStop : Stop → Ending
  | .fault f t => .faulted f t
  | .defect d => .defective d
  | .exhausted | .unfinished => .unfinished

/-- Runs top-level statements up to the first that stops; `value` is the last
text recorded. -/
def runStatements (host : Host) (levels : Nat) (record : Bool) :
    List Stmt → (value : Option String) → Machine → Ending × Option String × Machine
  | [], value, m => (.finished, value, m)
  | s :: rest, value, m =>
    match runTopLevel host levels record s m with
    | .ok text m => runStatements host levels record rest (text <|> value) m
    | .error stop m => (.ofStop stop, value, m)

/-- Runs the statements of a unit.  A fault is added to the report, and shows a
line of the unit. -/
def interpret (host : Host) (settings : Settings) (statements : List Stmt)
    (listing : Listing) (report : Report) (m : Machine) : RunResult × Machine :=
  let levels := settings.frames host / framesPerLevel
  let (ending, value, m) :=
    runStatements host levels settings.replMode statements none { m with output := "" }
  let report := match ending with
    | .faulted f t => report.add (f.diagnose t (listing.line? t.line))
    | _ => report
  ({ output := m.output, ending, value, report }, m)

/-- The state that the units of a session share. -/
structure Session where
  machine : Machine

namespace Session

/-- A session in which nothing has run. -/
def start : Session := ⟨Machine.initial⟩

/-- Runs a unit that was checked, if it has no error. -/
def runChecked (host : Host) (settings : Settings) (source : String) (checked : Checked)
    (s : Session) : RunResult × Session :=
  if checked.report.hasErrors then ({ ending := .rejected, report := checked.report }, s)
  else
    let (result, machine) :=
      interpret host settings checked.statements (Listing.ofText source) checked.report s.machine
    (result, ⟨machine⟩)

/-- Checks a unit and, if it has no error, runs it. -/
def run (host : Host) (settings : Settings) (file : Option String) (source : String)
    (s : Session) : RunResult × Session :=
  s.runChecked host settings source (check host settings file source)

/-- Whether the current environment is the global one. -/
def atGlobals (s : Session) : Bool :=
  s.machine.current == Machine.globals

/-- The value of a global. -/
def global? (s : Session) (name : String) : Option Value :=
  (s.machine.heap.environments.env Machine.globals).values.get? name

/-- The names of the globals, in increasing order. -/
def globalNames (s : Session) : List String :=
  Forest.sortedNames (s.machine.heap.environments.env Machine.globals).values

end Session

end Lox
