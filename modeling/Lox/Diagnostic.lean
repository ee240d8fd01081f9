/-
Messages about a program, and reports of several of them.

A `Diagnostic` says what is wrong and where; it may show the line of the source
it is about, with the place underlined, and give hints.  A `Report` collects
diagnostics in the order they were found, and knows after how many errors
reading should stop.

* `Diagnostic.render` — the text of one message;
* `Report.add`, `Report.append` — one more message, or those of another report;
* `Report.render` — the text of a report, closed by a count.
-/
import Lox.Source

namespace Lox

/-- How grave a message is. -/
inductive Severity where
  | error
  | warning
  deriving DecidableEq, Repr, Inhabited

/-- The word for a severity. -/
def Severity.name : Severity → String
  | .error => "error"
  | .warning => "warning"

/-- One message about a program. -/
structure Diagnostic where
  code : String
  message : String
  severity : Severity := .error
  span : Span
  /-- The line of the source that the message shows. -/
  sourceLine : Option String := none
  hints : List String := []
  deriving Inhabited

namespace Diagnostic

/-- The line a message is about. -/
def line (d : Diagnostic) : Nat :=
  d.span.start.line

/-- The first line of a message: place, severity, code and text. -/
def header (d : Diagnostic) : String :=
  d.span.start.render ++ ": " ++ d.severity.name ++ "[" ++ d.code ++ "]: " ++ d.message

/-- A text moved to the right to end at column `width`. -/
def alignRight (width : Nat) (s : String) : String :=
  "".pushn ' ' (width - s.length) ++ s

/-- How many characters are underlined: those of the span, to the end of the
line if it goes on, and at least one. -/
def underlined (d : Diagnostic) (shown : String) : Nat :=
  let stop :=
    if d.span.start.line = d.span.stop.line then d.span.stop.column
    else shown.length + 1
  max 1 (stop - d.span.start.column)

/-- The shown line with its number, and the underline. -/
def excerpt (d : Diagnostic) (shown : String) : List String :=
  ["  |",
   alignRight 3 (toString d.line) ++ " | " ++ shown,
   "    | " ++ "".pushn ' ' (d.span.start.column - 1) ++ "".pushn '^' (d.underlined shown)]

/-- The text of a message, with or without the source line. -/
def render (d : Diagnostic) (showSource : Bool) : String :=
  let shown := if showSource then d.sourceLine else none
  "\n".intercalate <|
    d.header :: (shown.elim [] d.excerpt ++ d.hints.map ("    = hint: " ++ ·))

end Diagnostic

/-- The messages found so far, and the number of errors to stop at. -/
structure Report where
  limit : Int := 20
  diagnostics : Array Diagnostic := #[]
  deriving Inhabited

namespace Report

/-- A report with one more message. -/
def add (r : Report) (d : Diagnostic) : Report :=
  { r with diagnostics := r.diagnostics.push d }

/-- A report with the messages of another at its end. -/
def append (r other : Report) : Report :=
  { r with diagnostics := r.diagnostics ++ other.diagnostics }

/-- The number of messages of one severity. -/
def count (r : Report) (s : Severity) : Nat :=
  r.diagnostics.countP (·.severity == s)

/-- The number of errors. -/
def errorCount (r : Report) : Nat := r.count .error

/-- The number of warnings. -/
def warningCount (r : Report) : Nat := r.count .warning

/-- Whether there is an error. -/
def hasErrors (r : Report) : Bool := 0 < r.errorCount

/-- Whether the limit of errors is reached. -/
def isFull (r : Report) : Bool := r.limit ≤ (r.errorCount : Int)

/-- The closing count of a report; empty reports have none. -/
def tally (r : Report) : List String :=
  if 0 < r.errorCount then
    [toString r.errorCount ++ " error(s), " ++ toString r.warningCount ++ " warning(s)"]
  else if 0 < r.warningCount then [toString r.warningCount ++ " warning(s)"]
  else []

/-- The text of a report, its messages divided by blank lines. -/
def render (r : Report) (showSource : Bool) : String :=
  "\n\n".intercalate ((r.diagnostics.toList.map (·.render showSource)) ++ r.tally)

end Report

end Lox
