/-
Reading a list of tokens.

A parser is a computation that moves a `Cursor` over the tokens and adds to a
report.  It gives a result, or stops: at a complaint about a token, or because
the program is nested too deeply.  Where it stopped, the cursor stays.

* `Complaint` — what can be wrong at a token;
* `Cursor` — the tokens ahead, and the report so far;
* `peek`, `advance`, `accept`, `expect` — single tokens;
* `many`, `chainLeft`, `commaList` — repetition, never more often than there
  are tokens ahead;
* `recovering` — a stop becomes part of the report, and reading goes on at the
  next place where a statement may begin.
-/
import Lox.Diagnostic
import Lox.Tree

namespace Lox.Tree

/-- What can be wrong at a token. -/
inductive Complaint where
  /-- Something else was expected, as the text says. -/
  | expected (text : String)
  | invalidTarget
  /-- More than the greatest number of parameters or arguments. -/
  | tooMany (what : String)
  | breakOutsideLoop
  | tooDeep
  deriving DecidableEq, Repr

/-- The greatest number of parameters or arguments. -/
def maxArguments : Nat := 255

namespace Complaint

/-- The code of a complaint; an early end of the input has its own. -/
def code (c : Complaint) (t : Token) : String :=
  match c with
  | expected _ => if t.isEnd then "E102" else "E101"
  | invalidTarget => "E103"
  | tooMany _ => "E104"
  | breakOutsideLoop => "E105"
  | tooDeep => "E106"

/-- The text of a complaint. -/
def text : Complaint → String
  | expected text => text
  | invalidTarget => "Invalid assignment target."
  | tooMany what => "Can't have more than " ++ toString maxArguments ++ " " ++ what ++ "."
  | breakOutsideLoop => "Must be inside a loop to use 'break'."
  | tooDeep => "Expression nesting too deep."

/-- The hints that go with a complaint. -/
def hints : Complaint → List String
  | invalidTarget => ["only variables and instance fields can be assigned"]
  | _ => []

/-- The diagnostic for a complaint about a token. -/
def diagnose (c : Complaint) (t : Token) (listing : Listing) : Diagnostic :=
  { code := c.code t
    message := "Error " ++ t.mention ++ ": " ++ c.text
    span := t.span
    sourceLine := listing.line? t.line
    hints := c.hints }

end Complaint

/-- Why a parser stopped. -/
inductive Halt where
  | complaint (t : Token) (c : Complaint)
  | tooDeep

/-- The tokens that are still to be read, and what was found so far. -/
structure Cursor where
  /-- The tokens before the end of the input. -/
  ahead : List Token
  /-- The end of the input. -/
  last : Token
  listing : Listing
  report : Report

namespace Cursor

/-- The cursor before a list of tokens.  Nothing after the first end of input
is ever read. -/
def ofTokens (tokens : List Token) (listing : Listing) (report : Report) : Cursor :=
  { ahead := tokens.takeWhile (!·.isEnd)
    last := (tokens.find? (·.isEnd)).getD Token.endOfNothing
    listing
    report }

/-- The token at the cursor. -/
def current (c : Cursor) : Token :=
  c.ahead.headD c.last

/-- Whether all tokens are read. -/
def atEnd (c : Cursor) : Bool :=
  c.ahead.isEmpty

/-- Whether the token at the cursor has a kind. -/
def sees (c : Cursor) (k : Token.Kind) : Bool :=
  c.current.kind == k

/-- The cursor after the current token; the end of the input is not passed. -/
def next (c : Cursor) : Cursor :=
  { c with ahead := c.ahead.tail }

/-- The cursor with one more diagnostic. -/
def complain (c : Cursor) (t : Token) (p : Complaint) : Cursor :=
  { c with report := c.report.add (p.diagnose t c.listing) }

end Cursor

/-- A computation that reads tokens. -/
abbrev Parser := EStateM Halt Cursor

namespace Parser

/-! ### Single tokens -/

/-- The token at the cursor. -/
def peek : Parser Token :=
  return (← get).current

/-- Reads the token at the cursor. -/
def advance : Parser Token :=
  modifyGet fun c => (c.current, c.next)

/-- Reads the token at the cursor if its kind is one of those wanted. -/
def accept (wanted : Token.Kind → Bool) : Parser (Option Token) := do
  if wanted (← peek).kind then some <$> advance else pure none

/-- Whether the token at the cursor has a kind; if so, it is read. -/
def skips (k : Token.Kind) : Parser Bool := do
  if (← get).sees k then
    let _ ← advance
    pure true
  else pure false

/-- Reads a token of one kind, or stops with a complaint. -/
def expect (k : Token.Kind) (text : String) : Parser Token := do
  let t ← peek
  if t.kind == k then advance else throw (.complaint t (.expected text))

/-- Adds a complaint to the report and goes on. -/
def complain (t : Token) (c : Complaint) : Parser Unit :=
  modify (·.complain t c)

/-! ### Repetition -/

/-- Repeats `step` while `more` holds of the cursor, at most `fuel` times.
Steps without a result leave none. -/
def manyFrom (more : Cursor → Bool) (step : Parser (Option α)) :
    (fuel : Nat) → (found : Array α) → Parser (List α)
  | 0, found => pure found.toList
  | fuel + 1, found => do
    if more (← get) then
      let a? ← step
      manyFrom more step fuel (a?.elim found found.push)
    else pure found.toList

/-- Repeats a step that reads at least one token while `more` holds. -/
def many (more : Cursor → Bool) (step : Parser (Option α)) : Parser (List α) := do
  manyFrom more step (← get).ahead.length #[]

/-- Reads operators and right operands, and joins them to the left operand. -/
def chainLeftFrom (isOperator : Token.Kind → Bool) (join : Expr → Token → Expr → Expr)
    (operand : Parser Expr) : (fuel : Nat) → (left : Expr) → Parser Expr
  | 0, left => pure left
  | fuel + 1, left => do
    match ← accept isOperator with
    | some op =>
      let right ← operand
      chainLeftFrom isOperator join operand fuel (join left op right)
    | none => pure left

/-- Operands divided by operators of one level, grouped from the left. -/
def chainLeft (isOperator : Token.Kind → Bool) (join : Expr → Token → Expr → Expr)
    (operand : Parser Expr) : Parser Expr := do
  let left ← operand
  if isOperator (← peek).kind then
    chainLeftFrom isOperator join operand (← get).ahead.length left
  else pure left

/-- Reads an item and, while commas follow, further items.  From the item
after the greatest number on, each is complained about. -/
def commaListFrom (what : String) (item : Parser α) :
    (fuel : Nat) → (found : Array α) → Parser (List α)
  | 0, found => pure found.toList
  | fuel + 1, found => do
    if maxArguments ≤ found.size then
      complain (← peek) (.tooMany what)
    let a ← item
    if ← skips .comma then commaListFrom what item fuel (found.push a)
    else pure (found.push a).toList

/-- Items divided by commas, up to a closing parenthesis; possibly none. -/
def commaList (what : String) (item : Parser α) : Parser (List α) := do
  if (← get).sees .rightParen then pure []
  else commaListFrom what item ((← get).ahead.length + 1) #[]

/-! ### Recovery -/

/-- The tokens from the next place on where a statement may begin: before a
word that begins one, or after a semicolon.  `previous` is the token before
them. -/
def resumeAfter (previous : Token) : List Token → List Token
  | [] => []
  | t :: rest =>
    if previous.kind == .semicolon || t.kind.startsStatement then t :: rest
    else resumeAfter t rest

/-- Gives up the token at the cursor, and goes on to the next place where a
statement may begin. -/
def synchronize : Parser Unit :=
  modify fun c =>
    match c.ahead with
    | [] => c
    | t :: rest => { c with ahead := resumeAfter t rest }

/-- A parser that does not stop: it reports the reason instead, and goes on
where a statement may begin. -/
def recovering (p : Parser α) : Parser (Option α) := fun c =>
  match p c with
  | .ok a c => .ok (some a) c
  | .error (.complaint t why) c =>
    (do complain t why; synchronize; pure none : Parser (Option α)) c
  | .error .tooDeep c =>
    (do complain (← peek) .tooDeep; synchronize; pure none : Parser (Option α)) c

end Parser

end Lox.Tree
