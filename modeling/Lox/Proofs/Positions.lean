/-
Reading with a position.

A reader moves an index over a list of tokens, looks back at the token it has
just passed, and counts the loops around the place it is at.  Nothing keeps it
from looking where no token is, from looking back at the beginning, or from going
round without an end: each of these stops it for good, and recovery does not help.

The grammar is that of `Lox.Tree.Parse`, rule by rule.

* `Tape` — the tokens, the position, the loops around it, and the report;
* `Slip` — what a reader must not do;
* `current`, `previous`, `advance`, `accept`, `consume` — single tokens;
* `whileFrom`, `chainFrom`, `commaListFrom`, `skipFrom` — loops;
* `expression`, `statement`, `declaration`, `program` — the grammar.
-/
import Lox.Tree.Parse

namespace Lox.Tree

/-- The tokens, the position in them, and what was found so far. -/
structure Tape where
  tokens : List Token
  position : Nat := 0
  /-- The greatest position so far. -/
  furthest : Nat := 0
  /-- How many loops of the same function are around the position. -/
  loopDepth : Int := 0
  listing : Listing
  report : Report

/-- What a reader must not do. -/
inductive Slip where
  /-- Look where no token is. -/
  | outOfRange
  /-- Look back at the beginning. -/
  | beforeFirst
  /-- Go round more often than there are tokens. -/
  | endless
  deriving DecidableEq, Repr

/-- Why a reader stopped. -/
inductive Tape.Stop where
  | halt (h : Halt)
  | slip (s : Slip)

/-- The tape after one more token. -/
def Tape.next (tape : Tape) : Tape :=
  { tape with
    position := tape.position + 1
    furthest := max tape.furthest (tape.position + 1) }

/-- A computation that moves over a tape. -/
abbrev Reader := EStateM Tape.Stop Tape

namespace Reader

/-! ### Single tokens -/

/-- The token with a number. -/
def tokenAt (i : Nat) : Reader Token := do
  match (← get).tokens[i]? with
  | some t => pure t
  | none => throw (.slip .outOfRange)

/-- The token at the position, or the last one past the end. -/
def current : Reader Token := do
  let tape ← get
  if tape.tokens.length ≤ tape.position then tokenAt (tape.tokens.length - 1)
  else tokenAt tape.position

/-- The token before the position. -/
def previous : Reader Token := do
  let tape ← get
  if tape.position = 0 then throw (.slip .beforeFirst) else tokenAt (tape.position - 1)

/-- Whether the token at the position is the end of the input. -/
def isAtEnd : Reader Bool :=
  return (← current).isEnd

/-- Whether the token at the position has a kind. -/
def sees (k : Token.Kind) : Reader Bool :=
  return (← current).kind == k

/-- Passes the token at the position, unless it is the end of the input. -/
def advance : Reader Token := do
  let t ← current
  if !(← isAtEnd) then modify Tape.next
  pure t

/-- Passes the token at the position if its kind is one of those wanted. -/
def accept (wanted : Token.Kind → Bool) : Reader Bool := do
  if wanted (← current).kind then
    let _ ← advance
    pure true
  else pure false

/-- Passes a token of one kind, or stops with a complaint. -/
def consume (k : Token.Kind) (text : String) : Reader Token := do
  if ← sees k then advance
  else throw (.halt (.complaint (← current) (.expected text)))

/-- Adds a complaint to the report and goes on. -/
def complain (t : Token) (c : Complaint) : Reader Unit :=
  modify fun tape => { tape with report := tape.report.add (c.diagnose t tape.listing) }

/-! ### Loops

Each loop has a budget of one turn more than there are tokens. -/

/-- The budget of a loop. -/
def turns : Reader Nat :=
  return (← get).tokens.length + 1

/-- Repeats a step while a condition holds.  Steps without a result leave
none. -/
def whileFrom (more : Reader Bool) (step : Reader (Option α)) :
    (turns : Nat) → (found : Array α) → Reader (List α)
  | 0, _ => throw (.slip .endless)
  | turns + 1, found => do
    if ← more then
      let a? ← step
      whileFrom more step turns (a?.elim found found.push)
    else pure found.toList

/-- Repeats a step while a condition holds. -/
def whileMore (more : Reader Bool) (step : Reader (Option α)) : Reader (List α) := do
  whileFrom more step (← turns) #[]

/-- Reads operators and right operands, and joins them to the left operand. -/
def chainFrom (isOperator : Token.Kind → Bool) (join : Expr → Token → Expr → Expr)
    (operand : Reader Expr) : (turns : Nat) → (left : Expr) → Reader Expr
  | 0, _ => throw (.slip .endless)
  | turns + 1, left => do
    if ← accept isOperator then
      let op ← previous
      let right ← operand
      chainFrom isOperator join operand turns (join left op right)
    else pure left

/-- Operands divided by operators of one level, grouped from the left. -/
def chain (isOperator : Token.Kind → Bool) (join : Expr → Token → Expr → Expr)
    (operand : Reader Expr) : Reader Expr := do
  let left ← operand
  chainFrom isOperator join operand (← turns) left

/-- Reads an item and, while commas follow, further items. -/
def commaListFrom (what : String) (item : Reader α) :
    (turns : Nat) → (found : Array α) → Reader (List α)
  | 0, _ => throw (.slip .endless)
  | turns + 1, found => do
    if maxArguments ≤ found.size then
      complain (← current) (.tooMany what)
    let a ← item
    if ← accept (· == .comma) then commaListFrom what item turns (found.push a)
    else pure (found.push a).toList

/-- Items divided by commas, up to a closing parenthesis; possibly none. -/
def commaList (what : String) (item : Reader α) : Reader (List α) := do
  if ← sees .rightParen then pure []
  else commaListFrom what item (← turns) #[]

/-! ### Recovery -/

/-- Goes on to a place where a statement may begin: after a semicolon, or before
a word that begins one. -/
def skipFrom : (turns : Nat) → Reader Unit
  | 0 => throw (.slip .endless)
  | turns + 1 => do
    if ← isAtEnd then pure ()
    else if (← previous).kind == .semicolon then pure ()
    else if (← current).kind.startsStatement then pure ()
    else
      let _ ← advance
      skipFrom turns

/-- Gives up the token at the position, and goes on to the next place where a
statement may begin. -/
def synchronize : Reader Unit := do
  let _ ← advance
  skipFrom (← turns)

/-- A reader that does not stop unless it slips: it reports the reason instead,
and goes on where a statement may begin. -/
def recovering (p : Reader α) : Reader (Option α) := fun tape =>
  match p tape with
  | .ok a tape => .ok (some a) tape
  | .error (.halt (.complaint t why)) tape =>
    (do complain t why; synchronize; pure none : Reader (Option α)) tape
  | .error (.halt .tooDeep) tape =>
    (do complain (← current) .tooDeep; synchronize; pure none : Reader (Option α)) tape
  | .error (.slip s) tape => .error (.slip s) tape

/-! ### Loops and functions around the position -/

/-- Runs a computation and then changes the tape, however it ended. -/
def leaving (p : Reader α) (leave : Tape → Tape) : Reader α := fun tape =>
  match p tape with
  | .ok a tape => .ok a (leave tape)
  | .error e tape => .error e (leave tape)

/-- Reads the body of a loop. -/
def inLoop (p : Reader α) : Reader α := do
  modify fun tape => { tape with loopDepth := tape.loopDepth + 1 }
  leaving p fun tape => { tape with loopDepth := tape.loopDepth - 1 }

/-- Reads the body of a function, which is in none of the loops around it. -/
def inFunction (p : Reader α) : Reader α := do
  let depth := (← get).loopDepth
  modify fun tape => { tape with loopDepth := 0 }
  leaving p fun tape => { tape with loopDepth := depth }

/-! ### Expressions -/

/-- A token that stands for a value or a name, or an expression in
parentheses. -/
def primary (inner : Reader Expr) : Reader Expr := do
  let t ← current
  if ← accept isLiteral then pure (.literal t.literal)
  else if ← accept (· == .superKeyword) then
    let _ ← consume .dot "Expect '.' after 'super'."
    let method ← consume .identifier "Expect superclass method name."
    pure (.superRef { token := t } method)
  else if ← accept (· == .thisKeyword) then pure (.thisRef { token := t })
  else if ← accept (· == .identifier) then pure (.var { token := t })
  else if ← accept (· == .leftParen) then
    let e ← inner
    let _ ← consume .rightParen "Expect ')' after expression."
    pure (.grouping e)
  else throw (.halt (.complaint t (.expected "Expect expression.")))

/-- The arguments and the closing parenthesis of a call. -/
def finishCall (inner : Reader Expr) (callee : Expr) : Reader Expr := do
  let arguments ← commaList "arguments" inner
  let paren ← consume .rightParen "Expect ')' after arguments."
  pure (.call callee paren arguments)

/-- Reads calls and properties, each of the expression before it. -/
def suffixesFrom (inner : Reader Expr) : (turns : Nat) → (e : Expr) → Reader Expr
  | 0, _ => throw (.slip .endless)
  | turns + 1, e => do
    if ← accept (· == .leftParen) then
      suffixesFrom inner turns (← finishCall inner e)
    else if ← accept (· == .dot) then
      let name ← consume .identifier "Expect property name after '.'."
      suffixesFrom inner turns (.get e name)
    else pure e

/-- An expression followed by calls and properties. -/
def suffixes (inner operand : Reader Expr) : Reader Expr := do
  let e ← operand
  suffixesFrom inner (← turns) e

/-- The assignment of a value to what stands left of an equals sign. -/
def assignTo (target : Expr) (equals : Token) (value : Expr) : Reader Expr :=
  match target with
  | .var ref => pure (.assign ref value)
  | .get object name => pure (.set object name value)
  | _ => do
    complain equals .invalidTarget
    pure target

/-- The expressions of one level of precedence. -/
def expression : (frames : Nat) → Level → Reader Expr
  | 0, _ => throw (.halt .tooDeep)
  | n + 1, .assignment => do
    let e ← expression n .disjunction
    if ← accept (· == .equal) then
      let equals ← previous
      let value ← expression n .assignment
      assignTo e equals value
    else pure e
  | n + 1, .disjunction => chain (· == .orKeyword) .logical (expression n .conjunction)
  | n + 1, .conjunction => chain (· == .andKeyword) .logical (expression n .equality)
  | n + 1, .equality => chain isEquality .binary (expression n .comparison)
  | n + 1, .comparison => chain isComparison .binary (expression n .term)
  | n + 1, .term => chain isTerm .binary (expression n .factor)
  | n + 1, .factor => chain isFactor .binary (expression n .unary)
  | n + 1, .unary => do
    if ← accept isUnary then
      let op ← previous
      .unary op <$> expression n .unary
    else expression n .call
  | n + 1, .call => suffixes (expression n .assignment) (expression n .primary)
  | n + 1, .primary => primary (expression n .assignment)

/-! ### Statements -/

/-- An expression and a semicolon. -/
def expressionStatement (value : Reader Expr) : Reader Stmt := do
  let e ← value
  let _ ← consume .semicolon "Expect ';' after expression."
  pure (.expression e)

/-- What follows the word `var`. -/
def varDeclaration (value : Reader Expr) : Reader Stmt := do
  let name ← consume .identifier "Expect variable name."
  let init ← if ← accept (· == .equal) then some <$> value else pure none
  let _ ← consume .semicolon "Expect ';' after variable declaration."
  pure (.varDecl name init)

/-- What follows the word `print`. -/
def printStatement (value : Reader Expr) : Reader Stmt := do
  let e ← value
  let _ ← consume .semicolon "Expect ';' after value."
  pure (.print e)

/-- What follows the word `return`. -/
def returnStatement (value : Reader Expr) : Reader Stmt := do
  let keyword ← previous
  let e ← if ← sees .semicolon then pure none else some <$> value
  let _ ← consume .semicolon "Expect ';' after return value."
  pure (.returnWith keyword e)

/-- What follows the word `break`. -/
def breakStatement : Reader Stmt := do
  let keyword ← previous
  if (← get).loopDepth = 0 then complain keyword .breakOutsideLoop
  let _ ← consume .semicolon "Expect ';' after 'break'."
  pure (.breakLoop keyword)

/-- What follows the word `while`. -/
def whileStatement (value : Reader Expr) (body : Reader Stmt) : Reader Stmt := do
  let _ ← consume .leftParen "Expect '(' after 'while'."
  let condition ← value
  let _ ← consume .rightParen "Expect ')' after condition."
  .whileLoop condition <$> inLoop body

/-- What follows the word `if`. -/
def ifStatement (value : Reader Expr) (branch : Reader Stmt) : Reader Stmt := do
  let _ ← consume .leftParen "Expect '(' after 'if'."
  let condition ← value
  let _ ← consume .rightParen "Expect ')' after if condition."
  let thenBranch ← branch
  let elseBranch ← if ← accept (· == .elseKeyword) then some <$> branch else pure none
  pure (.ifElse condition thenBranch elseBranch)

/-- The initializer of a `for` loop, with its semicolon. -/
def forInit (value : Reader Expr) : Reader (Option Stmt) := do
  if ← accept (· == .semicolon) then pure none
  else if ← accept (· == .varKeyword) then some <$> varDeclaration value
  else some <$> expressionStatement value

/-- What follows the word `for`. -/
def forStatement (value : Reader Expr) (body : Reader Stmt) : Reader Stmt := do
  let _ ← consume .leftParen "Expect '(' after 'for'."
  let init ← forInit value
  let condition ← if ← sees .semicolon then pure none else some <$> value
  let _ ← consume .semicolon "Expect ';' after loop condition."
  let increment ← if ← sees .rightParen then pure none else some <$> value
  let _ ← consume .rightParen "Expect ')' after for clauses."
  forLoop init condition increment <$> inLoop body

/-- Whether neither a closing brace nor the end of the input is at the
position. -/
def inBody : Reader Bool := do
  if ← sees .rightBrace then pure false else return !(← isAtEnd)

/-- Declarations up to a closing brace. -/
def block (declaration : Reader (Option Stmt)) : Reader (List Stmt) := do
  let body ← whileMore inBody declaration
  let _ ← consume .rightBrace "Expect '\x7d' after block."
  pure body

/-- A function or method from its name on; `kind` says which it is. -/
def function (kind : String) (body : Reader (List Stmt)) : Reader Function := do
  let name ← consume .identifier ("Expect " ++ kind ++ " name.")
  let _ ← consume .leftParen ("Expect '(' after " ++ kind ++ " name.")
  let params ← commaList "parameters" (consume .identifier "Expect parameter name.")
  let _ ← consume .rightParen "Expect ')' after parameters."
  let _ ← consume .leftBrace ("Expect '\x7b' before " ++ kind ++ " body.")
  .mk name params <$> inFunction body

/-- The superclass of a class, if one is named. -/
def superclass : Reader (Option Reference) := do
  if ← accept (· == .less) then
    let _ ← consume .identifier "Expect superclass name after '<'."
    return some { token := ← previous }
  else pure none

/-- What follows the word `class`. -/
def classDeclaration (body : Reader (List Stmt)) : Reader Stmt := do
  let name ← consume .identifier "Expect class name."
  let parent ← superclass
  let _ ← consume .leftBrace "Expect '\x7b' before class body."
  let methods ← whileMore inBody (some <$> function "method" body)
  let _ ← consume .rightBrace "Expect '\x7d' after class body."
  pure (.classDecl name parent methods)

/-- A declaration or a statement, by its first token. -/
def declared (value : Reader Expr) (declaration : Reader (Option Stmt)) (other : Reader Stmt) :
    Reader Stmt := do
  if ← accept (· == .classKeyword) then classDeclaration (block declaration)
  else if ← accept (· == .funKeyword) then .funDecl <$> function "function" (block declaration)
  else if ← accept (· == .varKeyword) then varDeclaration value
  else other

mutual

/-- A statement. -/
def statement : (frames : Nat) → Reader Stmt
  | 0 => throw (.halt .tooDeep)
  | n + 1 => do
    let value := expression n .assignment
    if ← accept (· == .printKeyword) then printStatement value
    else if ← accept (· == .returnKeyword) then returnStatement value
    else if ← accept (· == .whileKeyword) then whileStatement value (statement n)
    else if ← accept (· == .forKeyword) then forStatement value (statement n)
    else if ← accept (· == .ifKeyword) then ifStatement value (statement n)
    else if ← accept (· == .breakKeyword) then breakStatement
    else if ← accept (· == .leftBrace) then .block <$> block (declaration n)
    else expressionStatement value

/-- A declaration, if it has no mistake. -/
def declaration : (frames : Nat) → Reader (Option Stmt)
  | 0 => throw (.halt .tooDeep)
  | n + 1 => recovering (declared (expression n .assignment) (declaration n) (statement n))

end

/-- Whether there are tokens left and the report is not full. -/
def inProgram : Reader Bool := do
  if ← isAtEnd then pure false else return !(← get).report.isFull

/-- Declarations up to the end of the input, or until the report is full. -/
def program (frames : Nat) : Reader (List Stmt) :=
  whileMore inProgram (declaration frames)

end Reader

end Lox.Tree
