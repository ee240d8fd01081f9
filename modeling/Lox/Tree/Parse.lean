/-
From tokens to trees.

The grammar, with the operators of each level grouped from the left, and
assignment and unary operators from the right:

  declaration ← class | fun | var | statement
  statement   ← print | return | while | for | if | break | block | expression ;
  assignment  ← (call .)? IDENTIFIER = assignment | or
  or, and, == !=, < <= > >=, + -, * /, unary ! -, calls and properties, primary

A `for` loop is read as the block and `while` loop that it stands for.  Every
rule that is entered uses up one frame of a budget; when none is left the
program is nested too deeply.  A mistake inside a declaration is reported, and
reading goes on where the next statement may begin.

* `Level` — the levels of precedence;
* `expression` — one level of expressions;
* `statement`, `declaration` — statements, in a loop or not;
* `parse` — the statements of a list of tokens.
-/
import Lox.Tree.Cursor

namespace Lox.Tree

open Lox.Tree.Parser

/-! ### Expressions -/

/-- The levels of precedence, from the loosest to the tightest. -/
inductive Level where
  | assignment | disjunction | conjunction | equality | comparison | term | factor
  | unary | call | primary
  deriving DecidableEq, Repr

/-- The binary operators of equality. -/
def isEquality (k : Token.Kind) : Bool :=
  k == .bangEqual || k == .equalEqual

/-- The binary operators that compare. -/
def isComparison (k : Token.Kind) : Bool :=
  k == .greater || k == .greaterEqual || k == .less || k == .lessEqual

/-- The binary operators that add. -/
def isTerm (k : Token.Kind) : Bool :=
  k == .minus || k == .plus

/-- The binary operators that multiply. -/
def isFactor (k : Token.Kind) : Bool :=
  k == .slash || k == .star

/-- The unary operators. -/
def isUnary (k : Token.Kind) : Bool :=
  k == .bang || k == .minus

/-- The tokens that are expressions by their own value. -/
def isLiteral (k : Token.Kind) : Bool :=
  k == .falseKeyword || k == .trueKeyword || k == .nilKeyword || k == .number || k == .string

/-- A token that stands for a value or a name, or an expression in
parentheses. -/
def primary (inner : Parser Expr) : Parser Expr := do
  let t ← peek
  if isLiteral t.kind then
    let _ ← advance
    pure (.literal t.literal)
  else match t.kind with
    | .superKeyword =>
      let _ ← advance
      let _ ← expect .dot "Expect '.' after 'super'."
      let method ← expect .identifier "Expect superclass method name."
      pure (.superRef { token := t } method)
    | .thisKeyword =>
      let _ ← advance
      pure (.thisRef { token := t })
    | .identifier =>
      let _ ← advance
      pure (.var { token := t })
    | .leftParen =>
      let _ ← advance
      let e ← inner
      let _ ← expect .rightParen "Expect ')' after expression."
      pure (.grouping e)
    | _ => throw (.complaint t (.expected "Expect expression."))

/-- The arguments and the closing parenthesis of a call. -/
def finishCall (inner : Parser Expr) (callee : Expr) : Parser Expr := do
  let arguments ← commaList "arguments" inner
  let paren ← expect .rightParen "Expect ')' after arguments."
  pure (.call callee paren arguments)

/-- Whether a token continues an expression as a call or a property. -/
def isSuffix (k : Token.Kind) : Bool :=
  k == .leftParen || k == .dot

/-- Reads calls and properties, each of the expression before it. -/
def suffixesFrom (inner : Parser Expr) : (fuel : Nat) → (e : Expr) → Parser Expr
  | 0, e => pure e
  | fuel + 1, e => do
    if ← skips .leftParen then
      suffixesFrom inner fuel (← finishCall inner e)
    else if ← skips .dot then
      let name ← expect .identifier "Expect property name after '.'."
      suffixesFrom inner fuel (.get e name)
    else pure e

/-- An expression followed by calls and properties. -/
def suffixes (inner operand : Parser Expr) : Parser Expr := do
  let e ← operand
  if isSuffix (← peek).kind then suffixesFrom inner (← get).ahead.length e
  else pure e

/-- The assignment of a value to what stands left of an equals sign. -/
def assignTo (target : Expr) (equals : Token) (value : Expr) : Parser Expr :=
  match target with
  | .var ref => pure (.assign ref value)
  | .get object name => pure (.set object name value)
  | _ => do
    complain equals .invalidTarget
    pure target

/-- The expressions of one level of precedence. -/
def expression : (frames : Nat) → Level → Parser Expr
  | 0, _ => throw .tooDeep
  | n + 1, .assignment => do
    let e ← expression n .disjunction
    match ← accept (· == .equal) with
    | some equals =>
      let value ← expression n .assignment
      assignTo e equals value
    | none => pure e
  | n + 1, .disjunction => chainLeft (· == .orKeyword) .logical (expression n .conjunction)
  | n + 1, .conjunction => chainLeft (· == .andKeyword) .logical (expression n .equality)
  | n + 1, .equality => chainLeft isEquality .binary (expression n .comparison)
  | n + 1, .comparison => chainLeft isComparison .binary (expression n .term)
  | n + 1, .term => chainLeft isTerm .binary (expression n .factor)
  | n + 1, .factor => chainLeft isFactor .binary (expression n .unary)
  | n + 1, .unary => do
    match ← accept isUnary with
    | some op => .unary op <$> expression n .unary
    | none => expression n .call
  | n + 1, .call => suffixes (expression n .assignment) (expression n .primary)
  | n + 1, .primary => primary (expression n .assignment)

/-! ### Statements -/

/-- An expression and a semicolon. -/
def expressionStatement (value : Parser Expr) : Parser Stmt := do
  let e ← value
  let _ ← expect .semicolon "Expect ';' after expression."
  pure (.expression e)

/-- What follows the word `var`. -/
def varDeclaration (value : Parser Expr) : Parser Stmt := do
  let name ← expect .identifier "Expect variable name."
  let init ← if ← skips .equal then some <$> value else pure none
  let _ ← expect .semicolon "Expect ';' after variable declaration."
  pure (.varDecl name init)

/-- What follows the word `print`. -/
def printStatement (value : Parser Expr) : Parser Stmt := do
  let e ← value
  let _ ← expect .semicolon "Expect ';' after value."
  pure (.print e)

/-- What follows the word `return`. -/
def returnStatement (keyword : Token) (value : Parser Expr) : Parser Stmt := do
  let e ← if (← get).sees .semicolon then pure none else some <$> value
  let _ ← expect .semicolon "Expect ';' after return value."
  pure (.returnWith keyword e)

/-- What follows the word `break`. -/
def breakStatement (keyword : Token) (inLoop : Bool) : Parser Stmt := do
  unless inLoop do complain keyword .breakOutsideLoop
  let _ ← expect .semicolon "Expect ';' after 'break'."
  pure (.breakLoop keyword)

/-- What follows the word `while`. -/
def whileStatement (value : Parser Expr) (body : Parser Stmt) : Parser Stmt := do
  let _ ← expect .leftParen "Expect '(' after 'while'."
  let condition ← value
  let _ ← expect .rightParen "Expect ')' after condition."
  .whileLoop condition <$> body

/-- What follows the word `if`. -/
def ifStatement (value : Parser Expr) (branch : Parser Stmt) : Parser Stmt := do
  let _ ← expect .leftParen "Expect '(' after 'if'."
  let condition ← value
  let _ ← expect .rightParen "Expect ')' after if condition."
  let thenBranch ← branch
  let elseBranch ← if ← skips .elseKeyword then some <$> branch else pure none
  pure (.ifElse condition thenBranch elseBranch)

/-- The tree that a `for` loop stands for: a `while` loop whose body ends with
the increment, in a block after the initializer.  A missing condition is
true. -/
def forLoop (init : Option Stmt) (condition increment : Option Expr) (body : Stmt) : Stmt :=
  let body := increment.elim body fun e => .block [body, .expression e]
  let loop := .whileLoop (condition.getD (.literal (.bool true))) body
  init.elim loop fun i => .block [i, loop]

/-- The initializer of a `for` loop, with its semicolon. -/
def forInit (value : Parser Expr) : Parser (Option Stmt) := do
  if ← skips .semicolon then pure none
  else if ← skips .varKeyword then some <$> varDeclaration value
  else some <$> expressionStatement value

/-- What follows the word `for`. -/
def forStatement (value : Parser Expr) (body : Parser Stmt) : Parser Stmt := do
  let _ ← expect .leftParen "Expect '(' after 'for'."
  let init ← forInit value
  let condition ← if (← get).sees .semicolon then pure none else some <$> value
  let _ ← expect .semicolon "Expect ';' after loop condition."
  let increment ← if (← get).sees .rightParen then pure none else some <$> value
  let _ ← expect .rightParen "Expect ')' after for clauses."
  forLoop init condition increment <$> body

/-- Declarations up to a closing brace. -/
def block (declaration : Parser (Option Stmt)) : Parser (List Stmt) := do
  let body ← many (fun c => !c.sees .rightBrace && !c.atEnd) declaration
  let _ ← expect .rightBrace "Expect '\x7d' after block."
  pure body

/-- A function or method from its name on; `kind` says which it is. -/
def function (kind : String) (body : Parser (List Stmt)) : Parser Function := do
  let name ← expect .identifier ("Expect " ++ kind ++ " name.")
  let _ ← expect .leftParen ("Expect '(' after " ++ kind ++ " name.")
  let params ← commaList "parameters" (expect .identifier "Expect parameter name.")
  let _ ← expect .rightParen "Expect ')' after parameters."
  let _ ← expect .leftBrace ("Expect '\x7b' before " ++ kind ++ " body.")
  .mk name params <$> body

/-- The superclass of a class, if one is named. -/
def superclass : Parser (Option Reference) := do
  if ← skips .less then
    let name ← expect .identifier "Expect superclass name after '<'."
    pure (some { token := name })
  else pure none

/-- What follows the word `class`. -/
def classDeclaration (body : Parser (List Stmt)) : Parser Stmt := do
  let name ← expect .identifier "Expect class name."
  let parent ← superclass
  let _ ← expect .leftBrace "Expect '\x7b' before class body."
  let methods ← many (fun c => !c.sees .rightBrace && !c.atEnd)
    (some <$> function "method" body)
  let _ ← expect .rightBrace "Expect '\x7d' after class body."
  pure (.classDecl name parent methods)

mutual

/-- A statement; `inLoop` says whether a loop of the same function is around
it. -/
def statement : (frames : Nat) → (inLoop : Bool) → Parser Stmt
  | 0, _ => throw .tooDeep
  | n + 1, inLoop => do
    let value := expression n .assignment
    let t ← peek
    match t.kind with
    | .printKeyword =>
      let _ ← advance
      printStatement value
    | .returnKeyword =>
      let _ ← advance
      returnStatement t value
    | .whileKeyword =>
      let _ ← advance
      whileStatement value (statement n true)
    | .forKeyword =>
      let _ ← advance
      forStatement value (statement n true)
    | .ifKeyword =>
      let _ ← advance
      ifStatement value (statement n inLoop)
    | .breakKeyword =>
      let _ ← advance
      breakStatement t inLoop
    | .leftBrace =>
      let _ ← advance
      .block <$> block (declaration n inLoop)
    | _ => expressionStatement value

/-- A declaration, if it has no mistake. -/
def declaration : (frames : Nat) → (inLoop : Bool) → Parser (Option Stmt)
  | 0, _ => throw .tooDeep
  | n + 1, inLoop => recovering do
    if ← skips .classKeyword then classDeclaration (block (declaration n false))
    else if ← skips .funKeyword then
      .funDecl <$> function "function" (block (declaration n false))
    else if ← skips .varKeyword then varDeclaration (expression n .assignment)
    else statement n inLoop

end

/-! ### The whole program -/

/-- Declarations up to the end of the input, or until the report is full. -/
def program (frames : Nat) : Parser (List Stmt) :=
  many (fun c => !c.atEnd && !c.report.isFull) (declaration frames false)

/-- The statements of a list of tokens, and a report that goes on from
`report`. -/
def parse (frames : Nat) (tokens : List Token) (listing : Listing) (report : Report) :
    List Stmt × Report :=
  match program frames (Cursor.ofTokens tokens listing report) with
  | .ok statements c => (statements, c.report)
  | .error _ c => ([], c.report)

end Lox.Tree
