/-
Programs as they are written.

Reading turns a `for` loop into a block and a `while` loop at once.  Here the loops are kept:
the trees have a constructor for them, and the same grammar gives such trees.  What is read
otherwise is what they stand for.

* `Statement`, `Declaration`, `Routine` — trees that keep `for` loops; a statement declares
  nothing, and so does the body of a loop;
* `Statement.tree`, `Declaration.tree`, `Routine.tree` — the trees they stand for;
* `statement`, `declaration`, `parse` — the grammar;
* `map_sentences` — rule by rule, both readings go side by side;
* `parse_tree` — and so do they for whole programs.
-/
import Lox.Proofs.Quiet
import Lox.Tree.Parse

namespace Lox.Written

open Lox.Tree (Parser)
open Lox.Tree.Parser

/-! ### Trees -/

/-- What a `for` loop does first. -/
inductive Initializer where
  | declares (name : Token) (value : Option Expr)
  | evaluates (e : Expr)

mutual

/-- Statements; they declare nothing. -/
inductive Statement where
  | expression (e : Expr)
  | print (e : Expr)
  | block (body : List Declaration)
  | ifElse (condition : Expr) (thenBranch : Statement) (elseBranch : Option Statement)
  | whileLoop (condition : Expr) (body : Statement)
  | forLoop (init : Option Initializer) (condition increment : Option Expr) (body : Statement)
  | breakLoop (keyword : Token)
  | returnWith (keyword : Token) (value : Option Expr)

/-- Declarations and statements. -/
inductive Declaration where
  | varDecl (name : Token) (init : Option Expr)
  | funDecl (f : Routine)
  | classDecl (name : Token) (superclass : Option Reference) (methods : List Routine)
  | statement (s : Statement)

/-- The declaration of a function or a method. -/
inductive Routine where
  | mk (name : Token) (params : List Token) (body : List Declaration)

end

/-- The name a function is declared with. -/
def Routine.name : Routine → Token
  | mk name _ _ => name

/-- The declarations and statements of a function. -/
def Routine.body : Routine → List Declaration
  | mk _ _ body => body

/-- An initializer as a declaration or a statement. -/
def Initializer.declaration : Initializer → Declaration
  | declares name value => .varDecl name value
  | evaluates e => .statement (.expression e)

/-! ### What they stand for -/

/-- The tree of an initializer. -/
def Initializer.tree : Initializer → Stmt
  | declares name value => .varDecl name value
  | evaluates e => .expression e

mutual

/-- The tree of a statement. -/
def Statement.tree : Statement → Stmt
  | .expression e => .expression e
  | .print e => .print e
  | .block body => .block (body.map Declaration.tree)
  | .ifElse condition thenBranch none => .ifElse condition thenBranch.tree none
  | .ifElse condition thenBranch (some s) => .ifElse condition thenBranch.tree (some s.tree)
  | .whileLoop condition body => .whileLoop condition body.tree
  | .forLoop init condition increment body =>
    Tree.forLoop (init.map Initializer.tree) condition increment body.tree
  | .breakLoop keyword => .breakLoop keyword
  | .returnWith keyword value => .returnWith keyword value

/-- The tree of a declaration. -/
def Declaration.tree : Declaration → Stmt
  | .varDecl name init => .varDecl name init
  | .funDecl f => .funDecl f.tree
  | .classDecl name superclass methods => .classDecl name superclass (methods.map Routine.tree)
  | .statement s => s.tree

/-- The tree of a function. -/
def Routine.tree : Routine → Function
  | .mk name params body => .mk name params (body.map Declaration.tree)

end

theorem Statement.tree_ifElse (condition : Expr) (s : Statement) (other : Option Statement) :
    (Statement.ifElse condition s other).tree = .ifElse condition s.tree (other.map tree) := by
  cases other with
  | none => rw [tree]; rfl
  | some t => rw [tree]; rfl

theorem Initializer.declaration_tree (i : Initializer) : i.declaration.tree = i.tree := by
  cases i with
  | declares name value => rw [declaration, Declaration.tree, tree]
  | evaluates e => rw [declaration, Declaration.tree, Statement.tree, tree]

theorem Routine.tree_name (f : Routine) : f.tree.name = f.name := by
  obtain ⟨name, params, body⟩ := f
  rw [tree]
  rfl

theorem Routine.tree_body (f : Routine) : f.tree.body = f.body.map Declaration.tree := by
  obtain ⟨name, params, body⟩ := f
  rw [tree]
  rfl

/-! ### The grammar -/

/-- An expression and a semicolon. -/
def terminated (text : String) (value : Parser Expr) : Parser Expr := do
  let e ← value
  let _ ← expect .semicolon text
  pure e

/-- What follows the word `var`. -/
def variableOf (value : Parser Expr) : Parser (Token × Option Expr) := do
  let name ← expect .identifier "Expect variable name."
  let init ← if ← skips .equal then some <$> value else pure none
  let _ ← expect .semicolon "Expect ';' after variable declaration."
  pure (name, init)

/-- What follows the word `return`. -/
def returnStatement (keyword : Token) (value : Parser Expr) : Parser Statement := do
  let e ← if (← get).sees .semicolon then pure none else some <$> value
  let _ ← expect .semicolon "Expect ';' after return value."
  pure (.returnWith keyword e)

/-- What follows the word `break`. -/
def breakStatement (keyword : Token) (inLoop : Bool) : Parser Statement := do
  unless inLoop do complain keyword .breakOutsideLoop
  let _ ← expect .semicolon "Expect ';' after 'break'."
  pure (.breakLoop keyword)

/-- What follows the word `while`. -/
def whileStatement (value : Parser Expr) (body : Parser Statement) : Parser Statement := do
  let _ ← expect .leftParen "Expect '(' after 'while'."
  let condition ← value
  let _ ← expect .rightParen "Expect ')' after condition."
  .whileLoop condition <$> body

/-- What follows the word `if`. -/
def ifStatement (value : Parser Expr) (branch : Parser Statement) : Parser Statement := do
  let _ ← expect .leftParen "Expect '(' after 'if'."
  let condition ← value
  let _ ← expect .rightParen "Expect ')' after if condition."
  let thenBranch ← branch
  let elseBranch ← if ← skips .elseKeyword then some <$> branch else pure none
  pure (.ifElse condition thenBranch elseBranch)

/-- The initializer of a `for` loop, with its semicolon. -/
def forInit (value : Parser Expr) : Parser (Option Initializer) := do
  if ← skips .semicolon then pure none
  else if ← skips .varKeyword then
    (fun v => some (.declares v.1 v.2)) <$> variableOf value
  else (fun e => some (.evaluates e)) <$> terminated "Expect ';' after expression." value

/-- What follows the word `for`. -/
def forStatement (value : Parser Expr) (body : Parser Statement) : Parser Statement := do
  let _ ← expect .leftParen "Expect '(' after 'for'."
  let init ← forInit value
  let condition ← if (← get).sees .semicolon then pure none else some <$> value
  let _ ← expect .semicolon "Expect ';' after loop condition."
  let increment ← if (← get).sees .rightParen then pure none else some <$> value
  let _ ← expect .rightParen "Expect ')' after for clauses."
  .forLoop init condition increment <$> body

/-- Declarations up to a closing brace. -/
def block (declaration : Parser (Option Declaration)) : Parser (List Declaration) := do
  let body ← many (fun c => !c.sees .rightBrace && !c.atEnd) declaration
  let _ ← expect .rightBrace "Expect '\x7d' after block."
  pure body

/-- A function or method from its name on; `kind` says which it is. -/
def function (kind : String) (body : Parser (List Declaration)) : Parser Routine := do
  let name ← expect .identifier ("Expect " ++ kind ++ " name.")
  let _ ← expect .leftParen ("Expect '(' after " ++ kind ++ " name.")
  let params ← commaList "parameters" (expect .identifier "Expect parameter name.")
  let _ ← expect .rightParen "Expect ')' after parameters."
  let _ ← expect .leftBrace ("Expect '\x7b' before " ++ kind ++ " body.")
  .mk name params <$> body

/-- What follows the word `class`. -/
def classDeclaration (body : Parser (List Declaration)) : Parser Declaration := do
  let name ← expect .identifier "Expect class name."
  let parent ← Tree.superclass
  let _ ← expect .leftBrace "Expect '\x7b' before class body."
  let methods ← many (fun c => !c.sees .rightBrace && !c.atEnd)
    (some <$> function "method" body)
  let _ ← expect .rightBrace "Expect '\x7d' after class body."
  pure (.classDecl name parent methods)

mutual

/-- A statement; `inLoop` says whether a loop of the same function is around it. -/
def statement : (frames : Nat) → (inLoop : Bool) → Parser Statement
  | 0, _ => throw .tooDeep
  | n + 1, inLoop => do
    let value := Tree.expression n .assignment
    let t ← peek
    match t.kind with
    | .printKeyword =>
      let _ ← advance
      .print <$> terminated "Expect ';' after value." value
    | .returnKeyword =>
      let _ ← advance
      returnStatement t value
    | .whileKeyword =>
      let _ ← advance
      whileStatement value (statement n true)
    | .forKeyword =>
      let _ ← advance
      forStatement value (statement n true)
    | .ifKeyword =>
      let _ ← advance
      ifStatement value (statement n inLoop)
    | .breakKeyword =>
      let _ ← advance
      breakStatement t inLoop
    | .leftBrace =>
      let _ ← advance
      .block <$> block (declaration n inLoop)
    | _ => .expression <$> terminated "Expect ';' after expression." value

/-- A declaration, if it has no mistake. -/
def declaration : (frames : Nat) → (inLoop : Bool) → Parser (Option Declaration)
  | 0, _ => throw .tooDeep
  | n + 1, inLoop => recovering do
    if ← skips .classKeyword then classDeclaration (block (declaration n false))
    else if ← skips .funKeyword then
      .funDecl <$> function "function" (block (declaration n false))
    else if ← skips .varKeyword then
      (fun v => .varDecl v.1 v.2) <$> variableOf (Tree.expression n .assignment)
    else .statement <$> statement n inLoop

end

/-- Declarations up to the end of the input, or until the report is full. -/
def program (frames : Nat) : Parser (List Declaration) :=
  many (fun c => !c.atEnd && !c.report.isFull) (declaration frames false)

/-- The declarations and statements of a list of tokens. -/
def parse (frames : Nat) (tokens : List Token) (listing : Listing) (report : Report) :
    List Declaration :=
  match program frames (Tree.Cursor.ofTokens tokens listing report) with
  | .ok declarations _ => declarations
  | .error _ _ => []

/-! ### Both readings -/

section Reading

variable {value : Parser Expr} {α β : Type}

/-- A choice between two computations that are mapped alike. -/
theorem map_ite (f : α → β) (c : Bool) (p q : Parser α) :
    f <$> (if c then p else q) = if c then f <$> p else f <$> q := by
  cases c <;> rfl

theorem map_printStatement :
    Statement.tree <$> .print <$> terminated "Expect ';' after value." value =
      Tree.printStatement value := by
  simp [terminated, Tree.printStatement, Statement.tree]

theorem map_expressionStatement :
    Statement.tree <$> .expression <$> terminated "Expect ';' after expression." value =
      Tree.expressionStatement value := by
  simp [terminated, Tree.expressionStatement, Statement.tree]

theorem map_variableOf :
    (fun v => Stmt.varDecl v.1 v.2) <$> variableOf value = Tree.varDeclaration value := by
  simp [variableOf, Tree.varDeclaration, map_ite]

theorem map_returnStatement (keyword : Token) :
    Statement.tree <$> returnStatement keyword value = Tree.returnStatement keyword value := by
  simp [returnStatement, Tree.returnStatement, map_ite, Statement.tree]

theorem map_breakStatement (keyword : Token) (inLoop : Bool) :
    Statement.tree <$> breakStatement keyword inLoop = Tree.breakStatement keyword inLoop := by
  cases inLoop <;> simp [breakStatement, Tree.breakStatement, Statement.tree]

theorem map_forInit :
    Option.map Initializer.tree <$> forInit value = Tree.forInit value := by
  simp [forInit, Tree.forInit, map_ite, ← map_variableOf, Tree.expressionStatement, terminated,
    Initializer.tree]

variable {body : Parser Statement}

theorem map_whileStatement : Statement.tree <$> whileStatement value body =
    Tree.whileStatement value (Statement.tree <$> body) := by
  simp [whileStatement, Tree.whileStatement, Statement.tree]

theorem map_ifStatement : Statement.tree <$> ifStatement value body =
    Tree.ifStatement value (Statement.tree <$> body) := by
  simp [ifStatement, Tree.ifStatement, map_ite, Statement.tree_ifElse]

theorem map_forStatement : Statement.tree <$> forStatement value body =
    Tree.forStatement value (Statement.tree <$> body) := by
  simp [forStatement, Tree.forStatement, map_ite, ← map_forInit, Statement.tree]

/-- Loops whose steps give what belongs together. -/
theorem map_manyFrom (f : α → β) (more : Tree.Cursor → Bool) (step : Parser (Option α))
    (fuel : Nat) : ∀ found : Array α, List.map f <$> manyFrom more step fuel found =
      manyFrom more (Option.map f <$> step) fuel (found.map f) := by
  induction fuel with
  | zero => simp [manyFrom]
  | succ fuel ih =>
    intro found
    simp only [manyFrom, map_bind, map_ite, bind_map_left, ih, map_pure, Array.toList_map]
    refine bind_congr fun c => congrArg (fun p => if more c then p else _) ?_
    refine bind_congr fun a? => ?_
    cases a? with
    | none => rfl
    | some a => simp

theorem map_many (f : α → β) (more : Tree.Cursor → Bool) (step : Parser (Option α)) :
    List.map f <$> many more step = many more (Option.map f <$> step) := by
  simp [many, map_manyFrom]

theorem map_recovering (f : α → β) (p : Parser α) :
    Option.map f <$> recovering p = recovering (f <$> p) := by
  funext c
  rw [map_eq_pure_bind]
  cases h : p c with
  | ok a c' =>
    have hp : recovering p c = .ok (some a) c' := by
      unfold recovering
      rw [h]
    have hf : recovering (f <$> p) c = .ok (some (f a)) c' := by
      unfold recovering
      rw [map_eq_pure_bind, bind_ok h]
      rfl
    rw [bind_ok hp, hf]
    rfl
  | error e c' =>
    -- Both complain about the same, and leave nothing.
    have hnone : ∀ {γ : Type} {q : Parser γ}, q c = .error e c' → recovering q c =
        .ok none (EStateM.Result.final (recovering p c)) := by
      intro γ q hq
      unfold recovering
      rw [hq, h]
      cases e <;> rfl
    have hf : (f <$> p) c = .error e c' := by rw [map_eq_pure_bind, bind_error h]
    rw [bind_ok (hnone h), hnone hf]
    rfl

variable {declarations : Parser (Option Declaration)} {stmts : Parser (List Declaration)}

theorem map_block : List.map Declaration.tree <$> block declarations =
    Tree.block (Option.map Declaration.tree <$> declarations) := by
  simp [block, Tree.block, ← map_many]

theorem map_function (kind : String) : Routine.tree <$> function kind stmts =
    Tree.function kind (List.map Declaration.tree <$> stmts) := by
  simp [function, Tree.function, Routine.tree]

theorem map_classDeclaration : Declaration.tree <$> classDeclaration stmts =
    Tree.classDeclaration (List.map Declaration.tree <$> stmts) := by
  have hmethods : some <$> Tree.function "method" (List.map Declaration.tree <$> stmts) =
      Option.map Routine.tree <$> some <$> function "method" stmts := by
    simp [← map_function]
  simp only [classDeclaration, Tree.classDeclaration, hmethods, ← map_many, map_bind,
    bind_map_left, map_pure, Declaration.tree]

/-- Rule by rule, what is read is the tree of what is written. -/
theorem map_sentences (n : Nat) :
    (∀ inLoop, Statement.tree <$> statement n inLoop = Tree.statement n inLoop) ∧
    ∀ inLoop, Option.map Declaration.tree <$> declaration n inLoop =
      Tree.declaration n inLoop := by
  -- By induction on the frames, statements and declarations together.
  induction n with
  | zero =>
    constructor
    · intro inLoop
      rw [statement, Tree.statement]
      rfl
    · intro inLoop
      rw [declaration, Tree.declaration]
      rfl
  | succ n ih =>
    obtain ⟨hs, hd⟩ := ih
    constructor
    · intro inLoop
      rw [statement, Tree.statement, map_bind]
      refine bind_congr fun t => ?_
      simp only [← hs, ← hd, ← map_block]
      cases t.kind <;> simp only [map_bind, ← map_printStatement, ← map_expressionStatement,
        map_returnStatement, map_whileStatement, map_forStatement, map_ifStatement,
        map_breakStatement, Functor.map_map, Statement.tree]
    · intro inLoop
      have hbody := hd false
      rw [declaration, Tree.declaration, map_recovering]
      simp only [map_bind, map_ite, ← hs, ← hd, ← map_block, ← map_function, ← map_variableOf,
        map_classDeclaration, Functor.map_map, Declaration.tree]

theorem map_program (frames : Nat) :
    List.map Declaration.tree <$> program frames = Tree.program frames := by
  rw [program, Tree.program, map_many, (map_sentences frames).2]

/-- What is read is the tree of what is written, whatever the tokens are. -/
theorem parse_tree (frames : Nat) (tokens : List Token) (listing : Listing) (report : Report) :
    (Tree.parse frames tokens listing report).1 =
      (parse frames tokens listing report).map Declaration.tree := by
  unfold Tree.parse parse
  rw [← map_program, map_eq_pure_bind]
  cases h : program frames (Tree.Cursor.ofTokens tokens listing report) with
  | ok declarations c =>
    rw [bind_ok h]
    rfl
  | error e c =>
    rw [bind_error h]
    rfl

end Reading

end Lox.Written
