/-
Which declaration every use of a name refers to.

Resolution walks over a tree once, with the scopes around the place it is at.
It gives the tree back with the distance of every use of a local name filled
in, a list of those uses in the order they were found, and a report of the
problems.  Uses that no local scope declares stay without a distance.

Every node that is entered uses up one frame of a budget, and so does every
other call on the way: for a list of statements, for a function or a class, to
open a scope, to declare a name.  A top-level statement that needs more is given
up and reported as a whole.  Its scopes are closed again; the kind of function
or class is not put back if the call that failed was the one that opens the scope
of a function or declares the name of a class.

* `Use` — a use of a local name and its distance;
* `Context` — where resolution is, and what it has found;
* `call` — a call, and the frame for it;
* `inScope`, `inFunction`, `inClass` — what is around a computation while it runs;
* `expression`, `statement`, `function`, `classDecl` — resolution of trees;
* `resolve` — resolution of a whole program.
-/
import Lox.Scope
import Lox.Tree.FirstToken

namespace Lox.Scope

/-- What a name is used for. -/
inductive UseKind where
  | variable_
  | assignment
  | this_
  | super_
  deriving DecidableEq, Repr

/-- The name of the kind of node that a use stands in. -/
def UseKind.name : UseKind → String
  | variable_ => "Variable"
  | assignment => "Assign"
  | this_ => "This"
  | super_ => "Super"

/-- A use of a local name. -/
structure Use where
  kind : UseKind
  token : Token
  hops : Nat

/-- What kind of function is around a place. -/
inductive FunctionKind where
  | none
  | function
  | method
  | initializer
  deriving DecidableEq, Repr

/-- What kind of class is around a place. -/
inductive ClassKind where
  | none
  | plain
  | subclass
  deriving DecidableEq, Repr

/-- Where resolution is, and what it has found. -/
structure Context where
  scopes : Scopes := []
  functionKind : FunctionKind := .none
  classKind : ClassKind := .none
  uses : Array Use := #[]
  listing : Listing
  report : Report

/-- Why resolution stopped. -/
inductive Halt where
  | tooDeep
  /-- A node of this kind is no statement. -/
  | noStatement (kind : String)
  /-- A node of this kind is no expression. -/
  | noExpression (kind : String)

/-- A computation that resolves. -/
abbrev Resolver := EStateM Halt Context

namespace Resolver

/-! ### Scopes and problems -/

/-- Adds a problem at a token to the report. -/
def complain (t : Token) (p : Problem) : Resolver Unit :=
  modify fun c => { c with report := c.report.add (p.diagnose t c.listing) }

/-- Runs a computation and then changes the context, however it ended. -/
def leaving (p : Resolver α) (leave : Context → Context) : Resolver α := fun c =>
  match p c with
  | .ok a c => .ok a (leave c)
  | .error e c => .error e (leave c)

/-- A call uses up one frame of those that are left. -/
def call : (frames : Nat) → Resolver Unit
  | 0 => throw .tooDeep
  | _ + 1 => pure ()

/-- Runs a computation inside one more scope. -/
def withScope (scope : Names) (p : Resolver α) : Resolver α := do
  modify fun c => { c with scopes := scope :: c.scopes }
  leaving p fun c => { c with scopes := c.scopes.tail }

/-- Opens a scope, by a call, and runs a computation inside of it. -/
def inScope (frames : Nat) (scope : Names) (p : Resolver α) : Resolver α := do
  call frames
  withScope scope p

/-- Runs a computation inside a function of some kind.  Where `first` fails, the
kind is not put back. -/
def inFunction (kind : FunctionKind) (first : Resolver Unit) (p : Resolver α) :
    Resolver α := do
  let outer := (← get).functionKind
  modify fun c => { c with functionKind := kind }
  first
  leaving p fun c => { c with functionKind := outer }

/-- Runs a computation inside a class.  Where `first` fails, the kind of class is
not put back. -/
def inClass (first : Resolver Unit) (p : Resolver α) : Resolver α := do
  let outer := (← get).classKind
  modify fun c => { c with classKind := .plain }
  first
  leaving p fun c => { c with classKind := outer }

/-- From here on the class has a superclass. -/
def inherit : Resolver Unit :=
  modify fun c => { c with classKind := .subclass }

/-- Declares a name; a second declaration in one scope is a problem. -/
def declare (frames : Nat) (name : Token) : Resolver Unit := do
  call frames
  if (← get).scopes.redeclares name.lexeme then complain name .redeclared
  modify fun c => { c with scopes := c.scopes.declare name.lexeme }

/-- Makes a declared name ready for use. -/
def define (frames : Nat) (name : Token) : Resolver Unit := do
  call frames
  modify fun c => { c with scopes := c.scopes.define name.lexeme }

/-- Fills in the distance of a use. -/
def locate (kind : UseKind) (ref : Reference) : Resolver Reference := do
  match (← get).scopes.hops? ref.name with
  | some hops =>
    modify fun c => { c with uses := c.uses.push ⟨kind, ref.token, hops⟩ }
    pure { ref with hops := some hops }
  | none => pure { ref with hops := none }

/-- A variable that is read; not, though, in its own initializer. -/
def readVariable (ref : Reference) : Resolver Reference := do
  if (← get).scopes.isPending ref.name then complain ref.token .ownInitializer
  locate .variable_ ref

end Resolver

open Resolver

/-! ### Trees -/

/-- Resolves an expression. -/
def expression : (frames : Nat) → Expr → Resolver Expr
  | 0, _ => throw .tooDeep
  | n + 1, e =>
    match e with
    | .literal value => pure (.literal value)
    | .grouping inner => .grouping <$> expression n inner
    | .unary op right => .unary op <$> expression n right
    | .binary left op right => do
      let left ← expression n left
      let right ← expression n right
      pure (.binary left op right)
    | .logical left op right => do
      let left ← expression n left
      let right ← expression n right
      pure (.logical left op right)
    | .var ref => .var <$> readVariable ref
    | .assign target value => do
      let value ← expression n value
      let target ← locate .assignment target
      pure (.assign target value)
    | .call callee paren arguments => do
      let callee ← expression n callee
      let arguments ← arguments.mapM (expression n)
      pure (.call callee paren arguments)
    | .get object name => do
      let object ← expression n object
      pure (.get object name)
    | .set object name value => do
      let value ← expression n value
      let object ← expression n object
      pure (.set object name value)
    | .thisRef ref => do
      if (← get).classKind == .none then
        complain ref.token .thisOutsideClass
        pure (.thisRef { ref with hops := none })
      else .thisRef <$> locate .this_ ref
    | .superRef ref method => do
      match (← get).classKind with
      | .none => complain ref.token .superOutsideClass
      | .plain => complain ref.token .superWithoutSuperclass
      | .subclass => pure ()
      let ref ← locate .super_ ref
      pure (.superRef ref method)
    | .blank _ | .bare _ | .misplaced _ => throw (.noExpression e.kindName)

/-- The scope that holds one ready name. -/
def Names.of (name : String) : Names :=
  Bindings.empty.set name true

/-- Resolves the parameters and the body of a function, in one scope. -/
def functionWith (n : Nat) (body : List Stmt → Resolver (List Stmt)) (kind : FunctionKind) :
    Function → Resolver Function
  | .mk name params stmts =>
    inFunction kind (call n) <| withScope .empty do
      for param in params do
        declare n param
        define n param
      .mk name params <$> body stmts

/-- Resolves the methods of a class, inside the scope of `this`. -/
def methodsWith (n : Nat) (method : FunctionKind → Function → Resolver Function)
    (methods : List Function) : Resolver (List Function) :=
  inScope n (Names.of "this") <|
    methods.mapM fun m => method (if m.isInit then .initializer else .method) m

/-- Resolves a class.  The methods of a subclass are inside the scope of
`super`. -/
def classWith (n : Nat) (method : FunctionKind → Function → Resolver Function) (name : Token)
    (superclass : Option Reference) (methods : List Function) : Resolver Stmt :=
  inClass (do declare n name; define n name) do
    match superclass with
    | none => .classDecl name none <$> methodsWith n method methods
    | some ref =>
      if ref.name = name.lexeme then complain ref.token .selfInheritance
      inherit
      let ref ← readVariable ref
      let methods ← inScope n (Names.of "super") (methodsWith n method methods)
      pure (.classDecl name (some ref) methods)

mutual

/-- Resolves a statement. -/
def statement : (frames : Nat) → Stmt → Resolver Stmt
  | 0, _ => throw .tooDeep
  | n + 1, s =>
    match s with
    | .block body => .block <$> inScope n .empty (statements n body)
    | .varDecl name init => do
      declare n name
      let init ← init.mapM (expression n)
      define n name
      pure (.varDecl name init)
    | .funDecl f => do
      declare n f.name
      define n f.name
      .funDecl <$> function n .function f
    | .classDecl name superclass methods => classDecl n name superclass methods
    | .expression e => .expression <$> expression n e
    | .print e => .print <$> expression n e
    | .ifElse condition thenBranch elseBranch => do
      let condition ← expression n condition
      let thenBranch ← statement n thenBranch
      let elseBranch ← elseBranch.mapM (statement n)
      pure (.ifElse condition thenBranch elseBranch)
    | .whileLoop condition body => do
      let condition ← expression n condition
      let body ← statement n body
      pure (.whileLoop condition body)
    | .returnWith keyword value => do
      if (← get).functionKind == .none then complain keyword .topLevelReturn
      let value ← value.mapM (expression n)
      pure (.returnWith keyword value)
    | .breakLoop keyword => pure (.breakLoop keyword)
    | .misplaced _ => throw (.noStatement s.kindName)

/-- Resolves statements one after another. -/
def statements : (frames : Nat) → List Stmt → Resolver (List Stmt)
  | 0, _ => throw .tooDeep
  | n + 1, body => body.mapM (statement n)

/-- Resolves a function. -/
def function : (frames : Nat) → FunctionKind → Function → Resolver Function
  | 0, _, _ => throw .tooDeep
  | n + 1, kind, f => functionWith n (statements n) kind f

/-- Resolves a class declaration. -/
def classDecl : (frames : Nat) → Token → Option Reference → List Function → Resolver Stmt
  | 0, _, _, _ => throw .tooDeep
  | n + 1, name, superclass, methods => classWith n (function n) name superclass methods

end

/-! ### The whole program -/

/-- Resolves a top-level statement.  One that is nested too deeply is reported
as a whole and stays as it is. -/
def topLevel (frames : Nat) (s : Stmt) : Resolver Stmt := fun c =>
  match statement frames s c with
  | .error .tooDeep c =>
    (do complain (Node.firstToken (.stmt s)) .tooDeep; pure s : Resolver Stmt) c
  | result => result

/-- The outcome of resolving a program. -/
structure Resolved where
  statements : List Stmt
  uses : Array Use
  report : Report
  /-- The number of scopes that are still open. -/
  openScopes : Nat

/-- A node that has no place where it stands. -/
inductive Misfit where
  | statement (kind : String)
  | expression (kind : String)
  deriving DecidableEq, Repr

/-- Resolves a program; the report goes on from `report`.  Only trees that were
put together by hand can hold a misfit. -/
def resolve (frames : Nat) (statements : List Stmt) (listing : Listing) (report : Report) :
    Except Misfit Resolved :=
  match statements.mapM (topLevel frames) { listing, report } with
  | .ok statements c => .ok ⟨statements, c.uses, c.report, c.scopes.length⟩
  | .error (.noStatement kind) _ => .error (.statement kind)
  | .error (.noExpression kind) _ => .error (.expression kind)
  | .error .tooDeep c => .ok ⟨statements, c.uses, c.report, c.scopes.length⟩

end Lox.Scope
