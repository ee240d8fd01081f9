/-
Programs as trees.

Expressions and statements are what the grammar derives.  A use of a variable
carries the number of scopes to walk outward to the one that declares it, once
that is known; a use without it is looked up among the globals.

Trees can also be put together by hand, so a place for an expression may hold a
statement, a bare value or a node without content, and a place for a statement
may hold an expression.  Such nodes have no meaning; they are never read from a
text.

* `Reference` — a use of a name;
* `Expr`, `Stmt`, `Function` — the trees;
* `Expr.kindName`, `Stmt.kindName` — the names of the kinds of nodes.
-/
import Lox.Token

namespace Lox

/-- A use of a name.  `hops` scopes lie between the use and the scope that
declares the name; without a number the name is global. -/
structure Reference where
  token : Token
  hops : Option Nat := none
  deriving Inhabited

/-- The name that is used. -/
def Reference.name (r : Reference) : String :=
  r.token.lexeme

/-- A node without content, of which only its family is known. -/
inductive Blank where
  | node
  | expr
  | stmt
  deriving DecidableEq, Repr, Inhabited

mutual

/-- Expressions. -/
inductive Expr where
  | literal (value : Literal)
  | grouping (inner : Expr)
  | unary (operator : Token) (right : Expr)
  | binary (left : Expr) (operator : Token) (right : Expr)
  | logical (left : Expr) (operator : Token) (right : Expr)
  | var (ref : Reference)
  | assign (target : Reference) (value : Expr)
  /-- A call, with its closing parenthesis. -/
  | call (callee : Expr) (paren : Token) (arguments : List Expr)
  | get (object : Expr) (name : Token)
  | set (object : Expr) (name : Token) (value : Expr)
  | thisRef (ref : Reference)
  | superRef (ref : Reference) (method : Token)
  /-- A node without content. -/
  | blank (family : Blank)
  /-- A value that stands where a node should. -/
  | bare (value : Literal)
  /-- A statement that stands where an expression should. -/
  | misplaced (s : Stmt)

/-- Statements. -/
inductive Stmt where
  | expression (e : Expr)
  | print (e : Expr)
  | varDecl (name : Token) (init : Option Expr)
  | block (body : List Stmt)
  | ifElse (condition : Expr) (thenBranch : Stmt) (elseBranch : Option Stmt)
  | whileLoop (condition : Expr) (body : Stmt)
  | breakLoop (keyword : Token)
  | funDecl (f : Function)
  | returnWith (keyword : Token) (value : Option Expr)
  | classDecl (name : Token) (superclass : Option Reference) (methods : List Function)
  /-- An expression that stands where a statement should. -/
  | misplaced (e : Expr)

/-- The declaration of a function or a method; parameters and body share one
scope. -/
inductive Function where
  | mk (name : Token) (params : List Token) (body : List Stmt)

end

instance : Inhabited Expr := ⟨.literal .nil⟩
instance : Inhabited Stmt := ⟨.block []⟩

namespace Function

instance : Inhabited Function := ⟨.mk default [] []⟩

/-- The name a function is declared with. -/
def name : Function → Token
  | mk n _ _ => n

/-- The parameters of a function. -/
def params : Function → List Token
  | mk _ ps _ => ps

/-- The statements of a function. -/
def body : Function → List Stmt
  | mk _ _ b => b

/-- Whether the name is the one that makes a method an initializer. -/
def isInit (f : Function) : Bool :=
  f.name.lexeme == "init"

end Function

/-- The name of a family of nodes. -/
def Blank.name : Blank → String
  | node => "AstNode"
  | expr => "Expr"
  | stmt => "Stmt"

/-- The name of the kind of a bare value. -/
def Literal.kindName : Literal → String
  | nil => "NoneType"
  | bool _ => "bool"
  | number _ => "float"
  | text _ => "str"

mutual

/-- The name of the kind of an expression. -/
def Expr.kindName : Expr → String
  | .literal _ => "Literal"
  | .grouping _ => "Grouping"
  | .unary .. => "UnaryOp"
  | .binary .. => "BinaryOp"
  | .logical .. => "LogicalOp"
  | .var _ => "Variable"
  | .assign .. => "Assign"
  | .call .. => "Call"
  | .get .. => "Get"
  | .set .. => "Set"
  | .thisRef _ => "This"
  | .superRef .. => "Super"
  | .blank family => family.name
  | .bare value => value.kindName
  | .misplaced s => s.kindName

/-- The name of the kind of a statement. -/
def Stmt.kindName : Stmt → String
  | .expression _ => "ExpressionStatement"
  | .print _ => "PrintStatement"
  | .varDecl .. => "VarDecl"
  | .block _ => "Block"
  | .ifElse .. => "IfStatement"
  | .whileLoop .. => "WhileStatement"
  | .breakLoop _ => "BreakStatement"
  | .funDecl _ => "FunctionDef"
  | .returnWith .. => "ReturnStatement"
  | .classDecl .. => "ClassDef"
  | .misplaced e => e.kindName

end

end Lox
