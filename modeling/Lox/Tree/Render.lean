/-
Trees as text.

The text of a tree puts every node in parentheses, its head before its parts:
operators stand for themselves, other nodes have a word.  Names and literals
are bare, absent parts are left out, and the parts of a list follow one
another.

* `Expr.render`, `Stmt.render`, `Function.render` — the text of a tree.
-/
import Lox.Tree

namespace Lox

/-- The text of a literal in a tree; texts are quoted without escapes. -/
def Literal.render : Literal → String
  | nil => "nil"
  | bool b => if b then "true" else "false"
  | number x => Number.write .literal x
  | text s => "\"" ++ s ++ "\""

/-- The text of a family of nodes in a tree. -/
def Blank.render : Blank → String
  | node => "(astnode)"
  | expr => "(expr)"
  | stmt => "(stmt)"

/-- A head and parts in parentheses, divided by blanks. -/
def inParens (parts : List String) : String :=
  "(" ++ " ".intercalate parts ++ ")"

/-- Whether an expression is a bare nil, which counts as absent. -/
def Expr.isAbsent : Expr → Bool
  | .bare .nil => true
  | _ => false

/-- Whether a statement is a bare nil, which counts as absent. -/
def Stmt.isAbsent : Stmt → Bool
  | .misplaced e => e.isAbsent
  | _ => false

mutual

/-- The text of an expression. -/
def Expr.render : Expr → String
  | .literal value => value.render
  | .grouping e => "(group " ++ e.render ++ ")"
  | .unary op e => "(" ++ op.lexeme ++ " " ++ e.render ++ ")"
  | .binary l op r => "(" ++ op.lexeme ++ " " ++ l.render ++ " " ++ r.render ++ ")"
  | .logical l op r => "(" ++ op.lexeme ++ " " ++ l.render ++ " " ++ r.render ++ ")"
  | .var ref => ref.name
  | .assign target value => inParens ("assign" :: target.name :: value.part)
  | .call callee _ arguments =>
    inParens ("call" :: (callee.part ++ Expr.renderAll arguments))
  | .get object name => inParens ("get" :: (object.part ++ [name.lexeme]))
  | .set object name value =>
    inParens ("set" :: (object.part ++ name.lexeme :: value.part))
  | .thisRef _ => "this"
  | .superRef _ method => "(super " ++ method.lexeme ++ ")"
  | .blank family => family.render
  | .bare value => value.listed
  | .misplaced s => s.render

/-- The text of an expression as a part of a node: absent parts have none. -/
def Expr.part (e : Expr) : List String :=
  if e.isAbsent then [] else [e.render]

/-- The texts of several expressions. -/
def Expr.renderAll : List Expr → List String
  | [] => []
  | e :: es => e.render :: Expr.renderAll es

/-- The text of a statement. -/
def Stmt.render : Stmt → String
  | .expression e => inParens ("expression" :: e.part)
  | .print e => inParens ("print" :: e.part)
  | .varDecl name none => inParens ["vardecl", name.lexeme]
  | .varDecl name (some e) => inParens ("vardecl" :: name.lexeme :: e.part)
  | .block body => inParens ("block" :: Stmt.renderAll body)
  | .ifElse c t none => inParens ("if" :: (c.part ++ t.part))
  | .ifElse c t (some e) => inParens ("if" :: (c.part ++ t.part ++ e.part))
  | .whileLoop c body => inParens ("while" :: (c.part ++ body.part))
  | .breakLoop _ => inParens ["break"]
  | .funDecl f => f.render
  | .returnWith _ none => inParens ["return"]
  | .returnWith _ (some e) => inParens ("return" :: e.part)
  | .classDecl name superclass methods =>
    inParens ("classdef" :: name.lexeme
      :: ((superclass.elim [] fun r => [r.name]) ++ Function.renderAll methods))
  | .misplaced e => e.render

/-- The text of a statement as a part of a node. -/
def Stmt.part (s : Stmt) : List String :=
  if s.isAbsent then [] else [s.render]

/-- The texts of several statements. -/
def Stmt.renderAll : List Stmt → List String
  | [] => []
  | s :: ss => s.render :: Stmt.renderAll ss

/-- The text of a declaration. -/
def Function.render : Function → String
  | .mk name params body =>
    inParens ("functiondef" :: name.lexeme
      :: (params.map (·.lexeme) ++ Stmt.renderAll body))

/-- The texts of several declarations. -/
def Function.renderAll : List Function → List String
  | [] => []
  | f :: fs => f.render :: Function.renderAll fs

end

end Lox
