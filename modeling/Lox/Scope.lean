/-
The scopes around a place in a program.

A local scope knows the names declared in it, and of each whether its
initializer is finished.  The scopes around a place are listed from the inside
out; the globals are not among them.

* `Scopes.hops?` — how many scopes lie between a place and the declaration of a
  name;
* `Scopes.declare`, `Scopes.define` — a name enters the innermost scope, and
  becomes ready for use;
* `Problem` — what can be wrong with the scoping of a program.
-/
import Lox.Bindings
import Lox.Diagnostic
import Lox.Token

namespace Lox.Scope

/-- The names declared in one scope; true for those whose initializer is
finished. -/
abbrev Names := Bindings Bool

/-- The scopes around a place, the innermost first. -/
abbrev Scopes := List Names

namespace Scopes

/-- How many scopes lie between a place and the innermost one that declares a
name. -/
def hops? (scopes : Scopes) (name : String) : Option Nat :=
  scopes.findIdx? (·.binds name)

/-- Whether the innermost scope already declares a name. -/
def redeclares (scopes : Scopes) (name : String) : Bool :=
  match scopes with
  | [] => false
  | scope :: _ => scope.binds name

/-- Whether the initializer of a name in the innermost scope is unfinished. -/
def isPending (scopes : Scopes) (name : String) : Bool :=
  match scopes with
  | [] => false
  | scope :: _ => scope.get? name == some false

/-- Marks a name of the innermost scope; among the globals nothing is marked. -/
def mark (scopes : Scopes) (name : String) (ready : Bool) : Scopes :=
  match scopes with
  | [] => []
  | scope :: outer => scope.set name ready :: outer

/-- Declares a name in the innermost scope. -/
def declare (scopes : Scopes) (name : String) : Scopes :=
  scopes.mark name false

/-- Makes a name of the innermost scope ready for use. -/
def define (scopes : Scopes) (name : String) : Scopes :=
  scopes.mark name true

end Scopes

/-- What can be wrong with the scoping of a program. -/
inductive Problem where
  | ownInitializer
  | redeclared
  | topLevelReturn
  | thisOutsideClass
  | superOutsideClass
  | superWithoutSuperclass
  | selfInheritance
  | tooDeep
  deriving DecidableEq, Repr

namespace Problem

/-- The code of a problem. -/
def code : Problem → String
  | ownInitializer => "E301"
  | redeclared => "E302"
  | topLevelReturn => "E303"
  | thisOutsideClass => "E304"
  | superOutsideClass | superWithoutSuperclass => "E305"
  | selfInheritance => "E306"
  | tooDeep => "E307"

/-- The text of a problem. -/
def text : Problem → String
  | ownInitializer => "Can't read local variable in its own initializer."
  | redeclared => "Already a variable with this name in this scope."
  | topLevelReturn => "Can't return from top-level code."
  | thisOutsideClass => "Can't use 'this' outside of a class."
  | superOutsideClass => "Can't use 'super' outside of a class."
  | superWithoutSuperclass => "Can't use 'super' in a class with no superclass."
  | selfInheritance => "A class can't inherit from itself."
  | tooDeep => "Expression nesting too deep."

/-- The diagnostic for a problem at a token. -/
def diagnose (p : Problem) (t : Token) (listing : Listing) : Diagnostic :=
  { code := p.code
    message := "Error " ++ t.mention ++ ": " ++ p.text
    span := t.span
    sourceLine := listing.line? t.line }

end Problem

end Lox.Scope
