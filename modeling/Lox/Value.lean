/-
The values of the language.

Nil, booleans, numbers and texts are values by themselves.  Functions, classes,
instances and arrays live in a heap, and their values say where; two of them
are equal only if they are the same object.

* `Value` — values, and `Native` — the functions that are not written in the
  language;
* `Value.isTruthy` — only nil and false are not;
* `Value.same` — the equality of the language;
* `Value.ofLiteral` — what a literal denotes.
-/
import Lox.Token

namespace Lox

/-- The functions that are not written in the language. -/
inductive Native where
  /-- Reads the clock. -/
  | clock
  /-- Makes an array. -/
  | makeArray
  /-- Reads an element of an array. -/
  | elementOf (array : Nat)
  /-- Changes an element of an array. -/
  | storeInto (array : Nat)
  deriving DecidableEq, Repr

/-- A value of the language. -/
inductive Value where
  | nil
  | bool (b : Bool)
  | number (x : Float)
  | text (s : String)
  | native (f : Native)
  | function (id : Nat)
  | classRef (id : Nat)
  | object (id : Nat)
  | array (id : Nat)
  deriving Inhabited

namespace Value

/-- What a literal denotes. -/
def ofLiteral : Literal → Value
  | .nil => nil
  | .bool b => bool b
  | .number x => number x
  | .text s => text s

/-- Whether a value counts as true in a condition. -/
def isTruthy : Value → Bool
  | nil => false
  | bool b => b
  | _ => true

/-- The equality of the language.  Values of different kinds are never equal;
numbers are equal when their bits say the same, so not-a-number equals itself
and the two zeros differ. -/
def same : Value → Value → Bool
  | nil, nil => true
  | bool a, bool b => a == b
  | number a, number b => Binary64.ofFloat a == Binary64.ofFloat b
  | text a, text b => a == b
  | native f, native g => f == g
  | function a, function b => a == b
  | classRef a, classRef b => a == b
  | object a, object b => a == b
  | array a, array b => a == b
  | _, _ => false

end Value

namespace Native

/-- The number of arguments a native function takes. -/
def arity : Native → Nat
  | clock => 0
  | makeArray => 1
  | elementOf _ => 1
  | storeInto _ => 2

/-- The native functions every program can name, in the order they are
registered. -/
def registry : List (String × Native) :=
  [("clock", clock), ("Array", makeArray)]

/-- What a registered native function is for. -/
def purpose : Native → String
  | clock => "Seconds since the Unix epoch."
  | makeArray => "Array(size) -> array of size nils, with get(i), set(i, v) and length."
  | _ => ""

end Native

end Lox
