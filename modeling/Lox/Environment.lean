/-
Environments, the scopes of a running program.

An environment binds names to values and is enclosed by at most one other,
which was made before it.  All environments of a program form a forest, and are
told apart by their numbers in the order they were made.

There are two ways to reach a binding: by name, through the chain of enclosing
environments to the nearest that has it, and by distance, in the environment
exactly so many steps out.

* `Forest.chain` — an environment and those around it;
* `Forest.lookup?`, `Forest.assign?` — by name;
* `Forest.ancestor`, `Forest.getAt`, `Forest.assignAt` — by distance.
-/
import Lox.Bindings
import Lox.Value
import Lox.Text.Quoted

namespace Lox

/-- One scope of a running program. -/
structure Environment where
  enclosing : Option Nat := none
  values : Bindings Value := {}
  deriving Inhabited

/-- All environments of a program. -/
abbrev Forest := Array Environment

namespace Forest

/-- The environment with a number. -/
def env (f : Forest) (id : Nat) : Environment :=
  f.getD id {}

/-- One more environment, and its number. -/
def child (f : Forest) (enclosing : Option Nat) (values : Bindings Value := {}) :
    Nat × Forest :=
  (f.size, f.push { enclosing, values })

/-- Binds a name in one environment. -/
def define (f : Forest) (id : Nat) (name : String) (value : Value) : Forest :=
  f.modify id fun e => { e with values := e.values.set name value }

/-! ### By name -/

/-- The environment around one, if it was made before. -/
def outer? (f : Forest) (id : Nat) : Option { p : Nat // p < id } :=
  match (f.env id).enclosing with
  | some p => if h : p < id then some ⟨p, h⟩ else none
  | none => none

/-- An environment and those around it, from the inside out. -/
def chain (f : Forest) (id : Nat) : List Nat :=
  match f.outer? id with
  | some ⟨p, _⟩ => id :: chain f p
  | none => [id]

/-- The nearest environment of a chain that binds a name. -/
def holder? (f : Forest) (id : Nat) (name : String) : Option Nat :=
  (f.chain id).find? fun e => (f.env e).values.binds name

/-- The value of a name in the nearest environment that binds it. -/
def lookup? (f : Forest) (id : Nat) (name : String) : Option Value := do
  (f.env (← f.holder? id name)).values.get? name

/-- Changes the value of a name in the nearest environment that binds it. -/
def assign? (f : Forest) (id : Nat) (name : String) (value : Value) : Option Forest := do
  return f.define (← f.holder? id name) name value

/-! ### By distance -/

/-- Why a walk by distance finds nothing. -/
inductive Lost where
  /-- The walk left the outermost environment. -/
  | pastRoot
  /-- The environment reached does not bind the name. -/
  | missing
  deriving DecidableEq, Repr

/-- The environment so many steps out; none right beyond the outermost. -/
def walk (f : Forest) : (steps : Nat) → Option Nat → Except Lost (Option Nat)
  | 0, id => .ok id
  | _ + 1, none => .error .pastRoot
  | steps + 1, some id => walk f steps (f.env id).enclosing

/-- The environment at a distance; a negative distance walks nowhere. -/
def ancestor (f : Forest) (id : Nat) (distance : Int) : Except Lost (Option Nat) :=
  f.walk distance.toNat (some id)

/-- The environment at a distance, which has to be there. -/
def reach (f : Forest) (id : Nat) (distance : Int) : Except Lost Nat := do
  match ← f.ancestor id distance with
  | some e => pure e
  | none => throw .pastRoot

/-- The value of a name in the environment at a distance. -/
def getAt (f : Forest) (id : Nat) (distance : Int) (name : String) : Except Lost Value := do
  match (f.env (← f.reach id distance)).values.get? name with
  | some v => pure v
  | none => throw .missing

/-- Binds a name in the environment at a distance. -/
def assignAt (f : Forest) (id : Nat) (distance : Int) (name : String) (value : Value) :
    Except Lost Forest := do
  return f.define (← f.reach id distance) name value

/-! ### Text -/

/-- Names in increasing order. -/
def sortedNames (b : Bindings Value) : List String :=
  b.names.mergeSort (fun a b => decide (a ≤ b))

/-- The text of an environment: its names and the number of those around it. -/
def render (f : Forest) (id : Nat) : String :=
  let names := (sortedNames (f.env id).values).map Text.quoted
  "Environment(names=[" ++ ", ".intercalate names ++ "], depth="
    ++ toString ((f.chain id).length - 1) ++ ")"

end Forest

end Lox
