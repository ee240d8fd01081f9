/-
The objects of a running program.

Functions, classes, instances and arrays are told apart by their numbers, in
the order they were made; a class is made after its superclass.

* `Heap` — the environments and all objects;
* `Heap.findMethod?` — a method of a class or of those above it;
* `Heap.arity?` — the number of arguments a value takes when called;
* `Heap.display?` — the text of a value.  An array that holds itself has none.
-/
import Lox.Environment
import Lox.Elements
import Lox.Tree

namespace Lox

/-- A function: its declaration, and the environment it was declared in. -/
structure Closure where
  declaration : Function
  scope : Nat
  /-- Whether it is the initializer of a class. -/
  isInit : Bool := false
  deriving Inhabited

/-- A class: its name, the class above it, and its methods. -/
structure ClassInfo where
  name : String
  superclass : Option Nat
  methods : Bindings Nat
  deriving Inhabited

/-- An instance: its class and its fields. -/
structure Instance where
  classId : Nat
  fields : Bindings Value := {}
  deriving Inhabited

/-- The environments and all objects of a program. -/
structure Heap where
  environments : Forest := #[]
  functions : Array Closure := #[]
  classes : Array ClassInfo := #[]
  instances : Array Instance := #[]
  arrays : Array (Array Value) := #[]
  deriving Inhabited

namespace Heap

/-- The function with a number. -/
def closure (h : Heap) (id : Nat) : Closure :=
  h.functions.getD id default

/-- The class with a number. -/
def classInfo (h : Heap) (id : Nat) : ClassInfo :=
  h.classes.getD id default

/-- The instance with a number. -/
def instanceInfo (h : Heap) (id : Nat) : Instance :=
  h.instances.getD id default

/-- The elements of the array with a number. -/
def elements (h : Heap) (id : Nat) : Array Value :=
  h.arrays.getD id #[]

/-! ### New objects -/

/-- One more environment. -/
def newEnvironment (h : Heap) (enclosing : Option Nat) (values : Bindings Value := {}) :
    Nat × Heap :=
  let (id, environments) := h.environments.child enclosing values
  (id, { h with environments })

/-- One more function. -/
def newFunction (h : Heap) (c : Closure) : Nat × Heap :=
  (h.functions.size, { h with functions := h.functions.push c })

/-- One more class. -/
def newClass (h : Heap) (c : ClassInfo) : Nat × Heap :=
  (h.classes.size, { h with classes := h.classes.push c })

/-- One more instance of a class, without fields. -/
def newInstance (h : Heap) (classId : Nat) : Nat × Heap :=
  (h.instances.size, { h with instances := h.instances.push { classId } })

/-- One more array. -/
def newArray (h : Heap) (elements : Array Value) : Nat × Heap :=
  (h.arrays.size, { h with arrays := h.arrays.push elements })

/-- A method bound to a receiver: a function of its own, inside an environment
that holds the receiver as `this`. -/
def bind (h : Heap) (method : Nat) (receiver : Value) : Nat × Heap :=
  let c := h.closure method
  let (scope, h) := h.newEnvironment (some c.scope) (Bindings.empty.set "this" receiver)
  h.newFunction { c with scope }

/-! ### Classes and calls -/

/-- The class above one, if it was made before. -/
def superclass? (h : Heap) (id : Nat) : Option { p : Nat // p < id } :=
  match (h.classInfo id).superclass with
  | some p => if hp : p < id then some ⟨p, hp⟩ else none
  | none => none

/-- The method of a class with a name, or else that of the class above it. -/
def findMethod? (h : Heap) (id : Nat) (name : String) : Option Nat :=
  match (h.classInfo id).methods.get? name with
  | some m => some m
  | none =>
    match h.superclass? id with
    | some ⟨p, _⟩ => findMethod? h p name
    | none => none

/-- The number of parameters of a function. -/
def functionArity (h : Heap) (id : Nat) : Nat :=
  (h.closure id).declaration.params.length

/-- The number of arguments a value takes when called; none if it cannot be
called.  A class takes those of its initializer. -/
def arity? (h : Heap) : Value → Option Nat
  | .native f => some f.arity
  | .function id => some (h.functionArity id)
  | .classRef id => some ((h.findMethod? id "init").elim 0 h.functionArity)
  | _ => none

/-! ### Text -/

/-- The text of a value, if it is found within so many steps from array to
element. -/
def display? (h : Heap) : (frames : Nat) → Value → Option String
  | 0, _ => none
  | n + 1, v =>
    match v with
    | .nil => some "nil"
    | .bool b => some (if b then "true" else "false")
    | .number x => some (Number.write .display x)
    | .text s => some s
    | .native _ => some "<native fn>"
    | .function id => some ("<fn " ++ (h.closure id).declaration.name.lexeme ++ ">")
    | .classRef id => some (h.classInfo id).name
    | .object id => some ((h.classInfo (h.instanceInfo id).classId).name ++ " instance")
    | .array id => do
      let texts ← (h.elements id).toList.mapM (display? h n)
      pure ("[" ++ ", ".intercalate texts ++ "]")

end Heap

end Lox
