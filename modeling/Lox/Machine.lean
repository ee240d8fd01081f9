/-
The state of a running program, and how a computation on it can end.

A computation gives a result or stops.  It stops at a fault of the program,
which has a place; because it is nested too deeply; because a loop took more
turns than allowed; or at a defect, which no checked program has.

* `Fault` — what a program can do wrong while it runs;
* `Defect` — what only a tree that was not checked can do wrong;
* `Machine` — the state: the heap, the current environment, the output;
* `Eval` — computations on the state;
* `inEnvironment` — the current environment is put back, however a computation
  ends.
-/
import Lox.Diagnostic
import Lox.Heap

namespace Lox

/-- What a program can do wrong while it runs. -/
inductive Fault where
  | notNumber
  | notNumbers
  | notAddable
  | notCallable
  | arity (expected given : Nat)
  | noProperties
  | noFields
  | arrayProperty
  | undefinedProperty (name : String)
  | undefinedVariable (name : String)
  | superclassNotClass
  | refused (why : Refusal)
  | stackOverflow
  deriving DecidableEq, Repr

namespace Fault

/-- The code of a fault. -/
def code : Fault → String
  | notNumber => "E401"
  | notNumbers | notAddable => "E402"
  | notCallable => "E403"
  | arity .. => "E404"
  | noProperties | noFields | arrayProperty => "E405"
  | undefinedProperty _ => "E406"
  | undefinedVariable _ => "E407"
  | superclassNotClass => "E408"
  | refused _ => "E409"
  | stackOverflow => "E410"

/-- The text of a fault. -/
def message : Fault → String
  | notNumber => "Operand must be a number."
  | notNumbers => "Operands must be numbers."
  | notAddable => "Operands must be two numbers or two strings."
  | notCallable => "Can only call functions and classes."
  | arity expected given =>
    "Expected " ++ toString expected ++ " arguments but got " ++ toString given ++ "."
  | noProperties => "Only instances have properties."
  | noFields => "Only instances have fields."
  | arrayProperty => "Can't add properties to arrays."
  | undefinedProperty name => "Undefined property '" ++ name ++ "'."
  | undefinedVariable name => "Undefined variable '" ++ name ++ "'."
  | superclassNotClass => "Superclass must be a class."
  | refused why => why.message
  | stackOverflow => "Stack overflow."

/-- The diagnostic for a fault at a token. -/
def diagnose (f : Fault) (t : Token) (sourceLine : Option String := none) : Diagnostic :=
  { code := f.code, message := f.message, span := t.span, sourceLine }

end Fault

/-- What only a tree that was not checked can do wrong. -/
inductive Defect where
  /-- A walk by distance found nothing. -/
  | lost (why : Forest.Lost)
  /-- A use of `super` has no distance. -/
  | unresolvedSuper
  /-- What is bound to `super` is no class. -/
  | superNotClass
  | noStatement (kind : String)
  | noExpression (kind : String)
  | noUnary (lexeme : String)
  | noBinary (lexeme : String)
  deriving DecidableEq, Repr

/-- The text of a defect; only nodes and operators without a meaning have
one. -/
def Defect.message? : Defect → Option String
  | noStatement kind => some ("Unknown statement type: " ++ kind)
  | noExpression kind => some ("Unknown expression type: " ++ kind)
  | noUnary lexeme => some ("Unknown unary operator: " ++ lexeme)
  | noBinary lexeme => some ("Unknown binary operator: " ++ lexeme)
  | _ => none

/-- Why a computation stopped. -/
inductive Stop where
  | fault (f : Fault) (t : Token)
  /-- The program is nested too deeply. -/
  | exhausted
  /-- A loop took more turns than allowed. -/
  | unfinished
  | defect (d : Defect)

/-- The state of a running program. -/
structure Machine where
  heap : Heap
  /-- The current environment. -/
  current : Nat := 0
  output : String := ""
  /-- How often the clock was read. -/
  readings : Nat := 0
  deriving Inhabited

/-- The number of the global environment. -/
def Machine.globals : Nat := 0

/-- The state before any program has run: the native functions are the only
globals. -/
def Machine.initial : Machine :=
  { heap :=
      { environments :=
          #[{ values := ⟨Native.registry.map fun (name, f) => (name, .native f)⟩ }] } }

/-- How a statement ended. -/
inductive Completion where
  | normal
  | broke
  | returned (v : Value)
  deriving Inhabited

/-- A computation on the state. -/
abbrev Eval := EStateM Stop Machine

namespace Eval

/-- Stops at a fault. -/
def fail (f : Fault) (t : Token) : Eval α :=
  throw (.fault f t)

/-- Reads the heap. -/
@[inline] def ask (f : Heap → α) : Eval α :=
  return f (← get).heap

/-- Makes a new object. -/
@[inline] def make (f : Heap → α × Heap) : Eval α :=
  modifyGet fun m =>
    match m with
    | { heap, current, output, readings } =>
      let (a, heap) := f heap
      (a, { heap, current, output, readings })

/-- Changes the heap. -/
@[inline] def change (f : Heap → Heap) : Eval Unit :=
  modify fun m =>
    match m with
    | { heap, current, output, readings } => { heap := f heap, current, output, readings }

/-- Changes the environments. -/
@[inline] def changeForest (f : Forest → Forest) : Eval Unit :=
  change fun h => { h with environments := f h.environments }

/-- Writes a line. -/
def writeLine (s : String) : Eval Unit :=
  modify fun m => { m with output := m.output ++ s ++ "\n" }

/-- Runs a computation in another environment. -/
def inEnvironment (id : Nat) (p : Eval α) : Eval α := fun m =>
  let outer := m.current
  match p { m with current := id } with
  | .ok a m => .ok a { m with current := outer }
  | .error e m => .error e { m with current := outer }

/-- Too deep a nesting becomes a fault at a token. -/
def catchExhausted (t : Token) (p : Eval α) : Eval α := fun m =>
  match p m with
  | .error .exhausted m => .error (.fault .stackOverflow t) m
  | result => result

/-- What a walk by distance found. -/
def found : Except Forest.Lost α → Eval α
  | .ok a => pure a
  | .error why => throw (.defect (.lost why))

/-! ### Variables -/

/-- Binds a name in the current environment. -/
def define (name : String) (v : Value) : Eval Unit := do
  let id := (← get).current
  changeForest (·.define id name v)

/-- The value of a name: at its distance, or among the globals. -/
def lookup (ref : Reference) : Eval Value := do
  match ref.hops with
  | some hops =>
    let id := (← get).current
    found (← ask (·.environments.getAt id hops ref.name))
  | none =>
    match ← ask (·.environments.lookup? Machine.globals ref.name) with
    | some v => pure v
    | none => fail (.undefinedVariable ref.name) ref.token

/-- Changes the value of a name: at its distance, or among the globals. -/
def assign (ref : Reference) (v : Value) : Eval Unit := do
  match ref.hops with
  | some hops =>
    let id := (← get).current
    let target ← found (← ask (·.environments.reach id hops))
    changeForest (·.define target ref.name v)
  | none =>
    match ← ask (·.environments.holder? Machine.globals ref.name) with
    | some target => changeForest (·.define target ref.name v)
    | none => fail (.undefinedVariable ref.name) ref.token

end Eval

end Lox
