/-
The meaning of expressions and statements.

Evaluation is a total function of two budgets.  Every nested expression or
statement, and every function body, uses up one of `frames`; every loop may
take `Host.turns` turns.  A program that would need more of the first has a
fault at the innermost call whose body was running; the second is only a bound
to reason with.

* `Host` — what a program is given from outside;
* `eval`, `exec` — expressions and statements;
* `applyFunction`, `invoke` — calls;
* `runAll`, `iterate` — sequences and loops.
-/
import Lox.Machine

namespace Lox

/-- What a program is given from outside. -/
structure Host where
  /-- How many frames a program may always use. -/
  frames : Nat
  /-- How many turns each loop may take. -/
  turns : Nat
  /-- The readings of the clock, in seconds. -/
  clock : Nat → Float

open Eval

/-! ### Operators -/

/-- The value of a unary operator. -/
def applyUnary (op : Token) (v : Value) : Eval Value :=
  match op.kind with
  | .minus =>
    match v with
    | .number x => pure (.number (-x))
    | _ => fail .notNumber op
  | .bang => pure (.bool !v.isTruthy)
  | _ => throw (.defect (.noUnary op.lexeme))

/-- The sum of two numbers, or the texts of both put together. -/
def add (op : Token) : Value → Value → Eval Value
  | .number a, .number b => pure (.number (a + b))
  | .text a, .text b => pure (.text (a ++ b))
  | .text a, .number b => pure (.text (a ++ Number.write .display b))
  | _, _ => fail .notAddable op

/-- The value of an operator on two numbers. -/
def arithmetic (op : Token) (a b : Float) : Eval Value :=
  match op.kind with
  | .minus => pure (.number (a - b))
  | .star => pure (.number (a * b))
  | .slash => pure (.number (a / b))
  | .greater => pure (.bool (a > b))
  | .greaterEqual => pure (.bool (a ≥ b))
  | .less => pure (.bool (a < b))
  | .lessEqual => pure (.bool (a ≤ b))
  | _ => throw (.defect (.noBinary op.lexeme))

/-- The value of a binary operator. -/
def applyBinary (op : Token) (a b : Value) : Eval Value :=
  match op.kind with
  | .plus => add op a b
  | .equalEqual => pure (.bool (a.same b))
  | .bangEqual => pure (.bool !(a.same b))
  | _ =>
    match a, b with
    | .number a, .number b => arithmetic op a b
    | _, _ => fail .notNumbers op

/-- Whether the left operand of a logical operator decides. -/
def decides (op : Token) (left : Value) : Bool :=
  if op.kind == .orKeyword then left.isTruthy else !left.isTruthy

/-! ### Properties -/

/-- A property of an array. -/
def arrayProperty (id : Nat) (name : Token) : Eval Value := do
  match name.lexeme with
  | "length" => return .number (Float.ofNat (← ask (·.elements id)).size)
  | "get" => pure (.native (.elementOf id))
  | "set" => pure (.native (.storeInto id))
  | _ => fail (.undefinedProperty name.lexeme) name

/-- A property of an instance: a field, or else a method bound to it. -/
def instanceProperty (id : Nat) (name : Token) : Eval Value := do
  match ← ask ((·.instanceInfo id |>.fields.get? name.lexeme)) with
  | some v => pure v
  | none =>
    let classId ← ask (·.instanceInfo id |>.classId)
    match ← ask (·.findMethod? classId name.lexeme) with
    | some m => .function <$> make (·.bind m (.object id))
    | none => fail (.undefinedProperty name.lexeme) name

/-- A property of a value. -/
def getProperty (v : Value) (name : Token) : Eval Value :=
  match v with
  | .object id => instanceProperty id name
  | .array id => arrayProperty id name
  | _ => fail .noProperties name

/-- Sets a field of an instance. -/
def setField (id : Nat) (name : String) (v : Value) : Eval Unit :=
  change fun h =>
    { h with instances := h.instances.modify id fun i =>
        { i with fields := i.fields.set name v } }

/-- Whether properties of a value can be set, or refused by the value itself. -/
def hasFields : Value → Bool
  | .object _ | .array _ => true
  | _ => false

/-- Sets a property of a value; arrays have none of their own. -/
def setProperty (object : Value) (name : Token) (v : Value) : Eval Unit :=
  match object with
  | .object id => setField id name.lexeme v
  | .array _ => fail .arrayProperty name
  | _ => fail .noFields name

/-- A method of the class above the one whose body is running, bound to the
receiver.  `this` lives one scope inside the one that holds `super`. -/
def superMethod (ref : Reference) (method : Token) : Eval Value := do
  match ref.hops with
  | none => throw (.defect .unresolvedSuper)
  | some hops =>
    let id := (← get).current
    let parent ← found (← ask (·.environments.getAt id hops "super"))
    let receiver ← found (← ask (·.environments.getAt id ((hops : Int) - 1) "this"))
    match parent with
    | .classRef classId =>
      match ← ask (·.findMethod? classId method.lexeme) with
      | some m => .function <$> make (·.bind m receiver)
      | none => fail (.undefinedProperty method.lexeme) method
    | _ => throw (.defect .superNotClass)

/-! ### Sequences and loops -/

/-- Runs statements up to the first that does not end normally. -/
def runAll (run : Stmt → Eval Completion) : List Stmt → Eval Completion
  | [] => pure .normal
  | s :: rest => do
    match ← run s with
    | .normal => runAll run rest
    | other => pure other

/-- Repeats a body while a condition holds.  A break ends the loop, a return
ends it and goes on outward. -/
def iterate (condition : Eval Bool) (body : Eval Completion) :
    (turns : Nat) → Eval Completion
  | 0 => throw .unfinished
  | turns + 1 => do
    if ← condition then
      match ← body with
      | .normal => iterate condition body turns
      | .broke => pure .normal
      | .returned v => pure (.returned v)
    else pure .normal

/-! ### Calls -/

/-- The bindings of parameters to arguments. -/
def bindParams (params : List Token) (arguments : List Value) : Bindings Value :=
  (params.zip arguments).foldl (fun b (p, v) => b.set p.lexeme v) .empty

/-- Runs the body of a function in an environment of its own.  An initializer
gives its receiver, whatever the body returned. -/
def applyFunction (run : Stmt → Eval Completion) (id : Nat) (arguments : List Value) :
    Eval Value := do
  let c ← ask (·.closure id)
  let env ← make (·.newEnvironment (some c.scope)
    (bindParams c.declaration.params arguments))
  let completion ← inEnvironment env (runAll run c.declaration.body)
  if c.isInit then found (← ask (·.environments.getAt c.scope 0 "this"))
  else match completion with
    | .returned v => pure v
    | _ => pure .nil

/-- Makes an instance of a class, and runs the initializer on it. -/
def construct (run : Stmt → Eval Completion) (classId : Nat) (arguments : List Value) :
    Eval Value := do
  let object := .object (← make (·.newInstance classId))
  match ← ask (·.findMethod? classId "init") with
  | some m =>
    let init ← make (·.bind m object)
    let _ ← applyFunction run init arguments
    pure object
  | none => pure object

/-- What an operation on an array gives, with refusals reported at a token. -/
def allowed (paren : Token) : Except Refusal α → Eval α
  | .ok a => pure a
  | .error why => fail (.refused why) paren

/-- Calls a native function. -/
def applyNative (host : Host) (paren : Token) (f : Native) (arguments : List Value) :
    Eval Value := do
  match f, arguments with
  | .clock, _ => modifyGet fun m =>
    (.number (host.clock m.readings), { m with readings := m.readings + 1 })
  | .makeArray, size :: _ =>
    let elements ← allowed paren (Elements.make size)
    .array <$> make (·.newArray elements)
  | .elementOf id, index :: _ =>
    allowed paren (← ask fun h => Elements.get (h.elements id) index)
  | .storeInto id, index :: value :: _ =>
    let i ← allowed paren (← ask fun h => Elements.place (h.elements id).size index)
    change fun h =>
      { h with arrays := h.arrays.modify id fun a => a.setIfInBounds i value }
    pure value
  | _, _ => fail (.arity f.arity arguments.length) paren

/-- Calls a value that can be called. -/
def invoke (host : Host) (run : Stmt → Eval Completion) (paren : Token)
    (callee : Value) (arguments : List Value) : Eval Value :=
  match callee with
  | .native f => applyNative host paren f arguments
  | .function id => applyFunction run id arguments
  | .classRef id => construct run id arguments
  | _ => fail .notCallable paren

/-- Calls a value, if it can be called with so many arguments. -/
def callValue (host : Host) (run : Stmt → Eval Completion) (paren : Token)
    (callee : Value) (arguments : List Value) : Eval Value := do
  match ← ask (·.arity? callee) with
  | none => fail .notCallable paren
  | some arity =>
    if arguments.length ≠ arity then fail (.arity arity arguments.length) paren
    else catchExhausted paren (invoke host run paren callee arguments)

/-! ### Declarations -/

/-- Declares a function in the current environment. -/
def declareFunction (f : Function) : Eval Unit := do
  let scope := (← get).current
  let id ← make (·.newFunction { declaration := f, scope })
  define f.name.lexeme (.function id)

/-- The methods of a class that is being declared. -/
def makeMethods (scope : Nat) : (methods : List Function) → (done : Bindings Nat) →
    Eval (Bindings Nat)
  | [], done => pure done
  | f :: rest, done => do
    let id ← make (·.newFunction { declaration := f, scope, isInit := f.isInit })
    makeMethods scope rest (done.set f.name.lexeme id)

/-- Declares a class in the current environment.  The methods of a subclass
close over an environment that holds `super`. -/
def declareClass (name : Token) (superclass : Option Nat) (methods : List Function) :
    Eval Unit := do
  define name.lexeme .nil
  let current := (← get).current
  let scope ← match superclass with
    | some parent =>
      make (·.newEnvironment (some current) (Bindings.empty.set "super" (.classRef parent)))
    | none => pure current
  let table ← makeMethods scope methods .empty
  let id ← make (·.newClass { name := name.lexeme, superclass, methods := table })
  define name.lexeme (.classRef id)

/-! ### Expressions and statements -/

mutual

/-- The value of an expression. -/
def eval (host : Host) : (frames : Nat) → Expr → Eval Value
  | 0, _ => throw .exhausted
  | n + 1, e =>
    match e with
    | .literal value => pure (.ofLiteral value)
    | .grouping inner => eval host n inner
    | .unary op right => do
      let v ← eval host n right
      applyUnary op v
    | .binary left op right => do
      let a ← eval host n left
      let b ← eval host n right
      applyBinary op a b
    | .logical left op right => do
      let a ← eval host n left
      if decides op a then pure a else eval host n right
    | .var ref => lookup ref
    | .assign target value => do
      let v ← eval host n value
      assign target v
      pure v
    | .call callee paren arguments => do
      let f ← eval host n callee
      let vs ← arguments.mapM (eval host n)
      callValue host (exec host n) paren f vs
    | .get object name => do
      let v ← eval host n object
      getProperty v name
    | .set object name value => do
      let o ← eval host n object
      if hasFields o then
        let v ← eval host n value
        setProperty o name v
        pure v
      else fail .noFields name
    | .thisRef ref => lookup ref
    | .superRef ref method => superMethod ref method
    | .blank _ | .bare _ | .misplaced _ => throw (.defect (.noExpression e.kindName))

/-- Runs a statement. -/
def exec (host : Host) : (frames : Nat) → Stmt → Eval Completion
  | 0, _ => throw .exhausted
  | n + 1, s =>
    match s with
    | .expression e => do
      let _ ← eval host n e
      pure .normal
    | .print e => do
      let v ← eval host n e
      match ← ask (·.display? n v) with
      | some text =>
        writeLine text
        pure .normal
      | none => throw .exhausted
    | .varDecl name init => do
      let v ← match init with
        | some e => eval host n e
        | none => pure .nil
      define name.lexeme v
      pure .normal
    | .block body => do
      let current := (← get).current
      let env ← make (·.newEnvironment (some current))
      inEnvironment env (runAll (exec host n) body)
    | .ifElse condition thenBranch elseBranch => do
      let c ← eval host n condition
      if c.isTruthy then exec host n thenBranch
      else match elseBranch with
        | some s => exec host n s
        | none => pure .normal
    | .whileLoop condition body =>
      iterate (do return (← eval host n condition).isTruthy) (exec host n body) host.turns
    | .breakLoop _ => pure .broke
    | .funDecl f => do
      declareFunction f
      pure .normal
    | .returnWith _ value => do
      match value with
      | some e => return .returned (← eval host n e)
      | none => pure (.returned .nil)
    | .classDecl name superclass methods => do
      match superclass with
      | none =>
        declareClass name none methods
        pure .normal
      | some ref =>
        match ← lookup ref with
        | .classRef parent =>
          declareClass name (some parent) methods
          pure .normal
        | _ => fail .superclassNotClass ref.token
    | .misplaced _ => throw (.defect (.noStatement s.kindName))

end

end Lox
