/-
Receivers, without scopes for `this` and `super`.

Here every function keeps the method around it that was running when it was
declared: the class whose declaration the method stands in, and the instance it was
bound to.  `this` is that instance, `super` starts from the class above that class,
and no scope plays a part.  Each time a method is entered and each time `this` is
used, the instance has to be there and its class has to be the class of the method
or one below it; a run in which it is not comes to a defect.  Everything else is
done as the machine does it.

* `Activation` — a class and an instance;
* `Heap.inherits`, `Heap.findOwned?` — classes above a class, and the one in which a
  method is declared;
* `World` — a machine, and the activations that functions keep;
* `receiver`, `superMethod` — `this` and `super`;
* `eval`, `exec` — expressions and statements;
* `interpret`, `run`, `runSources` — units and sessions.
-/
import Lox.Proofs.Sessions

namespace Lox

namespace Heap

/-- Whether a class is another one, or lies below it. -/
def inherits (h : Heap) (id above : Nat) : Bool :=
  id == above ||
    match h.superclass? id with
    | some ⟨p, _⟩ => inherits h p above
    | none => false

/-- The class in which a method with a name is found, and the method. -/
def findOwned? (h : Heap) (id : Nat) (name : String) : Option (Nat × Nat) :=
  match (h.classInfo id).methods.get? name with
  | some m => some (id, m)
  | none =>
    match h.superclass? id with
    | some ⟨p, _⟩ => findOwned? h p name
    | none => none

end Heap

namespace Receiving

/-- A method that is running: the class whose declaration it stands in, and the
instance it was bound to. -/
structure Activation where
  owner : Nat
  receiver : Nat
  deriving DecidableEq, Repr

/-- The instance is there, and its class is the class of the method or lies below
it. -/
def Activation.isProper (a : Activation) (h : Heap) : Bool :=
  a.receiver < h.instances.size && h.inherits (h.instanceInfo a.receiver).classId a.owner

/-- A machine, and for every function the method around it. -/
structure World where
  machine : Machine
  around : Array (Option Activation) := #[]

/-- The state before any program has run. -/
def World.initial : World where
  machine := .initial

/-- The method around a function. -/
def World.activation (w : World) (id : Nat) : Option Activation :=
  w.around.getD id none

/-- A computation on the state. -/
abbrev Run := EStateM Stop World

/-- A computation on the machine alone. -/
def lift {α : Type} (p : Eval α) : Run α := fun w =>
  match p w.machine with
  | .ok a m => .ok a { w with machine := m }
  | .error e m => .error e { w with machine := m }

/-- A function is made, and keeps the method around it. -/
def keeping (around : Option Activation) (p : Eval Nat) : Run Nat := fun w =>
  match p w.machine with
  | .ok id m => .ok id { machine := m, around := w.around.push around }
  | .error e m => .error e { w with machine := m }

/-- Too deep a nesting becomes a fault at a token. -/
def catchExhausted {α : Type} (t : Token) (p : Run α) : Run α := fun w =>
  match p w with
  | .error .exhausted w => .error (.fault .stackOverflow t) w
  | result => result

/-- Runs a computation in another environment. -/
def inEnvironment {α : Type} (id : Nat) (p : Run α) : Run α := fun w =>
  let outer := w.machine.current
  match p { w with machine := { w.machine with current := id } } with
  | .ok a w => .ok a { w with machine := { w.machine with current := outer } }
  | .error e w => .error e { w with machine := { w.machine with current := outer } }

/-! ### Methods -/

/-- The receiver of the running method. -/
def receiver : Option Activation → Run Value
  | none => throw (.defect (.lost .missing))
  | some a => do
    if ← lift (Eval.ask a.isProper) then pure (.object a.receiver)
    else throw (.defect (.lost .missing))

/-- A method, bound to an instance. -/
def bindMethod (owner method object : Nat) : Run Nat :=
  keeping (some ⟨owner, object⟩) (Eval.make (·.bind method (.object object)))

/-- A property of a value. -/
def getProperty (v : Value) (name : Token) : Run Value := do
  match v with
  | .object id =>
    match ← lift (Eval.ask ((·.instanceInfo id |>.fields.get? name.lexeme))) with
    | some v => pure v
    | none =>
      let classId ← lift (Eval.ask (·.instanceInfo id |>.classId))
      match ← lift (Eval.ask (·.findOwned? classId name.lexeme)) with
      | some (owner, m) => .function <$> bindMethod owner m id
      | none => lift (Eval.fail (.undefinedProperty name.lexeme) name)
  | _ => lift (Lox.getProperty v name)

/-- A method of the class that was above the class of the running method when that
class was declared, bound to the receiver. -/
def superMethod (around : Option Activation) (method : Token) : Run Value := do
  match around with
  | none => throw (.defect .unresolvedSuper)
  | some a =>
    match ← lift (Eval.ask (·.classInfo a.owner |>.superclass)) with
    | none => throw (.defect .superNotClass)
    | some parent =>
      match ← lift (Eval.ask (·.findOwned? parent method.lexeme)) with
      | some (owner, m) => .function <$> bindMethod owner m a.receiver
      | none => lift (Eval.fail (.undefinedProperty method.lexeme) method)

/-! ### Sequences and loops -/

/-- Runs statements up to the first that does not end normally. -/
def runAll (run : Stmt → Run Completion) : List Stmt → Run Completion
  | [] => pure .normal
  | s :: rest => do
    match ← run s with
    | .normal => runAll run rest
    | other => pure other

/-- Repeats a body while a condition holds. -/
def iterate (condition : Run Bool) (body : Run Completion) : (turns : Nat) → Run Completion
  | 0 => throw .unfinished
  | turns + 1 => do
    if ← condition then
      match ← body with
      | .normal => iterate condition body turns
      | .broke => pure .normal
      | .returned v => pure (.returned v)
    else pure .normal

/-! ### Calls -/

/-- How a statement is run inside a method, or outside of all. -/
abbrev Runner := Option Activation → Stmt → Run Completion

/-- Entering a function; a method needs its receiver. -/
def enter (around : Option Activation) : Run Unit :=
  match around with
  | none => pure ()
  | some a => do
    let _ ← receiver (some a)
    pure ()

/-- Runs the body of a function inside the method around it.  An initializer gives
its receiver. -/
def applyFunction (run : Runner) (id : Nat) (arguments : List Value) : Run Value := do
  let c ← lift (Eval.ask (·.closure id))
  let around := (← get).activation id
  enter around
  let env ← lift (Eval.make (·.newEnvironment (some c.scope)
    (bindParams c.declaration.params arguments)))
  let completion ← inEnvironment env (runAll (run around) c.declaration.body)
  if c.isInit then receiver around
  else match completion with
    | .returned v => pure v
    | _ => pure .nil

/-- Makes an instance of a class, and runs the initializer on it. -/
def construct (run : Runner) (classId : Nat) (arguments : List Value) : Run Value := do
  let object ← lift (Eval.make (·.newInstance classId))
  match ← lift (Eval.ask (·.findOwned? classId "init")) with
  | some (owner, m) =>
    let init ← bindMethod owner m object
    let _ ← applyFunction run init arguments
    pure (.object object)
  | none => pure (.object object)

/-- Calls a value that can be called. -/
def invoke (host : Host) (run : Runner) (paren : Token) (callee : Value)
    (arguments : List Value) : Run Value :=
  match callee with
  | .native f => lift (applyNative host paren f arguments)
  | .function id => applyFunction run id arguments
  | .classRef id => construct run id arguments
  | _ => lift (Eval.fail .notCallable paren)

/-- Calls a value, if it can be called with so many arguments. -/
def callValue (host : Host) (run : Runner) (paren : Token) (callee : Value)
    (arguments : List Value) : Run Value := do
  match ← lift (Eval.ask (·.arity? callee)) with
  | none => lift (Eval.fail .notCallable paren)
  | some arity =>
    if arguments.length ≠ arity then lift (Eval.fail (.arity arity arguments.length) paren)
    else catchExhausted paren (invoke host run paren callee arguments)

/-! ### Declarations -/

/-- Declares a function, which keeps the method around it. -/
def declareFunction (around : Option Activation) (f : Function) : Run Unit := do
  let scope := (← get).machine.current
  let id ← keeping around (Eval.make (·.newFunction { declaration := f, scope }))
  lift (Eval.define f.name.lexeme (.function id))

/-- The methods of a class that is being declared.  They have no receiver until they
are bound. -/
def makeMethods (scope : Nat) : (methods : List Function) → (done : Bindings Nat) →
    Run (Bindings Nat)
  | [], done => pure done
  | f :: rest, done => do
    let id ← keeping none
      (Eval.make (·.newFunction { declaration := f, scope, isInit := f.isInit }))
    makeMethods scope rest (done.set f.name.lexeme id)

/-- Declares a class. -/
def declareClass (name : Token) (superclass : Option Nat) (methods : List Function) :
    Run Unit := do
  lift (Eval.define name.lexeme .nil)
  let current := (← get).machine.current
  let scope ← match superclass with
    | some parent =>
      lift (Eval.make
        (·.newEnvironment (some current) (Bindings.empty.set "super" (.classRef parent))))
    | none => pure current
  let table ← makeMethods scope methods .empty
  let id ← lift (Eval.make (·.newClass { name := name.lexeme, superclass, methods := table }))
  lift (Eval.define name.lexeme (.classRef id))

/-! ### Expressions and statements -/

mutual

/-- The value of an expression inside a method, or outside of all. -/
def eval (host : Host) : (frames : Nat) → Option Activation → Expr → Run Value
  | 0, _, _ => throw .exhausted
  | n + 1, a, e =>
    match e with
    | .literal value => pure (.ofLiteral value)
    | .grouping inner => eval host n a inner
    | .unary op right => do
      let v ← eval host n a right
      lift (applyUnary op v)
    | .binary left op right => do
      let u ← eval host n a left
      let v ← eval host n a right
      lift (applyBinary op u v)
    | .logical left op right => do
      let v ← eval host n a left
      if decides op v then pure v else eval host n a right
    | .var ref => lift (Eval.lookup ref)
    | .assign target value => do
      let v ← eval host n a value
      lift (Eval.assign target v)
      pure v
    | .call callee paren arguments => do
      let f ← eval host n a callee
      let vs ← arguments.mapM (eval host n a)
      callValue host (exec host n) paren f vs
    | .get object name => do
      let v ← eval host n a object
      getProperty v name
    | .set object name value => do
      let o ← eval host n a object
      if hasFields o then
        let v ← eval host n a value
        lift (setProperty o name v)
        pure v
      else lift (Eval.fail .noFields name)
    | .thisRef _ => receiver a
    | .superRef _ method => superMethod a method
    | .blank _ | .bare _ | .misplaced _ => throw (.defect (.noExpression e.kindName))

/-- Runs a statement inside a method, or outside of all. -/
def exec (host : Host) : (frames : Nat) → Runner
  | 0, _, _ => throw .exhausted
  | n + 1, a, s =>
    match s with
    | .expression e => do
      let _ ← eval host n a e
      pure .normal
    | .print e => do
      let v ← eval host n a e
      match ← lift (Eval.ask (·.display? n v)) with
      | some text =>
        lift (Eval.writeLine text)
        pure .normal
      | none => throw .exhausted
    | .varDecl name init => do
      let v ← match init with
        | some e => eval host n a e
        | none => pure .nil
      lift (Eval.define name.lexeme v)
      pure .normal
    | .block body => do
      let current := (← get).machine.current
      let env ← lift (Eval.make (·.newEnvironment (some current)))
      inEnvironment env (runAll (exec host n a) body)
    | .ifElse condition thenBranch elseBranch => do
      let c ← eval host n a condition
      if c.isTruthy then exec host n a thenBranch
      else match elseBranch with
        | some s => exec host n a s
        | none => pure .normal
    | .whileLoop condition body =>
      iterate (do return (← eval host n a condition).isTruthy) (exec host n a body) host.turns
    | .breakLoop _ => pure .broke
    | .funDecl f => do
      declareFunction a f
      pure .normal
    | .returnWith _ value => do
      match value with
      | some e => return .returned (← eval host n a e)
      | none => pure (.returned .nil)
    | .classDecl name superclass methods => do
      match superclass with
      | none =>
        declareClass name none methods
        pure .normal
      | some ref =>
        match ← lift (Eval.lookup ref) with
        | .classRef parent =>
          declareClass name (some parent) methods
          pure .normal
        | _ => lift (Eval.fail .superclassNotClass ref.token)
    | .misplaced _ => throw (.defect (.noStatement s.kindName))

end

/-! ### Units and sessions -/

/-- Runs a top-level statement.  A recorded expression gives its text. -/
def runTopLevel (host : Host) (levels : Nat) (record : Bool) (s : Stmt) :
    Run (Option String) :=
  catchExhausted (Node.firstToken (.stmt s)) do
    match record, s with
    | true, .expression e =>
      let v ← eval host levels none e
      match ← lift (Eval.ask (·.display? levels v)) with
      | some text => pure (some text)
      | none => throw .exhausted
    | _, _ =>
      let _ ← exec host levels none s
      pure none

/-- Runs top-level statements up to the first that stops. -/
def runStatements (host : Host) (levels : Nat) (record : Bool) :
    List Stmt → (value : Option String) → World → Ending × Option String × World
  | [], value, w => (.finished, value, w)
  | s :: rest, value, w =>
    match runTopLevel host levels record s w with
    | .ok text w => runStatements host levels record rest (text <|> value) w
    | .error stop w => (.ofStop stop, value, w)

/-- Runs the statements of a unit. -/
def interpret (host : Host) (settings : Settings) (statements : List Stmt)
    (listing : Listing) (report : Report) (w : World) : RunResult × World :=
  let levels := settings.frames host / framesPerLevel
  let (ending, value, w) := runStatements host levels settings.replMode statements none
    { w with machine := { w.machine with output := "" } }
  ({ output := w.machine.output, ending, value, report := ending.record listing report }, w)

/-- Checks a source and, if it has no error, runs it. -/
def run (host : Host) (settings : Settings) (file : Option String) (source : String)
    (w : World) : RunResult × World :=
  let checked := check host settings file source
  if checked.report.hasErrors then ({ ending := .rejected, report := checked.report }, w)
  else interpret host settings checked.statements (Listing.ofText source) checked.report w

/-- Runs sources one after another, and gives what came of each. -/
def runSources (host : Host) (settings : Settings) :
    List Source → World → List RunResult × World
  | [], w => ([], w)
  | source :: rest, w =>
    let (result, w) := run host settings source.file source.text w
    let (results, w) := runSources host settings rest w
    (result :: results, w)

end Receiving

end Lox
