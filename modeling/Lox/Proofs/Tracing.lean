/-
Runs that keep all of their states.

A run usually gives the state that it ends in.  Here it also keeps every state on the way:
the one before each change of the heap or of the output, and the one before each time that
another environment becomes the current one.  Everything else is done as the machine does it.

* `Trace` — a machine, and the machines before it;
* `step` — a computation that changes the machine at most once;
* `eval`, `exec` — expressions and statements;
* `interpret`, `run`, `runSources` — units and sessions.
-/
import Lox.Proofs.Sessions

namespace Lox.Tracing

/-- A machine, and the machines before it, the last one first. -/
structure Trace where
  machine : Machine
  past : List Machine := []

namespace Trace

/-- All machines of a trace, the last one first. -/
def states (t : Trace) : List Machine :=
  t.machine :: t.past

/-- The trace goes on with another machine. -/
def on (t : Trace) (m : Machine) : Trace where
  machine := m
  past := t.states

/-- The trace before any program has run. -/
def initial : Trace where
  machine := .initial

/-- The trace goes on in another environment. -/
def inside (t : Trace) (e : Nat) : Trace :=
  t.on { t.machine with current := e }

end Trace

/-- A computation that keeps its states. -/
abbrev Run := EStateM Stop Trace

/-- One step of the machine. -/
def step {α : Type} (p : Eval α) : Run α := fun t =>
  match p t.machine with
  | .ok a m => .ok a (t.on m)
  | .error e m => .error e (t.on m)

/-- Reads the heap. -/
def ask {α : Type} (r : Heap → α) : Run α :=
  return r (← get).machine.heap

/-- Too deep a nesting becomes a fault at a token. -/
def catchExhausted {α : Type} (paren : Token) (p : Run α) : Run α := fun t =>
  match p t with
  | .error .exhausted t => .error (.fault .stackOverflow paren) t
  | result => result

/-- Runs a computation in another environment. -/
def inEnvironment {α : Type} (e : Nat) (p : Run α) : Run α := fun t =>
  match p (t.inside e) with
  | .ok a u => .ok a (u.inside t.machine.current)
  | .error stop u => .error stop (u.inside t.machine.current)

/-! ### Sequences and loops -/

/-- Runs statements up to the first that does not end normally. -/
def runAll (run : Stmt → Run Completion) : List Stmt → Run Completion
  | [] => pure .normal
  | s :: rest => do
    match ← run s with
    | .normal => runAll run rest
    | other => pure other

/-- Repeats a body while a condition holds. -/
def iterate (condition : Run Bool) (body : Run Completion) : (turns : Nat) → Run Completion
  | 0 => throw .unfinished
  | turns + 1 => do
    if ← condition then
      match ← body with
      | .normal => iterate condition body turns
      | .broke => pure .normal
      | .returned v => pure (.returned v)
    else pure .normal

/-! ### Calls -/

/-- Runs the body of a function in an environment of its own. -/
def applyFunction (run : Stmt → Run Completion) (id : Nat) (arguments : List Value) :
    Run Value := do
  let c ← ask (·.closure id)
  let env ← step (Eval.make (·.newEnvironment (some c.scope)
    (bindParams c.declaration.params arguments)))
  let completion ← inEnvironment env (runAll run c.declaration.body)
  if c.isInit then step (do Eval.found (← Eval.ask (·.environments.getAt c.scope 0 "this")))
  else match completion with
    | .returned v => pure v
    | _ => pure .nil

/-- Makes an instance of a class, and runs the initializer on it. -/
def construct (run : Stmt → Run Completion) (classId : Nat) (arguments : List Value) :
    Run Value := do
  let object := .object (← step (Eval.make (·.newInstance classId)))
  match ← ask (·.findMethod? classId "init") with
  | some m =>
    let init ← step (Eval.make (·.bind m object))
    let _ ← applyFunction run init arguments
    pure object
  | none => pure object

/-- Calls a value that can be called. -/
def invoke (host : Host) (run : Stmt → Run Completion) (paren : Token) (callee : Value)
    (arguments : List Value) : Run Value :=
  match callee with
  | .native f => step (applyNative host paren f arguments)
  | .function id => applyFunction run id arguments
  | .classRef id => construct run id arguments
  | _ => step (Eval.fail .notCallable paren)

/-- Calls a value, if it can be called with so many arguments. -/
def callValue (host : Host) (run : Stmt → Run Completion) (paren : Token) (callee : Value)
    (arguments : List Value) : Run Value := do
  match ← ask (·.arity? callee) with
  | none => step (Eval.fail .notCallable paren)
  | some arity =>
    if arguments.length ≠ arity then step (Eval.fail (.arity arity arguments.length) paren)
    else catchExhausted paren (invoke host run paren callee arguments)

/-! ### Declarations -/

/-- Declares a function in the current environment. -/
def declareFunction (f : Function) : Run Unit := do
  let scope := (← get).machine.current
  let id ← step (Eval.make (·.newFunction { declaration := f, scope }))
  step (Eval.define f.name.lexeme (.function id))

/-- The methods of a class that is being declared. -/
def makeMethods (scope : Nat) : (methods : List Function) → (done : Bindings Nat) →
    Run (Bindings Nat)
  | [], done => pure done
  | f :: rest, done => do
    let id ← step (Eval.make (·.newFunction { declaration := f, scope, isInit := f.isInit }))
    makeMethods scope rest (done.set f.name.lexeme id)

/-- Declares a class in the current environment. -/
def declareClass (name : Token) (superclass : Option Nat) (methods : List Function) :
    Run Unit := do
  step (Eval.define name.lexeme .nil)
  let current := (← get).machine.current
  let scope ← match superclass with
    | some parent =>
      step (Eval.make
        (·.newEnvironment (some current) (Bindings.empty.set "super" (.classRef parent))))
    | none => pure current
  let table ← makeMethods scope methods .empty
  let id ← step (Eval.make (·.newClass { name := name.lexeme, superclass, methods := table }))
  step (Eval.define name.lexeme (.classRef id))

/-! ### Expressions and statements -/

mutual

/-- The value of an expression. -/
def eval (host : Host) : (frames : Nat) → Expr → Run Value
  | 0, _ => throw .exhausted
  | n + 1, e =>
    match e with
    | .literal value => pure (.ofLiteral value)
    | .grouping inner => eval host n inner
    | .unary op right => do
      let v ← eval host n right
      step (applyUnary op v)
    | .binary left op right => do
      let u ← eval host n left
      let v ← eval host n right
      step (applyBinary op u v)
    | .logical left op right => do
      let v ← eval host n left
      if decides op v then pure v else eval host n right
    | .var ref => step (Eval.lookup ref)
    | .assign target value => do
      let v ← eval host n value
      step (Eval.assign target v)
      pure v
    | .call callee paren arguments => do
      let f ← eval host n callee
      let vs ← arguments.mapM (eval host n)
      callValue host (exec host n) paren f vs
    | .get object name => do
      let v ← eval host n object
      step (getProperty v name)
    | .set object name value => do
      let o ← eval host n object
      if hasFields o then
        let v ← eval host n value
        step (setProperty o name v)
        pure v
      else step (Eval.fail .noFields name)
    | .thisRef ref => step (Eval.lookup ref)
    | .superRef ref method => step (superMethod ref method)
    | .blank _ | .bare _ | .misplaced _ => throw (.defect (.noExpression e.kindName))

/-- Runs a statement. -/
def exec (host : Host) : (frames : Nat) → Stmt → Run Completion
  | 0, _ => throw .exhausted
  | n + 1, s =>
    match s with
    | .expression e => do
      let _ ← eval host n e
      pure .normal
    | .print e => do
      let v ← eval host n e
      match ← ask (·.display? n v) with
      | some text =>
        step (Eval.writeLine text)
        pure .normal
      | none => throw .exhausted
    | .varDecl name init => do
      let v ← match init with
        | some e => eval host n e
        | none => pure .nil
      step (Eval.define name.lexeme v)
      pure .normal
    | .block body => do
      let current := (← get).machine.current
      let env ← step (Eval.make (·.newEnvironment (some current)))
      inEnvironment env (runAll (exec host n) body)
    | .ifElse condition thenBranch elseBranch => do
      let c ← eval host n condition
      if c.isTruthy then exec host n thenBranch
      else match elseBranch with
        | some s => exec host n s
        | none => pure .normal
    | .whileLoop condition body =>
      iterate (do return (← eval host n condition).isTruthy) (exec host n body) host.turns
    | .breakLoop _ => pure .broke
    | .funDecl f => do
      declareFunction f
      pure .normal
    | .returnWith _ value => do
      match value with
      | some e => return .returned (← eval host n e)
      | none => pure (.returned .nil)
    | .classDecl name superclass methods => do
      match superclass with
      | none =>
        declareClass name none methods
        pure .normal
      | some ref =>
        match ← step (Eval.lookup ref) with
        | .classRef parent =>
          declareClass name (some parent) methods
          pure .normal
        | _ => step (Eval.fail .superclassNotClass ref.token)
    | .misplaced _ => throw (.defect (.noStatement s.kindName))

end

/-! ### Units and sessions -/

/-- Runs a top-level statement.  A recorded expression gives its text. -/
def runTopLevel (host : Host) (levels : Nat) (record : Bool) (s : Stmt) :
    Run (Option String) :=
  catchExhausted (Node.firstToken (.stmt s)) do
    match record, s with
    | true, .expression e =>
      let v ← eval host levels e
      match ← ask (·.display? levels v) with
      | some text => pure (some text)
      | none => throw .exhausted
    | _, _ =>
      let _ ← exec host levels s
      pure none

/-- Runs top-level statements up to the first that stops. -/
def runStatements (host : Host) (levels : Nat) (record : Bool) :
    List Stmt → (value : Option String) → Trace → Ending × Option String × Trace
  | [], value, t => (.finished, value, t)
  | s :: rest, value, t =>
    match runTopLevel host levels record s t with
    | .ok text t => runStatements host levels record rest (text <|> value) t
    | .error stop t => (.ofStop stop, value, t)

/-- Runs the statements of a unit. -/
def interpret (host : Host) (settings : Settings) (statements : List Stmt)
    (listing : Listing) (report : Report) (t : Trace) : RunResult × Trace :=
  let levels := settings.frames host / framesPerLevel
  let (ending, value, t) := runStatements host levels settings.replMode statements none
    (t.on { t.machine with output := "" })
  ({ output := t.machine.output, ending, value, report := ending.record listing report }, t)

/-- Checks a source and, if it has no error, runs it. -/
def run (host : Host) (settings : Settings) (file : Option String) (source : String)
    (t : Trace) : RunResult × Trace :=
  let checked := check host settings file source
  if checked.report.hasErrors then ({ ending := .rejected, report := checked.report }, t)
  else interpret host settings checked.statements (Listing.ofText source) checked.report t

/-- Runs sources one after another, and gives what came of each. -/
def runSources (host : Host) (settings : Settings) :
    List Source → Trace → List RunResult × Trace
  | [], t => ([], t)
  | source :: rest, t =>
    let (result, t) := run host settings source.file source.text t
    let (results, t) := runSources host settings rest t
    (result :: results, t)

end Lox.Tracing
