/-
Lexical scoping, without distances.

Here the names around a place are a list of names and cells, the innermost
first, and nothing but the list decides what a name refers to.  A declaration
puts a new cell in front of it, and a function keeps the list as it was when
the function was declared.  Names that are not in the list are looked up among
the globals when they are used.  Trees are run as they were read: the distances
that resolution fills in play no part.

* `View` — the names around a place;
* `World` — the state: objects, cells, globals, and the views that functions
  keep;
* `View.declare`, `View.extend` — declarations;
* `eval`, `exec` — expressions and statements;
* `interpret`, `run` — the statements of a unit, and a source.
-/
import Lox.Session

namespace Lox.Lexical

/-! ### Names and cells -/

/-- The names around a place, the innermost first, with their cells.  Only
among the globals a place is not local. -/
structure View where
  isLocal : Bool := false
  names : List (String × Nat) := []
  deriving Inhabited

/-- The cell of the innermost declaration of a name. -/
def View.cell? (V : View) (name : String) : Option Nat :=
  V.names.lookup name

/-- The state of a running program.  Of the machine only the objects, the output
and the readings of the clock are used; `views` has one view for every function
of the machine. -/
structure World where
  machine : Machine
  globals : Bindings Value
  cells : Array Value := #[]
  views : Array View := #[]

/-- The state before any program has run. -/
def World.initial : World where
  machine := { heap := {} }
  globals := ⟨Native.registry.map fun (name, f) => (name, .native f)⟩

/-- The view that a function keeps. -/
def World.view (w : World) (id : Nat) : View :=
  w.views.getD id default

/-- The value in a cell. -/
def World.cell (w : World) (c : Nat) : Value :=
  w.cells.getD c .nil

/-- A computation on the state. -/
abbrev Run := EStateM Stop World

/-- A computation on the objects alone. -/
def lift {α : Type} (p : Eval α) : Run α := fun w =>
  match p w.machine with
  | .ok a m => .ok a { w with machine := m }
  | .error e m => .error e { w with machine := m }

/-- Too deep a nesting becomes a fault at a token. -/
def catchExhausted {α : Type} (t : Token) (p : Run α) : Run α := fun w =>
  match p w with
  | .error .exhausted w => .error (.fault .stackOverflow t) w
  | result => result

/-- Stops at a fault. -/
def fail {α : Type} (f : Fault) (t : Token) : Run α :=
  throw (.fault f t)

/-- The view with one more name in front, in a new cell. -/
def View.extend (V : View) (name : String) (v : Value) : Run View :=
  modifyGet fun w =>
    (⟨true, (name, w.cells.size) :: V.names⟩, { w with cells := w.cells.push v })

/-- The view with one more name after another in front. -/
def View.extendAll (V : View) : List (Token × Value) → Run View
  | [] => pure V
  | (p, v) :: rest => do
    let V ← V.extend p.lexeme v
    V.extendAll rest

/-- Declares a name; global names have no cells. -/
def View.declare (V : View) (name : String) : Run View :=
  if V.isLocal then V.extend name .nil else pure V

/-- Changes the value in a cell. -/
def setCell (c : Nat) (v : Value) : Run Unit :=
  modify fun w => { w with cells := w.cells.setIfInBounds c v }

/-- Changes or adds a global. -/
def setGlobal (name : String) (v : Value) : Run Unit :=
  modify fun w => { w with globals := w.globals.set name v }

/-- Gives a declared name its value. -/
def View.fill (V : View) (name : String) (v : Value) : Run Unit :=
  match V.cell? name with
  | some c => setCell c v
  | none => setGlobal name v

/-- The value of a name. -/
def View.lookup (V : View) (t : Token) : Run Value := do
  match V.cell? t.lexeme with
  | some c => return (← get).cell c
  | none =>
    match (← get).globals.get? t.lexeme with
    | some v => pure v
    | none => fail (.undefinedVariable t.lexeme) t

/-- Changes the value of a name. -/
def View.assign (V : View) (t : Token) (v : Value) : Run Unit := do
  match V.cell? t.lexeme with
  | some c => setCell c v
  | none =>
    if (← get).globals.binds t.lexeme then setGlobal t.lexeme v
    else fail (.undefinedVariable t.lexeme) t

/-! ### Functions and classes -/

/-- A new function that keeps a view. -/
def newFunction (declaration : Function) (isInit : Bool) (V : View) : Run Nat :=
  modifyGet fun w =>
    let (id, heap) := w.machine.heap.newFunction { declaration, scope := 0, isInit }
    (id, { w with machine := { w.machine with heap }, views := w.views.push V })

/-- A method bound to a receiver, which is in front of the view of the method as
`this`. -/
def bindMethod (method : Nat) (receiver : Value) : Run Nat := do
  let c ← lift (Eval.ask (·.closure method))
  let V ← ((← get).view method).extend "this" receiver
  newFunction c.declaration c.isInit V

/-- A property of a value. -/
def getProperty (v : Value) (name : Token) : Run Value := do
  match v with
  | .object id =>
    match ← lift (Eval.ask ((·.instanceInfo id |>.fields.get? name.lexeme))) with
    | some v => pure v
    | none =>
      let classId ← lift (Eval.ask (·.instanceInfo id |>.classId))
      match ← lift (Eval.ask (·.findMethod? classId name.lexeme)) with
      | some m => .function <$> bindMethod m (.object id)
      | none => fail (.undefinedProperty name.lexeme) name
  | _ => lift (Lox.getProperty v name)

/-- A method of the class in the cell of `super`, bound to the receiver in the
cell of `this`. -/
def superMethod (V : View) (method : Token) : Run Value := do
  match V.cell? "super", V.cell? "this" with
  | some parent, some receiver =>
    match (← get).cell parent with
    | .classRef classId =>
      match ← lift (Eval.ask (·.findMethod? classId method.lexeme)) with
      | some m => .function <$> bindMethod m ((← get).cell receiver)
      | none => fail (.undefinedProperty method.lexeme) method
    | _ => throw (.defect .superNotClass)
  | _, _ => throw (.defect .unresolvedSuper)

/-- Declares a function, which sees its own name. -/
def declareFunction (V : View) (f : Function) : Run View := do
  let V ← V.declare f.name.lexeme
  let id ← newFunction f false V
  V.fill f.name.lexeme (.function id)
  pure V

/-- The methods of a class that is being declared. -/
def makeMethods (V : View) : (methods : List Function) → (done : Bindings Nat) →
    Run (Bindings Nat)
  | [], done => pure done
  | f :: rest, done => do
    let id ← newFunction f f.isInit V
    makeMethods V rest (done.set f.name.lexeme id)

/-- Declares a class, which its methods see.  The methods of a subclass see
`super` too. -/
def declareClass (V : View) (name : Token) (superclass : Option Nat)
    (methods : List Function) : Run View := do
  let V ← V.declare name.lexeme
  V.fill name.lexeme .nil
  let inner ← match superclass with
    | some parent => V.extend "super" (.classRef parent)
    | none => pure V
  let table ← makeMethods inner methods .empty
  let id ← lift (Eval.make (·.newClass { name := name.lexeme, superclass, methods := table }))
  V.fill name.lexeme (.classRef id)
  pure V

/-! ### Sequences and loops -/

/-- How a statement is run in a view: it ends somehow, and the statements after
it see what it has declared. -/
abbrev Runner := View → Stmt → Run (Completion × View)

/-- Runs statements up to the first that does not end normally. -/
def runAll (run : Runner) : View → List Stmt → Run Completion
  | _, [] => pure .normal
  | V, s :: rest => do
    match ← run V s with
    | (.normal, V) => runAll run V rest
    | (other, _) => pure other

/-- Repeats a body while a condition holds. -/
def iterate (condition : Run Bool) (body : Run Completion) : (turns : Nat) → Run Completion
  | 0 => throw .unfinished
  | turns + 1 => do
    if ← condition then
      match ← body with
      | .normal => iterate condition body turns
      | .broke => pure .normal
      | .returned v => pure (.returned v)
    else pure .normal

/-! ### Calls -/

/-- Runs the body of a function, with its parameters in front of the view that
it keeps.  An initializer gives its receiver. -/
def applyFunction (run : Runner) (id : Nat) (arguments : List Value) : Run Value := do
  let c ← lift (Eval.ask (·.closure id))
  let V := (← get).view id
  let inner ← View.extendAll ⟨true, V.names⟩ (c.declaration.params.zip arguments)
  let completion ← runAll run inner c.declaration.body
  if c.isInit then
    match V.cell? "this" with
    | some receiver => return (← get).cell receiver
    | none => throw (.defect (.lost .missing))
  else match completion with
    | .returned v => pure v
    | _ => pure .nil

/-- Makes an instance of a class, and runs the initializer on it. -/
def construct (run : Runner) (classId : Nat) (arguments : List Value) : Run Value := do
  let object := .object (← lift (Eval.make (·.newInstance classId)))
  match ← lift (Eval.ask (·.findMethod? classId "init")) with
  | some m =>
    let init ← bindMethod m object
    let _ ← applyFunction run init arguments
    pure object
  | none => pure object

/-- Calls a value that can be called. -/
def invoke (host : Host) (run : Runner) (paren : Token) (callee : Value)
    (arguments : List Value) : Run Value :=
  match callee with
  | .native f => lift (applyNative host paren f arguments)
  | .function id => applyFunction run id arguments
  | .classRef id => construct run id arguments
  | _ => fail .notCallable paren

/-- Calls a value, if it can be called with so many arguments. -/
def callValue (host : Host) (run : Runner) (paren : Token) (callee : Value)
    (arguments : List Value) : Run Value := do
  match ← lift (Eval.ask (·.arity? callee)) with
  | none => fail .notCallable paren
  | some arity =>
    if arguments.length ≠ arity then fail (.arity arity arguments.length) paren
    else catchExhausted paren (invoke host run paren callee arguments)

/-! ### Expressions and statements -/

mutual

/-- The value of an expression. -/
def eval (host : Host) : (frames : Nat) → View → Expr → Run Value
  | 0, _, _ => throw .exhausted
  | n + 1, V, e =>
    match e with
    | .literal value => pure (.ofLiteral value)
    | .grouping inner => eval host n V inner
    | .unary op right => do
      let v ← eval host n V right
      lift (applyUnary op v)
    | .binary left op right => do
      let a ← eval host n V left
      let b ← eval host n V right
      lift (applyBinary op a b)
    | .logical left op right => do
      let a ← eval host n V left
      if decides op a then pure a else eval host n V right
    | .var ref => V.lookup ref.token
    | .assign target value => do
      let v ← eval host n V value
      V.assign target.token v
      pure v
    | .call callee paren arguments => do
      let f ← eval host n V callee
      let vs ← arguments.mapM (eval host n V)
      callValue host (exec host n) paren f vs
    | .get object name => do
      let v ← eval host n V object
      getProperty v name
    | .set object name value => do
      let o ← eval host n V object
      if hasFields o then
        let v ← eval host n V value
        lift (setProperty o name v)
        pure v
      else fail .noFields name
    | .thisRef ref => V.lookup ref.token
    | .superRef _ method => superMethod V method
    | .blank _ | .bare _ | .misplaced _ => throw (.defect (.noExpression e.kindName))

/-- Runs a statement. -/
def exec (host : Host) : (frames : Nat) → Runner
  | 0, _, _ => throw .exhausted
  | n + 1, V, s =>
    match s with
    | .expression e => do
      let _ ← eval host n V e
      pure (.normal, V)
    | .print e => do
      let v ← eval host n V e
      match ← lift (Eval.ask (·.display? n v)) with
      | some text =>
        lift (Eval.writeLine text)
        pure (.normal, V)
      | none => throw .exhausted
    | .varDecl name init => do
      let V ← V.declare name.lexeme
      let v ← match init with
        | some e => eval host n V e
        | none => pure .nil
      V.fill name.lexeme v
      pure (.normal, V)
    | .block body => do
      let completion ← runAll (exec host n) ⟨true, V.names⟩ body
      pure (completion, V)
    | .ifElse condition thenBranch elseBranch => do
      let c ← eval host n V condition
      if c.isTruthy then exec host n V thenBranch
      else match elseBranch with
        | some s => exec host n V s
        | none => pure (.normal, V)
    | .whileLoop condition body => do
      let completion ← iterate (do return (← eval host n V condition).isTruthy)
        (Prod.fst <$> exec host n V body) host.turns
      pure (completion, V)
    | .breakLoop _ => pure (.broke, V)
    | .funDecl f => do
      let V ← declareFunction V f
      pure (.normal, V)
    | .returnWith _ value => do
      match value with
      | some e => return (.returned (← eval host n V e), V)
      | none => pure (.returned .nil, V)
    | .classDecl name superclass methods => do
      match superclass with
      | none =>
        let V ← declareClass V name none methods
        pure (.normal, V)
      | some ref =>
        match ← V.lookup ref.token with
        | .classRef parent =>
          let V ← declareClass V name (some parent) methods
          pure (.normal, V)
        | _ => fail .superclassNotClass ref.token
    | .misplaced _ => throw (.defect (.noStatement s.kindName))

end

/-! ### Units -/

/-- Runs a top-level statement.  A recorded expression gives its text. -/
def runTopLevel (host : Host) (levels : Nat) (record : Bool) (s : Stmt) :
    Run (Option String) :=
  catchExhausted (Node.firstToken (.stmt s)) do
    match record, s with
    | true, .expression e =>
      let v ← eval host levels {} e
      match ← lift (Eval.ask (·.display? levels v)) with
      | some text => pure (some text)
      | none => throw .exhausted
    | _, _ =>
      let _ ← exec host levels {} s
      pure none

/-- Runs top-level statements up to the first that stops. -/
def runStatements (host : Host) (levels : Nat) (record : Bool) :
    List Stmt → (value : Option String) → World → Ending × Option String × World
  | [], value, w => (.finished, value, w)
  | s :: rest, value, w =>
    match runTopLevel host levels record s w with
    | .ok text w => runStatements host levels record rest (text <|> value) w
    | .error stop w => (.ofStop stop, value, w)

/-- The state with nothing printed yet. -/
def World.quiet (w : World) : World :=
  { w with machine := { w.machine with output := "" } }

/-- Runs the statements of a unit, and tells the output, the ending and the last
recorded text. -/
def interpret (host : Host) (settings : Settings) (statements : List Stmt) (w : World) :
    (String × Ending × Option String) × World :=
  let levels := settings.frames host / framesPerLevel
  let (ending, value, w) := runStatements host levels settings.replMode statements none w.quiet
  ((w.machine.output, ending, value), w)

/-- The statements of a source as they were read, without distances. -/
def read (host : Host) (settings : Settings) (file : Option String) (source : String) :
    List Stmt :=
  let checked := check host settings file source
  (Tree.parse (settings.frames host) checked.tokens.toList (Listing.ofText source)
    checked.scanned).1

/-- Runs a source, if it has no error. -/
def run (host : Host) (settings : Settings) (file : Option String) (source : String)
    (w : World) : (String × Ending × Option String) × World :=
  if (check host settings file source).report.hasErrors then (("", .rejected, none), w)
  else interpret host settings (read host settings file source) w

end Lox.Lexical
