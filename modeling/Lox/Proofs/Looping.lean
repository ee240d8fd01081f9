/-
Running `for` loops as they are written.

A `for` loop opens one scope if it has an initializer, and runs the initializer once.  Then
each turn looks at the condition, if there is one, runs the body, and evaluates the increment,
if there is one.  A `break` ends the loop and a `return` goes on outward, both without the
increment.  The condition and the increment are evaluated among the names of the header;
a body is a statement, and a statement leaves no name behind.

The rest is done as by lexical scoping, on the same objects and cells.  Functions keep their
bodies as they were written.

* `World` — objects and cells, and the bodies of functions;
* `turn`, `repeating` — the turns of a loop;
* `eval`, `exec`, `declare` — expressions, statements and declarations;
* `interpret`, `run`, `runSources` — units and sessions.
-/
import Lox.Proofs.AsWritten
import Lox.Proofs.Sessions

namespace Lox.Written

open Lox.Lexical (View)

/-! ### States -/

/-- Objects and cells, and the body of every function as it was written. -/
structure World where
  base : Lexical.World
  bodies : Array (List Declaration) := #[]

/-- The state before any program has run. -/
def World.initial : World where
  base := .initial

/-- The body of a function. -/
def World.body (w : World) (id : Nat) : List Declaration :=
  w.bodies.getD id []

/-- A computation on the state. -/
abbrev Run := EStateM Stop World

/-- A computation on the objects and cells alone. -/
def lift {α : Type} (p : Lexical.Run α) : Run α := fun w =>
  match p w.base with
  | .ok a base => .ok a { w with base }
  | .error e base => .error e { w with base }

/-- A function is made, with a body. -/
def keeping (body : List Declaration) (p : Lexical.Run Nat) : Run Nat := fun w =>
  match p w.base with
  | .ok id base => .ok id { base, bodies := w.bodies.push body }
  | .error e base => .error e { w with base }

/-- Reads the heap. -/
def ask {α : Type} (f : Heap → α) : Run α :=
  lift (Lexical.lift (Eval.ask f))

/-- Stops at a fault. -/
def fail {α : Type} (f : Fault) (t : Token) : Run α :=
  throw (.fault f t)

/-- Too deep a nesting becomes a fault at a token. -/
def catchExhausted {α : Type} (t : Token) (p : Run α) : Run α := fun w =>
  match p w with
  | .error .exhausted w => .error (.fault .stackOverflow t) w
  | result => result

/-- The names around a place, the innermost first, with their cells. -/
abbrev Names := List (String × Nat)

/-! ### Functions and classes -/

/-- A new function that keeps a view. -/
def newFunction (f : Routine) (isInit : Bool) (V : View) : Run Nat :=
  keeping f.body (Lexical.newFunction f.tree isInit V)

/-- A method bound to a receiver. -/
def bindMethod (method : Nat) (receiver : Value) : Run Nat := do
  keeping ((← get).body method) (Lexical.bindMethod method receiver)

/-- A property of a value. -/
def getProperty (v : Value) (name : Token) : Run Value := do
  match v with
  | .object id =>
    match ← ask ((·.instanceInfo id |>.fields.get? name.lexeme)) with
    | some v => pure v
    | none =>
      let classId ← ask (·.instanceInfo id |>.classId)
      match ← ask (·.findMethod? classId name.lexeme) with
      | some m => .function <$> bindMethod m (.object id)
      | none => fail (.undefinedProperty name.lexeme) name
  | _ => lift (Lexical.lift (Lox.getProperty v name))

/-- A method of the class in the cell of `super`, bound to the receiver in the cell of
`this`. -/
def superMethod (names : Names) (method : Token) : Run Value := do
  match names.lookup "super", names.lookup "this" with
  | some parent, some receiver =>
    match (← get).base.cell parent with
    | .classRef classId =>
      match ← ask (·.findMethod? classId method.lexeme) with
      | some m => .function <$> bindMethod m ((← get).base.cell receiver)
      | none => fail (.undefinedProperty method.lexeme) method
    | _ => throw (.defect .superNotClass)
  | _, _ => throw (.defect .unresolvedSuper)

/-- Declares a function, which sees its own name. -/
def declareFunction (V : View) (f : Routine) : Run View := do
  let V ← lift (V.declare f.name.lexeme)
  let id ← newFunction f false V
  lift (V.fill f.name.lexeme (.function id))
  pure V

/-- The methods of a class that is being declared. -/
def makeMethods (V : View) : (methods : List Routine) → (done : Bindings Nat) →
    Run (Bindings Nat)
  | [], done => pure done
  | f :: rest, done => do
    let id ← newFunction f f.tree.isInit V
    makeMethods V rest (done.set f.name.lexeme id)

/-- Declares a class, which its methods see.  The methods of a subclass see `super` too. -/
def declareClass (V : View) (name : Token) (superclass : Option Nat)
    (methods : List Routine) : Run View := do
  let V ← lift (V.declare name.lexeme)
  lift (V.fill name.lexeme .nil)
  let inner ← match superclass with
    | some parent => lift (V.extend "super" (.classRef parent))
    | none => pure V
  let table ← makeMethods inner methods .empty
  let id ← lift (Lexical.lift
    (Eval.make (·.newClass { name := name.lexeme, superclass, methods := table })))
  lift (V.fill name.lexeme (.classRef id))
  pure V

/-! ### Sequences and loops -/

/-- How a declaration is run in a view: it ends somehow, and what stands after it sees what
it has declared. -/
abbrev Runner := View → Declaration → Run (Completion × View)

/-- Runs declarations and statements up to the first that does not end normally. -/
def runAll (run : Runner) : View → List Declaration → Run Completion
  | _, [] => pure .normal
  | V, d :: rest => do
    match ← run V d with
    | (.normal, V) => runAll run V rest
    | (other, _) => pure other

/-- The body of a loop, and the increment if the body ends normally. -/
def turn (body : Run Completion) (increment : Run Unit) : Run Completion := do
  match ← body with
  | .normal => do
    increment
    pure .normal
  | other => pure other

/-- The turns of a loop, as long as the condition holds and they end normally. -/
def repeating (holds : Run Bool) (body : Run Completion) : (turns : Nat) → Run Completion
  | 0 => throw .unfinished
  | turns + 1 => do
    if ← holds then
      match ← body with
      | .normal => repeating holds body turns
      | .broke => pure .normal
      | .returned v => pure (.returned v)
    else pure .normal

/-! ### Calls -/

/-- Runs the body of a function, with its parameters in front of the view that it keeps.  An
initializer gives its receiver. -/
def applyFunction (run : Runner) (id : Nat) (arguments : List Value) : Run Value := do
  let c ← ask (·.closure id)
  let V := (← get).base.view id
  let body := (← get).body id
  let inner ← lift (View.extendAll ⟨true, V.names⟩ (c.declaration.params.zip arguments))
  let completion ← runAll run inner body
  if c.isInit then
    match V.cell? "this" with
    | some receiver => return (← get).base.cell receiver
    | none => throw (.defect (.lost .missing))
  else match completion with
    | .returned v => pure v
    | _ => pure .nil

/-- Makes an instance of a class, and runs the initializer on it. -/
def construct (run : Runner) (classId : Nat) (arguments : List Value) : Run Value := do
  let object := .object (← lift (Lexical.lift (Eval.make (·.newInstance classId))))
  match ← ask (·.findMethod? classId "init") with
  | some m =>
    let init ← bindMethod m object
    let _ ← applyFunction run init arguments
    pure object
  | none => pure object

/-- Calls a value that can be called. -/
def invoke (host : Host) (run : Runner) (paren : Token) (callee : Value)
    (arguments : List Value) : Run Value :=
  match callee with
  | .native f => lift (Lexical.lift (applyNative host paren f arguments))
  | .function id => applyFunction run id arguments
  | .classRef id => construct run id arguments
  | _ => fail .notCallable paren

/-- Calls a value, if it can be called with so many arguments. -/
def callValue (host : Host) (run : Runner) (paren : Token) (callee : Value)
    (arguments : List Value) : Run Value := do
  match ← ask (·.arity? callee) with
  | none => fail .notCallable paren
  | some arity =>
    if arguments.length ≠ arity then fail (.arity arity arguments.length) paren
    else catchExhausted paren (invoke host run paren callee arguments)

/-! ### Expressions, statements and declarations -/

mutual

/-- The value of an expression. -/
def eval (host : Host) (frames : Nat) (names : Names) (e : Expr) : Run Value :=
  match frames with
  | 0 => throw .exhausted
  | n + 1 =>
    match e with
    | .literal value => pure (.ofLiteral value)
    | .grouping inner => eval host n names inner
    | .unary op right => do
      let v ← eval host n names right
      lift (Lexical.lift (applyUnary op v))
    | .binary left op right => do
      let a ← eval host n names left
      let b ← eval host n names right
      lift (Lexical.lift (applyBinary op a b))
    | .logical left op right => do
      let a ← eval host n names left
      if decides op a then pure a else eval host n names right
    | .var ref => lift (View.lookup ⟨true, names⟩ ref.token)
    | .assign target value => do
      let v ← eval host n names value
      lift (View.assign ⟨true, names⟩ target.token v)
      pure v
    | .call callee paren arguments => do
      let f ← eval host n names callee
      let vs ← arguments.mapM (eval host n names)
      callValue host (declare host n) paren f vs
    | .get object name => do
      let v ← eval host n names object
      getProperty v name
    | .set object name value => do
      let o ← eval host n names object
      if hasFields o then
        let v ← eval host n names value
        lift (Lexical.lift (setProperty o name v))
        pure v
      else fail .noFields name
    | .thisRef ref => lift (View.lookup ⟨true, names⟩ ref.token)
    | .superRef _ method => superMethod names method
    | .blank _ | .bare _ | .misplaced _ => throw (.defect (.noExpression e.kindName))
termination_by (frames, 0)

/-- Runs a statement. -/
def exec (host : Host) (frames : Nat) (names : Names) (s : Statement) : Run Completion :=
  match frames with
  | 0 => throw .exhausted
  | n + 1 =>
    match s with
    | .expression e => do
      let _ ← eval host n names e
      pure .normal
    | .print e => do
      let v ← eval host n names e
      match ← ask (·.display? n v) with
      | some text =>
        lift (Lexical.lift (Eval.writeLine text))
        pure .normal
      | none => throw .exhausted
    | .block body => runAll (declare host n) ⟨true, names⟩ body
    | .ifElse condition thenBranch elseBranch => do
      let c ← eval host n names condition
      if c.isTruthy then exec host n names thenBranch
      else match elseBranch with
        | some s => exec host n names s
        | none => pure .normal
    | .whileLoop condition body =>
      repeating (do return (← eval host n names condition).isTruthy) (exec host n names body)
        host.turns
    | .forLoop init condition increment body => do
      let header ← init.elim (pure names) fun i => do
        let (_, V) ← declare host n ⟨true, names⟩ i.declaration
        pure V.names
      -- The scope of the initializer takes a frame, and so does the increment.
      let outer := n - init.toList.length
      let inner := outer - increment.toList.length
      repeating
        (condition.elim (pure true) fun c => do return (← eval host outer header c).isTruthy)
        (turn (exec host inner header body)
          (increment.elim (pure ()) fun e => do
            let _ ← eval host (inner - 1) header e
            pure ()))
        host.turns
    | .breakLoop _ => pure .broke
    | .returnWith _ value => do
      match value with
      | some e => return .returned (← eval host n names e)
      | none => pure (.returned .nil)
termination_by (frames, 0)

/-- Runs a declaration. -/
def declare (host : Host) (frames : Nat) (V : View) (d : Declaration) :
    Run (Completion × View) :=
  match d with
  | .statement s => do
    let completion ← exec host frames V.names s
    pure (completion, V)
  | .varDecl name init =>
    match frames with
    | 0 => throw .exhausted
    | n + 1 => do
      let V ← lift (V.declare name.lexeme)
      let v ← match init with
        | some e => eval host n V.names e
        | none => pure .nil
      lift (V.fill name.lexeme v)
      pure (.normal, V)
  | .funDecl f =>
    match frames with
    | 0 => throw .exhausted
    | _ + 1 => do
      let V ← declareFunction V f
      pure (.normal, V)
  | .classDecl name superclass methods =>
    match frames with
    | 0 => throw .exhausted
    | _ + 1 => do
      match superclass with
      | none =>
        let V ← declareClass V name none methods
        pure (.normal, V)
      | some ref =>
        match ← lift (V.lookup ref.token) with
        | .classRef parent =>
          let V ← declareClass V name (some parent) methods
          pure (.normal, V)
        | _ => fail .superclassNotClass ref.token
termination_by (frames, 1)

end

/-! ### Units and sessions -/

/-- Runs a declaration of the top level.  A recorded expression gives its text. -/
def runTopLevel (host : Host) (levels : Nat) (record : Bool) (d : Declaration) :
    Run (Option String) :=
  catchExhausted (Node.firstToken (.stmt d.tree)) do
    match record, d with
    | true, .statement (.expression e) =>
      let v ← eval host levels [] e
      match ← ask (·.display? levels v) with
      | some text => pure (some text)
      | none => throw .exhausted
    | _, _ =>
      let _ ← declare host levels {} d
      pure none

/-- Runs declarations of the top level up to the first that stops. -/
def runProgram (host : Host) (levels : Nat) (record : Bool) :
    List Declaration → (value : Option String) → World → Ending × Option String × World
  | [], value, w => (.finished, value, w)
  | d :: rest, value, w =>
    match runTopLevel host levels record d w with
    | .ok text w => runProgram host levels record rest (text <|> value) w
    | .error stop w => (.ofStop stop, value, w)

/-- Runs a unit, and tells the output, the ending and the last recorded text. -/
def interpret (host : Host) (settings : Settings) (program : List Declaration) (w : World) :
    (String × Ending × Option String) × World :=
  let levels := settings.frames host / framesPerLevel
  let (ending, value, w) :=
    runProgram host levels settings.replMode program none { w with base := w.base.quiet }
  ((w.base.machine.output, ending, value), w)

/-- The declarations and statements of a source as they are written. -/
def read (host : Host) (settings : Settings) (file : Option String) (source : String) :
    List Declaration :=
  let checked := check host settings file source
  parse (settings.frames host) checked.tokens.toList (Listing.ofText source) checked.scanned

/-- Runs a source, if it has no error. -/
def run (host : Host) (settings : Settings) (file : Option String) (source : String)
    (w : World) : (String × Ending × Option String) × World :=
  if (check host settings file source).report.hasErrors then (("", .rejected, none), w)
  else interpret host settings (read host settings file source) w

/-- Runs sources one after another. -/
def runSources (host : Host) (settings : Settings) : List Source → World →
    List (String × Ending × Option String) × World
  | [], w => ([], w)
  | source :: rest, w =>
    let (result, w) := run host settings source.file source.text w
    let (results, w) := runSources host settings rest w
    (result :: results, w)

end Lox.Written
