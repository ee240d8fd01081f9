/-
What every computation of a program leaves as it was.

A statement or an expression may switch to other environments and make new
functions while it runs.  When it is over, in whichever way, the environment is
the one it began in, and every function there is was declared in the program.

The same induction shows that a run may be watched.  A watched run hands every
completion that nobody would ask for to an observer: a break that comes out of a
statement of a function body, or anything but a normal end of a top-level
statement.  As long as no statement of a function body breaks, a watched run is
the run itself.

* `Machine.At` — the invariant: the current environment, and where functions
  come from;
* `Agrees` — two computations do the same, and keep an invariant;
* `Watched.eval`, `Watched.exec` — evaluation with an observer;
* `Hereditary` — statements closed under parts, and the functions in them;
* `agrees_eval_and_exec`, `runStatements_watched` — watched and not, the same
  happens, and the invariant is kept;
* `at_run`, `at_runSources` — whole units keep it.
-/
import Lox.Proofs.Sessions

namespace Lox

open Eval

/-! ### The invariant -/

/-- The current environment is `k`, and every function is one of `P`. -/
structure Machine.At (P : Function → Prop) (k : Nat) (m : Machine) : Prop where
  current : m.current = k
  functions : ∀ id, P (m.heap.closure id).declaration

namespace Machine.At

variable {P : Function → Prop} {k : Nat} {m : Machine}

/-- Only the current environment and the functions matter. -/
theorem congr {m' : Machine} (h : m.At P k) (hc : m'.current = m.current)
    (hf : m'.heap.functions = m.heap.functions) : m'.At P k := by
  refine ⟨hc.trans h.current, fun id => ?_⟩
  unfold Heap.closure
  rw [hf]
  exact h.functions id

/-- One more function. -/
theorem newFunction {c : Closure} (h : m.At P k) (hc : P c.declaration) :
    Machine.At P k { m with heap := (m.heap.newFunction c).2 } := by
  refine ⟨h.current, fun id => ?_⟩
  rw [Heap.closure_newFunction]
  split
  · exact hc
  · exact h.functions id

/-- A bound method was declared where the method was. -/
theorem bind (h : m.At P k) (method : Nat) (receiver : Value) :
    Machine.At P k { m with heap := (m.heap.bind method receiver).2 } := by
  obtain ⟨scope, heap, hscope⟩ : ∃ scope heap, m.heap.newEnvironment
      (some (m.heap.closure method).scope) (Bindings.empty.set "this" receiver) = (scope, heap) :=
    ⟨_, _, rfl⟩
  have hfunctions : heap.functions = m.heap.functions := by
    cases hscope
    rfl
  have hinside : Machine.At P k { m with heap } := h.congr rfl hfunctions
  have hbind : m.heap.bind method receiver =
      heap.newFunction { m.heap.closure method with scope } := by
    unfold Heap.bind
    dsimp only
    rw [hscope]
  rw [hbind]
  exact hinside.newFunction (h.functions method)

end Machine.At

/-! ### Computations that do the same -/

/-- From every state in `I` two computations do the same, and come to a state in
`I`, also if they stop. -/
structure Agrees {α : Type} (I : Machine → Prop) (p q : Eval α) : Prop where
  same : ∀ {m}, I m → p m = q m
  stays : ∀ {m}, I m → I (EStateM.Result.final (p m))

/-- A computation keeps `I`. -/
abbrev Keeps {α : Type} (I : Machine → Prop) (p : Eval α) : Prop :=
  Agrees I p p

namespace Agrees

variable {α β : Type} {I : Machine → Prop} {p q : Eval α}

theorem left (h : Agrees I p q) : Keeps I p :=
  ⟨fun _ => rfl, h.stays⟩

theorem pure (a : α) : Keeps I (pure a) :=
  ⟨fun _ => rfl, fun h => h⟩

theorem throw (e : Stop) : Keeps I (throw e : Eval α) :=
  ⟨fun _ => rfl, fun h => h⟩

theorem fail (f : Fault) (t : Token) : Keeps I (Eval.fail f t : Eval α) :=
  throw _

theorem get : Keeps I get :=
  ⟨fun _ => rfl, fun h => h⟩

theorem modifyGet {f : Machine → α × Machine} (h : ∀ {m}, I m → I (f m).2) :
    Keeps I (modifyGet f) :=
  ⟨fun _ => rfl, h⟩

/-- What follows may rely on what the first step gave. -/
theorem bindOf {f g : α → Eval β} (h : Agrees I p q)
    (hf : ∀ a, (∃ m m', p m = .ok a m') → Agrees I (f a) (g a)) :
    Agrees I (p >>= f) (q >>= g) := by
  have hrun : ∀ {m}, I m → (p >>= f) m = (q >>= g) m ∧
      I (EStateM.Result.final ((p >>= f) m)) := by
    intro m hm
    have hsame := h.same hm
    have hstays := h.stays hm
    change EStateM.bind p f m = EStateM.bind q g m ∧
      I (EStateM.Result.final (EStateM.bind p f m))
    unfold EStateM.bind
    -- Both run the first step alike, and it keeps the invariant for the second.
    rw [← hsame]
    cases hp : p m with
    | ok a m' =>
      rw [hp] at hstays
      have hnext := hf a ⟨m, m', hp⟩
      exact ⟨hnext.same hstays, hnext.stays hstays⟩
    | error e m' =>
      rw [hp] at hstays
      exact ⟨rfl, hstays⟩
  exact ⟨fun hm => (hrun hm).1, fun hm => (hrun hm).2⟩

theorem bind {f g : α → Eval β} (h : Agrees I p q) (hf : ∀ a, Agrees I (f a) (g a)) :
    Agrees I (p >>= f) (q >>= g) :=
  h.bindOf fun a _ => hf a

theorem map (f : α → β) (h : Agrees I p q) : Agrees I (f <$> p) (f <$> q) := by
  rw [map_eq_pure_bind, map_eq_pure_bind]
  exact h.bind fun a => pure (f a)

theorem ite {c : Prop} [Decidable c] {p' q' : Eval α} (h : Agrees I p q)
    (h' : Agrees I p' q') : Agrees I (if c then p else p') (if c then q else q') := by
  split
  · exact h
  · exact h'

theorem mapM {ι : Type} {f g : ι → Eval α} (h : ∀ i, Agrees I (f i) (g i)) (l : List ι) :
    Agrees I (l.mapM f) (l.mapM g) := by
  induction l with
  | nil => exact pure []
  | cons i l ih =>
    rw [List.mapM_cons, List.mapM_cons]
    exact (h i).bind fun a => ih.bind fun as => pure (a :: as)

theorem ask (f : Heap → α) : Keeps I (Eval.ask f) :=
  get.bind fun _ => pure _

/-- What is found in a state with the invariant may be relied on. -/
theorem askOf {f : Heap → α} {Q : α → Prop} {g g' : α → Eval β}
    (hf : ∀ {m}, I m → Q (f m.heap)) (hg : ∀ a, Q a → Agrees I (g a) (g' a)) :
    Agrees I (Eval.ask f >>= g) (Eval.ask f >>= g') :=
  ⟨fun hm => (hg _ (hf hm)).same hm, fun hm => (hg _ (hf hm)).stays hm⟩

theorem found (e : Except Forest.Lost α) : Keeps I (Eval.found e) := by
  cases e with
  | ok a => exact pure a
  | error why => exact throw _

theorem catchExhausted (t : Token) (h : Agrees I p q) :
    Agrees I (Eval.catchExhausted t p) (Eval.catchExhausted t q) := by
  have hrun : ∀ {m}, I m → Eval.catchExhausted t p m = Eval.catchExhausted t q m ∧
      I (EStateM.Result.final (Eval.catchExhausted t p m)) := by
    intro m hm
    have hstays := h.stays hm
    unfold Eval.catchExhausted
    rw [← h.same hm]
    cases hp : p m with
    | ok a m' =>
      rw [hp] at hstays
      exact ⟨rfl, hstays⟩
    | error e m' =>
      rw [hp] at hstays
      cases e with
      | exhausted => exact ⟨rfl, hstays⟩
      | fault f t => exact ⟨rfl, hstays⟩
      | unfinished => exact ⟨rfl, hstays⟩
      | defect d => exact ⟨rfl, hstays⟩
  exact ⟨fun hm => (hrun hm).1, fun hm => (hrun hm).2⟩

end Agrees

/-- An invariant of the current environment and of the functions alone. -/
class Durable (I : Machine → Prop) : Prop where
  congr : ∀ {m m' : Machine}, I m → m'.current = m.current →
    m'.heap.functions = m.heap.functions → I m'

instance (P : Function → Prop) (k : Nat) : Durable (Machine.At P k) where
  congr := Machine.At.congr

section Kept

variable {P : Function → Prop} {k : Nat} {I : Machine → Prop}

/-! ### Steps on the heap -/

/-- New objects that are no functions. -/
theorem keeps_make [Durable I] {α : Type} {f : Heap → α × Heap}
    (hf : ∀ h, (f h).2.functions = h.functions) : Keeps I (make f) :=
  .modifyGet fun hm => Durable.congr hm rfl (hf _)

theorem keeps_change [Durable I] {f : Heap → Heap} (hf : ∀ h, (f h).functions = h.functions) :
    Keeps I (change f) :=
  .modifyGet fun hm => Durable.congr hm rfl (hf _)

theorem keeps_changeForest (f : Forest → Forest) : Keeps (Machine.At P k) (changeForest f) :=
  keeps_change fun _ => rfl

theorem keeps_newFunction {c : Closure} (hc : P c.declaration) :
    Keeps (Machine.At P k) (make (·.newFunction c)) :=
  .modifyGet fun hm => hm.newFunction hc

theorem keeps_bind (method : Nat) (receiver : Value) :
    Keeps (Machine.At P k) (make (·.bind method receiver)) :=
  .modifyGet fun hm => hm.bind method receiver

theorem keeps_writeLine [Durable I] (s : String) : Keeps I (writeLine s) :=
  .modifyGet fun hm => Durable.congr hm rfl rfl

/-- Whatever environment a computation begins in, afterwards the outer one is
put back. -/
theorem agrees_inEnvironment {α : Type} {p q : Eval α} {env : Nat}
    (h : Agrees (Machine.At P env) p q) :
    Agrees (Machine.At P k) (inEnvironment env p) (inEnvironment env q) := by
  have hrun : ∀ {m : Machine}, m.At P k → inEnvironment env p m = inEnvironment env q m ∧
      Machine.At P k (EStateM.Result.final (inEnvironment env p m)) := by
    intro m hm
    have hinside : Machine.At P env { m with current := env } := ⟨rfl, hm.functions⟩
    have hstays := h.stays hinside
    unfold inEnvironment
    dsimp only
    rw [← h.same hinside]
    cases hp : p { m with current := env } with
    | ok a m' =>
      rw [hp] at hstays
      exact ⟨rfl, hm.current, hstays.functions⟩
    | error e m' =>
      rw [hp] at hstays
      exact ⟨rfl, hm.current, hstays.functions⟩
  exact ⟨fun hm => (hrun hm).1, fun hm => (hrun hm).2⟩

/-! ### Variables -/

theorem keeps_define (name : String) (v : Value) : Keeps (Machine.At P k) (define name v) :=
  .bind .get fun _ => keeps_changeForest _

theorem keeps_lookup (ref : Reference) : Keeps (Machine.At P k) (lookup ref) := by
  unfold lookup
  cases ref.hops with
  | some hops => exact .bind .get fun _ => .bind (.ask _) fun _ => .found _
  | none =>
    refine .bind (.ask _) fun v => ?_
    cases v with
    | some v => exact .pure v
    | none => exact .fail _ _

theorem keeps_assign (ref : Reference) (v : Value) : Keeps (Machine.At P k) (assign ref v) := by
  unfold assign
  cases ref.hops with
  | some hops =>
    exact .bind .get fun _ => .bind (.ask _) fun _ => .bind (.found _) fun _ =>
      keeps_changeForest _
  | none =>
    refine .bind (.ask _) fun target => ?_
    cases target with
    | some target => exact keeps_changeForest _
    | none => exact .fail _ _

/-! ### Operators and properties -/

theorem keeps_applyUnary (op : Token) (v : Value) : Keeps I (applyUnary op v) := by
  unfold applyUnary
  split
  · split
    · exact .pure _
    · exact .fail _ _
  · exact .pure _
  · exact .throw _

theorem keeps_add (op : Token) (a b : Value) : Keeps I (add op a b) := by
  unfold add
  split
  · exact .pure _
  · exact .pure _
  · exact .pure _
  · exact .fail _ _

theorem keeps_arithmetic (op : Token) (a b : Float) : Keeps I (arithmetic op a b) := by
  unfold arithmetic
  split
  case h_8 => exact .throw _
  all_goals exact .pure _

theorem keeps_applyBinary (op : Token) (a b : Value) : Keeps I (applyBinary op a b) := by
  unfold applyBinary
  split
  · exact keeps_add op a b
  · exact .pure _
  · exact .pure _
  · split
    · exact keeps_arithmetic op _ _
    · exact .fail _ _

theorem keeps_instanceProperty (id : Nat) (name : Token) :
    Keeps (Machine.At P k) (instanceProperty id name) := by
  refine .bind (.ask _) fun field => ?_
  cases field with
  | some v => exact .pure v
  | none =>
    refine .bind (.ask _) fun classId => .bind (.ask _) fun method => ?_
    cases method with
    | some m => exact .map _ (keeps_bind m _)
    | none => exact .fail _ _

theorem keeps_arrayProperty (id : Nat) (name : Token) : Keeps I (arrayProperty id name) := by
  unfold arrayProperty
  split
  · exact .bind (.ask _) fun _ => .pure _
  · exact .pure _
  · exact .pure _
  · exact .fail _ _

theorem keeps_getProperty (v : Value) (name : Token) :
    Keeps (Machine.At P k) (getProperty v name) := by
  unfold getProperty
  split
  · exact keeps_instanceProperty _ name
  · exact keeps_arrayProperty _ name
  · exact .fail _ _

theorem keeps_setProperty [Durable I] (object : Value) (name : Token) (v : Value) :
    Keeps I (setProperty object name v) := by
  unfold setProperty
  split
  · exact keeps_change fun _ => rfl
  · exact .fail _ _
  · exact .fail _ _

theorem keeps_superMethod (ref : Reference) (method : Token) :
    Keeps (Machine.At P k) (superMethod ref method) := by
  unfold superMethod
  cases ref.hops with
  | none => exact .throw _
  | some hops =>
    refine .bind .get fun m => .bind (.ask _) fun e => .bind (.found e) fun parent =>
      .bind (.ask _) fun e' => .bind (.found e') fun receiver => ?_
    cases parent with
    | classRef classId =>
      refine .bind (.ask _) fun found => ?_
      cases found with
      | some m => exact .map _ (keeps_bind m receiver)
      | none => exact .fail _ _
    | _ => exact .throw _

/-! ### Declarations -/

theorem keeps_declareFunction {f : Function} (hf : P f) :
    Keeps (Machine.At P k) (declareFunction f) :=
  .bind .get fun _ => .bind (keeps_newFunction hf) fun _ => keeps_define _ _

theorem keeps_makeMethods (scope : Nat) {methods : List Function} (hm : ∀ f ∈ methods, P f) :
    ∀ done, Keeps (Machine.At P k) (makeMethods scope methods done) := by
  induction methods with
  | nil => exact fun done => .pure done
  | cons f rest ih =>
    rw [List.forall_mem_cons] at hm
    exact fun done => .bind (keeps_newFunction hm.1) fun id => ih hm.2 _

theorem keeps_declareClass (name : Token) (superclass : Option Nat) {methods : List Function}
    (hm : ∀ f ∈ methods, P f) : Keeps (Machine.At P k) (declareClass name superclass methods) := by
  have hrest : ∀ scope, Keeps (Machine.At P k) (do
      let table ← makeMethods scope methods .empty
      let id ← make (·.newClass { name := name.lexeme, superclass, methods := table })
      define name.lexeme (.classRef id)) := fun scope =>
    .bind (keeps_makeMethods scope hm _) fun _ =>
      .bind (keeps_make fun _ => rfl) fun _ => keeps_define _ _
  refine .bind (keeps_define _ _) fun _ => .bind .get fun m => ?_
  cases superclass with
  | some parent => exact .bind (keeps_make fun _ => rfl) hrest
  | none => exact .bind (.pure _) hrest

/-! ### Native functions -/

theorem keeps_allowed {α : Type} (paren : Token) (e : Except Refusal α) :
    Keeps I (allowed paren e) := by
  cases e with
  | ok a => exact .pure a
  | error why => exact .fail _ _

theorem keeps_applyNative [Durable I] (host : Host) (paren : Token) (f : Native)
    (arguments : List Value) : Keeps I (applyNative host paren f arguments) := by
  unfold applyNative
  split
  · exact .modifyGet fun hm => Durable.congr hm rfl rfl
  · exact .bind (keeps_allowed paren _) fun _ => .map _ (keeps_make fun _ => rfl)
  · exact .bind (.ask _) fun _ => keeps_allowed paren _
  · exact .bind (.ask _) fun _ => .bind (keeps_allowed paren _) fun _ =>
      .bind (keeps_change fun _ => rfl) fun _ => .pure _
  · exact .fail _ _

/-! ### Sequences, loops and calls -/

theorem agrees_runAll {I : Machine → Prop} {run run' : Stmt → Eval Completion}
    {body : List Stmt} (h : ∀ s ∈ body, Agrees I (run s) (run' s)) :
    Agrees I (runAll run body) (runAll run' body) := by
  induction body with
  | nil => exact .pure _
  | cons s rest ih =>
    rw [List.forall_mem_cons] at h
    refine h.1.bind fun c => ?_
    cases c with
    | normal => exact ih h.2
    | broke => exact .pure _
    | returned v => exact .pure _

theorem agrees_iterate {I : Machine → Prop} {condition condition' : Eval Bool}
    {body body' : Eval Completion} (hc : Agrees I condition condition')
    (hb : Agrees I body body') : ∀ turns,
    Agrees I (iterate condition body turns) (iterate condition' body' turns) := by
  intro turns
  induction turns with
  | zero => exact .throw _
  | succ turns ih =>
    refine hc.bind fun goesOn => .ite (hb.bind fun c => ?_) (.pure _)
    cases c with
    | normal => exact ih
    | broke => exact .pure _
    | returned v => exact .pure _

section Calls

variable {run run' : Stmt → Eval Completion}
  (hrun : ∀ f, P f → ∀ s ∈ f.body, ∀ k, Agrees (Machine.At P k) (run s) (run' s))

include hrun in
/-- The body of a function runs in an environment of its own. -/
theorem agrees_applyFunction (id : Nat) (arguments : List Value) :
    Agrees (Machine.At P k) (applyFunction run id arguments)
      (applyFunction run' id arguments) := by
  -- The declaration is one of `P`, since it was found in a state with the invariant.
  refine .askOf (Q := fun c => P c.declaration) (fun hm => hm.functions id) fun c hc => ?_
  refine .bind (keeps_make fun _ => rfl) fun env =>
    .bind (agrees_inEnvironment (agrees_runAll fun s hs => hrun _ hc s hs env))
      fun completion => .ite (.bind (.ask _) fun _ => .found _) ?_
  cases completion with
  | returned v => exact .pure v
  | normal => exact .pure _
  | broke => exact .pure _

include hrun in
theorem agrees_construct (classId : Nat) (arguments : List Value) :
    Agrees (Machine.At P k) (construct run classId arguments)
      (construct run' classId arguments) := by
  refine .bind (keeps_make fun _ => rfl) fun id => .bind (.ask _) fun method => ?_
  cases method with
  | none => exact .pure _
  | some m =>
    exact .bind (keeps_bind m _) fun init =>
      .bind (agrees_applyFunction hrun init arguments) fun _ => .pure _

include hrun in
theorem agrees_callValue (host : Host) (paren : Token) (callee : Value)
    (arguments : List Value) : Agrees (Machine.At P k) (callValue host run paren callee arguments)
      (callValue host run' paren callee arguments) := by
  refine .bind (.ask _) fun arity => ?_
  cases arity with
  | none => exact .fail _ _
  | some arity =>
    refine .ite (.fail _ _) (.catchExhausted paren ?_)
    cases callee with
    | native f => exact keeps_applyNative host paren f arguments
    | function id => exact agrees_applyFunction hrun id arguments
    | classRef id => exact agrees_construct hrun id arguments
    | _ => exact .fail _ _

end Calls

end Kept

/-! ### Watched runs -/

namespace Watched

/-- A break is handed to the observer. -/
def onBreak (lost : Completion → Eval Unit) (run : Stmt → Eval Completion) (s : Stmt) :
    Eval Completion := do
  match ← run s with
  | .broke =>
    lost .broke
    pure .broke
  | other => pure other

mutual

/-- The value of an expression.  The statements of function bodies are watched
for breaks. -/
def eval (lost : Completion → Eval Unit) (host : Host) : (frames : Nat) → Expr → Eval Value
  | 0, _ => throw .exhausted
  | n + 1, e =>
    match e with
    | .grouping inner => eval lost host n inner
    | .unary op right => do
      let v ← eval lost host n right
      applyUnary op v
    | .binary left op right => do
      let a ← eval lost host n left
      let b ← eval lost host n right
      applyBinary op a b
    | .logical left op right => do
      let a ← eval lost host n left
      if decides op a then pure a else eval lost host n right
    | .assign target value => do
      let v ← eval lost host n value
      assign target v
      pure v
    | .call callee paren arguments => do
      let f ← eval lost host n callee
      let vs ← arguments.mapM (eval lost host n)
      callValue host (onBreak lost (exec lost host n)) paren f vs
    | .get object name => do
      let v ← eval lost host n object
      getProperty v name
    | .set object name value => do
      let o ← eval lost host n object
      if hasFields o then
        let v ← eval lost host n value
        setProperty o name v
        pure v
      else fail .noFields name
    | other => Lox.eval host (n + 1) other

/-- Runs a statement. -/
def exec (lost : Completion → Eval Unit) (host : Host) :
    (frames : Nat) → Stmt → Eval Completion
  | 0, _ => throw .exhausted
  | n + 1, s =>
    match s with
    | .expression e => do
      let _ ← eval lost host n e
      pure .normal
    | .print e => do
      let v ← eval lost host n e
      match ← ask (·.display? n v) with
      | some text =>
        writeLine text
        pure .normal
      | none => throw .exhausted
    | .varDecl name (some e) => do
      let v ← eval lost host n e
      define name.lexeme v
      pure .normal
    | .block body => do
      let current := (← get).current
      let env ← make (·.newEnvironment (some current))
      inEnvironment env (runAll (exec lost host n) body)
    | .ifElse condition thenBranch elseBranch => do
      let c ← eval lost host n condition
      if c.isTruthy then exec lost host n thenBranch
      else match elseBranch with
        | some s => exec lost host n s
        | none => pure .normal
    | .whileLoop condition body =>
      iterate (do return (← eval lost host n condition).isTruthy) (exec lost host n body)
        host.turns
    | .returnWith _ (some e) => return .returned (← eval lost host n e)
    | other => Lox.exec host (n + 1) other

end

/-- Runs a top-level statement.  Anything but a normal end is handed to the
observer. -/
def runTopLevel (lost : Completion → Eval Unit) (host : Host) (levels : Nat) (record : Bool)
    (s : Stmt) : Eval (Option String) :=
  Eval.catchExhausted (Node.firstToken (.stmt s)) do
    match record, s with
    | true, .expression e =>
      let v ← eval lost host levels e
      match ← Eval.ask (·.display? levels v) with
      | some text => pure (some text)
      | none => throw .exhausted
    | _, _ =>
      match ← exec lost host levels s with
      | .normal => pure none
      | other =>
        lost other
        pure none

/-- Runs top-level statements up to the first that stops. -/
def runStatements (lost : Completion → Eval Unit) (host : Host) (levels : Nat) (record : Bool) :
    List Stmt → (value : Option String) → Machine → Ending × Option String × Machine
  | [], value, m => (.finished, value, m)
  | s :: rest, value, m =>
    match runTopLevel lost host levels record s m with
    | .ok text m => runStatements lost host levels record rest (text <|> value) m
    | .error stop m => (.ofStop stop, value, m)

end Watched

/-! ### Trees whose parts are known -/

/-- A property of statements that their parts have too, and the property `P` of
the functions declared in them. -/
structure Hereditary (T : Stmt → Prop) (P : Function → Prop) : Prop where
  block : ∀ {body}, T (.block body) → ∀ s ∈ body, T s
  thenBranch : ∀ {e s other}, T (.ifElse e s other) → T s
  elseBranch : ∀ {e s t}, T (.ifElse e s (some t)) → T t
  loop : ∀ {e s}, T (.whileLoop e s) → T s
  funDecl : ∀ {f}, T (.funDecl f) → P f
  classDecl : ∀ {name superclass methods}, T (.classDecl name superclass methods) →
    ∀ f ∈ methods, P f
  body : ∀ {f}, P f → ∀ s ∈ f.body, T s

/-- Nothing is asked of a tree. -/
theorem Hereditary.trivial : Hereditary (fun _ => True) fun _ => True where
  block _ _ _ := True.intro
  thenBranch _ := True.intro
  elseBranch _ := True.intro
  loop _ := True.intro
  funDecl _ := True.intro
  classDecl _ _ _ := True.intro
  body _ _ _ := True.intro

/-- An observer that does nothing. -/
def Watched.nothing (_ : Completion) : Eval Unit :=
  pure ()

/-- The observer is never called for the body of a function, or does nothing. -/
def Unbroken (P : Function → Prop) (lost : Completion → Eval Unit) (host : Host) : Prop :=
  lost = Watched.nothing ∨
    ∀ f, P f → ∀ s ∈ f.body, ∀ n m m', exec host n s m ≠ .ok .broke m'

/-- The observer is never called for a top-level statement, or does nothing. -/
def Finishing (s : Stmt) (lost : Completion → Eval Unit) (host : Host) : Prop :=
  lost = Watched.nothing ∨ ∀ n m c m', exec host n s m = .ok c m' → c = .normal

section Watching

variable {T : Stmt → Prop} {P : Function → Prop} (hT : Hereditary T P)
  {lost : Completion → Eval Unit} {host : Host}

/-- What watching a statement for breaks does. -/
theorem agrees_onBreak {I : Machine → Prop} {run run' : Stmt → Eval Completion} {s : Stmt}
    (h : Agrees I (run s) (run' s))
    (hbreak : lost = Watched.nothing ∨ ∀ m m', run s m ≠ .ok .broke m') :
    Agrees I (run s) (Watched.onBreak lost run' s) := by
  have hpure : run s = run s >>= pure := (bind_pure (run s)).symm
  rw [hpure]
  refine h.bindOf fun c ⟨m, m', hrun⟩ => ?_
  cases c with
  | normal => exact .pure _
  | returned v => exact .pure _
  | broke =>
    rcases hbreak with rfl | hnever
    · exact .pure _
    · exact absurd hrun (hnever m m')

include hT in
/-- A run and a watched run do the same, and keep the invariant. -/
theorem agrees_eval_and_exec (hbroken : Unbroken P lost host) (n : Nat) :
    (∀ e k, Agrees (Machine.At P k) (eval host n e) (Watched.eval lost host n e)) ∧
      ∀ s, T s → ∀ k, Agrees (Machine.At P k) (exec host n s) (Watched.exec lost host n s) := by
  induction n with
  | zero => exact ⟨fun _ _ => .throw _, fun _ _ _ => .throw _⟩
  | succ n ih =>
    obtain ⟨ihe, ihs⟩ := ih
    -- The statements of a body are watched, so for calls the induction hypothesis needs that none
    -- of them breaks.
    have hrun : ∀ f, P f → ∀ s ∈ f.body, ∀ k, Agrees (Machine.At P k) (exec host n s)
        (Watched.onBreak lost (Watched.exec lost host n) s) :=
      fun f hf s hs k => agrees_onBreak (ihs s (hT.body hf s hs) k)
        (hbroken.imp_right fun hnever => hnever f hf s hs n)
    constructor
    · intro e k
      cases e with
      | literal v => exact .pure _
      | grouping e => exact ihe e k
      | unary op e => exact (ihe e k).bind fun v => keeps_applyUnary op v
      | binary l op r =>
        exact (ihe l k).bind fun a => (ihe r k).bind fun b => keeps_applyBinary op a b
      | logical l op r => exact (ihe l k).bind fun a => .ite (.pure a) (ihe r k)
      | var ref => exact keeps_lookup ref
      | assign ref e =>
        exact (ihe e k).bind fun v => (keeps_assign ref v).bind fun _ => .pure v
      | call callee paren arguments =>
        exact (ihe callee k).bind fun f => (Agrees.mapM (fun e => ihe e k) arguments).bind
          fun vs => agrees_callValue hrun host paren f vs
      | get e name => exact (ihe e k).bind fun v => keeps_getProperty v name
      | set o name e =>
        exact (ihe o k).bind fun object => .ite ((ihe e k).bind fun v =>
          (keeps_setProperty object name v).bind fun _ => .pure v) (.fail _ _)
      | thisRef ref => exact keeps_lookup ref
      | superRef ref method => exact keeps_superMethod ref method
      | blank b => exact .throw _
      | bare v => exact .throw _
      | misplaced s => exact .throw _
    · intro s hs k
      cases s with
      | expression e => exact (ihe e k).bind fun _ => .pure _
      | print e =>
        refine (ihe e k).bind fun v => .bind (.ask _) fun text => ?_
        cases text with
        | some text => exact (keeps_writeLine text).bind fun _ => .pure _
        | none => exact .throw _
      | varDecl name init =>
        cases init with
        | some e => exact (ihe e k).bind fun v => (keeps_define _ v).bind fun _ => .pure _
        | none => exact .bind (.pure _) fun v => (keeps_define _ v).bind fun _ => .pure _
      | block body =>
        exact .bind .get fun m => .bind (keeps_make fun _ => rfl) fun env =>
          agrees_inEnvironment (agrees_runAll fun s hmem => ihs s (hT.block hs s hmem) env)
      | ifElse e s other =>
        refine (ihe e k).bind fun c => .ite (ihs s (hT.thenBranch hs) k) ?_
        cases other with
        | some t => exact ihs t (hT.elseBranch hs) k
        | none => exact .pure _
      | whileLoop e s =>
        exact agrees_iterate ((ihe e k).bind fun v => .pure _) (ihs s (hT.loop hs) k) _
      | breakLoop keyword => exact .pure _
      | funDecl f => exact (keeps_declareFunction (hT.funDecl hs)).bind fun _ => .pure _
      | returnWith keyword value =>
        cases value with
        | some e => exact (ihe e k).bind fun v => .pure _
        | none => exact .pure _
      | classDecl name superclass methods =>
        -- The methods are functions of the program, which the invariant asks of every closure.
        have hm := hT.classDecl hs
        cases superclass with
        | none => exact (keeps_declareClass name none hm).bind fun _ => .pure _
        | some ref =>
          refine (keeps_lookup ref).bind fun v => ?_
          cases v with
          | classRef parent =>
            exact (keeps_declareClass name (some parent) hm).bind fun _ => .pure _
          | _ => exact .fail _ _
      | misplaced e => exact .throw _

include hT in
theorem agrees_runTopLevel (hbroken : Unbroken P lost host) (levels : Nat) (record : Bool)
    {s : Stmt} (hs : T s) (hnormal : Finishing s lost host) (k : Nat) :
    Agrees (Machine.At P k) (runTopLevel host levels record s)
      (Watched.runTopLevel lost host levels record s) := by
  obtain ⟨heval, hexec⟩ := agrees_eval_and_exec hT hbroken levels
  have hplain : Agrees (Machine.At P k)
      (do
        let _ ← exec host levels s
        pure (none : Option String))
      (do
        match ← Watched.exec lost host levels s with
        | .normal => pure none
        | other =>
          lost other
          pure none) := by
    refine (hexec s hs k).bindOf fun c ⟨m, m', hrun⟩ => ?_
    -- An observer that does nothing sees every ending; another one is never called here.
    rcases hnormal with rfl | hnormal
    · cases c with
      | normal => exact .pure _
      | broke => exact .pure _
      | returned v => exact .pure _
    · rw [hnormal levels m c m' hrun]
      exact .pure _
  refine .catchExhausted _ ?_
  cases record with
  | false => exact hplain
  | true =>
    cases s with
    | expression e =>
      refine (heval e k).bind fun v => .bind (.ask _) fun text => ?_
      cases text with
      | some text => exact .pure _
      | none => exact .throw _
    | _ => exact hplain

include hT in
/-- Statements of the top level, watched and not. -/
theorem runStatements_watched (hbroken : Unbroken P lost host) (levels : Nat) (record : Bool)
    (k : Nat) {statements : List Stmt}
    (hs : ∀ s ∈ statements, T s ∧ Finishing s lost host) :
    ∀ (value : Option String) {m : Machine}, m.At P k →
      Watched.runStatements lost host levels record statements value m =
        runStatements host levels record statements value m ∧
      (runStatements host levels record statements value m).2.2.At P k := by
  induction statements with
  | nil => exact fun value m hm => ⟨rfl, hm⟩
  | cons s rest ih =>
    rw [List.forall_mem_cons] at hs
    intro value m hm
    have hagrees := agrees_runTopLevel hT hbroken levels record hs.1.1 hs.1.2 k
    have hstays := hagrees.stays hm
    unfold Watched.runStatements runStatements
    -- One statement does the same, so the rest begins in the same state.
    rw [← hagrees.same hm]
    cases hrun : runTopLevel host levels record s m with
    | ok text m' =>
      rw [hrun] at hstays
      exact ih hs.2 _ hstays
    | error stop m' =>
      rw [hrun] at hstays
      exact ⟨rfl, hstays⟩

end Watching

/-! ### Sessions -/

section Sessions

variable {T : Stmt → Prop} {P : Function → Prop} (hT : Hereditary T P) (host : Host)
  (settings : Settings)

include hT in
/-- A unit keeps the invariant, if its statements have the property. -/
theorem at_run {k : Nat} {s : Session} (hs : s.machine.At P k) (file : Option String)
    (source : String) (hchecked : (check host settings file source).report.hasErrors = false →
      ∀ st ∈ (check host settings file source).statements, T st) :
    (s.run host settings file source).2.machine.At P k := by
  unfold Session.run Session.runChecked
  cases herrors : (check host settings file source).report.hasErrors with
  | true => exact hs
  | false =>
    have hquiet : Machine.At P k { s.machine with output := "" } := hs.congr rfl rfl
    have hbroken : Unbroken P Watched.nothing host := .inl rfl
    have hkept := (runStatements_watched hT hbroken (settings.frames host / framesPerLevel)
      settings.replMode k (fun st hmem => ⟨hchecked herrors st hmem, .inl rfl⟩) none hquiet).2
    obtain ⟨⟨ending, value, m⟩, hrun⟩ : ∃ e, runStatements host
        (settings.frames host / framesPerLevel) settings.replMode
        (check host settings file source).statements none { s.machine with output := "" } = e :=
      ⟨_, rfl⟩
    rw [hrun] at hkept
    rw [if_neg Bool.false_ne_true, interpret_of_runStatements settings hrun]
    exact hkept

include hT in
/-- So do units one after another. -/
theorem at_runSources {k : Nat} {sources : List Source}
    (hchecked : ∀ source ∈ sources,
      (check host settings source.file source.text).report.hasErrors = false →
        ∀ st ∈ (check host settings source.file source.text).statements, T st) :
    ∀ {s : Session}, s.machine.At P k →
      (Session.runSources host settings sources s).2.machine.At P k := by
  induction sources with
  | nil => exact fun hs => hs
  | cons source sources ih =>
    rw [List.forall_mem_cons] at hchecked
    intro s hs
    have hrun := at_run hT host settings hs source.file source.text hchecked.1
    cases heq : s.run host settings source.file source.text with
    | mk result s' =>
      rw [heq] at hrun
      rw [runSources_cons heq]
      exact ih hchecked.2 hrun

end Sessions

/-- Before anything has run there are no functions. -/
theorem at_initial {P : Function → Prop} (h : P default) :
    Machine.At P Machine.globals Machine.initial :=
  ⟨rfl, fun _ => h⟩

end Lox
