/-
Links are in order all along.

A run that keeps its states does the same as one that does not.  In each of its states the
links of the heap lead to objects made earlier, and all environments outward to the globals;
and no link of a state is ever another one in a later state.  So no loop along links goes on
for ever, whatever the sources declare, redeclare and reassign.

* `Tracing.pairing` — a machine, and the same machine with the ones before it;
* `inStep_step` — single steps;
* `inStep_apply`, `inStep_construct`, `inStep_call` — calls;
* `inStep_declareFunction`, `inStep_declareClass` — declarations;
* `tracing_eval_and_exec` — expressions and statements;
* `links_grounded` — sessions.
-/
import Lox.Proofs.Linking
import Lox.Proofs.Tracing

namespace Lox

namespace Tracing

open Pairing

/-- The links of all states are in order, and those of earlier states are kept. -/
structure Trace.InOrder (t : Trace) : Prop where
  ordered_of_mem : ∀ m ∈ t.states, m.Ordered
  kept : t.states.Pairwise fun later earlier => earlier.Keeps later

/-- A machine, and the same machine with the ones before it. -/
def pairing : Pairing Trace Machine Trace where
  left t := t.machine
  right t := t
  Alike := Trace.InOrder
  Later t u := t.machine.Keeps u.machine
  later_refl t := .refl t.machine
  later_trans := .trans
  Places := Eq
  Lenient := False

/-- The same value on both sides, which is known. -/
abbrev Yields (v v' : Value) (t : Trace) : Prop :=
  Gives (fun v (t : Trace) => t.machine.Known v) v v' t

/-- The same completion on both sides; a value that is returned is known. -/
abbrev Completes (c c' : Completion) (t : Trace) : Prop :=
  Ends (fun v (t : Trace) => t.machine.Known v) c c' t

variable {t u : Trace} {m : Machine} {α β ι κ : Type} {p : Eval α} {q : Run β}
  {Q : α → β → Trace → Prop}

theorem Trace.InOrder.ordered (ht : t.InOrder) : t.machine.Ordered :=
  ht.ordered_of_mem t.machine List.mem_cons_self

/-- A trace goes on with a step that keeps the links in order. -/
theorem Trace.InOrder.on (ht : t.InOrder) (hm : t.machine.Goes m) : (t.on m).InOrder := by
  refine ⟨List.forall_mem_cons.mpr ⟨hm.ordered, ht.ordered_of_mem⟩,
    List.pairwise_cons.mpr ⟨?_, ht.kept⟩⟩
  intro earlier he
  rcases List.mem_cons.mp he with rfl | he
  · exact hm.keeps
  · exact (List.rel_of_pairwise_cons ht.kept he).trans hm.keeps

theorem Trace.InOrder.inside (ht : t.InOrder) {e : Nat} (he : e < t.machine.scopes) :
    (t.inside e).InOrder :=
  ht.on (Machine.goes_current ht.ordered he)

/-! ### Steps -/

theorem inStep_step (ht : t.InOrder) {V : α → Machine → Prop} (h : t.machine.Steps p V) :
    pairing.InStep t p (step p) fun a b u => a = b ∧ V a u.machine := by
  rcases h with ⟨a, m, hp, hm, hV⟩ | ⟨e, hp⟩
  · have hstep : step p t = .ok a (t.on m) := by
      unfold step
      rw [hp]
    exact .step (y := t.on m) hp hstep (ht.on hm) hm.keeps ⟨rfl, hV⟩
  · have hstep : step p t = .error e (t.on t.machine) := by
      unfold step
      rw [hp]
    exact .inr (.inl ⟨e, e, t.on t.machine, hp, hstep, ht.on (.refl ht.ordered), .refl _,
      .refl (R := Eq) (fun _ => rfl) e⟩)

theorem inStep_yields (ht : t.InOrder) {p : Eval Value} (h : t.machine.Steps p Machine.Gives) :
    pairing.InStep t p (step p) Yields :=
  inStep_step ht h

theorem inStep_fail (ht : t.InOrder) (f : Fault) (k : Token) :
    pairing.InStep t (Eval.fail f k : Eval α) (step (Eval.fail f k : Eval β)) Q :=
  .inr (.inl ⟨_, _, t.on t.machine, rfl, rfl, ht.on (.refl ht.ordered), .refl _, .fault rfl⟩)

theorem inStep_ask {r : Heap → ι} {f : ι → Eval α} {g : ι → Run β}
    (h : pairing.InStep t (f (r t.machine.heap)) (g (r t.machine.heap)) Q) :
    pairing.InStep t (Eval.ask r >>= f) (ask r >>= g) Q :=
  h

theorem inStep_get {f : Machine → Eval α} {g : Trace → Run β}
    (h : pairing.InStep t (f t.machine) (g t) Q) :
    pairing.InStep t (MonadState.get >>= f) (MonadState.get >>= g) Q :=
  h

theorem catches {α : Type} (t : Token) (p : Run α) : Catches t p (catchExhausted t p) where
  ok h := by
    unfold catchExhausted
    rw [h]
  error {_ e _} h := by
    unfold catchExhausted
    rw [h]
    cases e with
    | _ => rfl

theorem inStep_catchExhausted (paren : Token) (h : pairing.InStep t p q Q) :
    pairing.InStep t (Eval.catchExhausted paren p) (catchExhausted paren q) Q :=
  h.caught rfl (Eval.catches paren p) (catches paren q)

section Inside

variable {e : Nat} {stop : Stop}

theorem runInside_ok {b : β} (h : q (t.inside e) = .ok b u) :
    inEnvironment e q t = .ok b (u.inside t.machine.current) := by
  unfold inEnvironment
  rw [h]

theorem runInside_error (h : q (t.inside e) = .error stop u) :
    inEnvironment e q t = .error stop (u.inside t.machine.current) := by
  unfold inEnvironment
  rw [h]

end Inside

/-- A computation in another environment, after which the outer one is current again. -/
theorem inStep_inEnvironment (ht : t.InOrder) {e : Nat} (h : pairing.InStep (t.inside e) p q Q)
    (hQ : ∀ {a b u}, Q a b u → Q a b (u.inside t.machine.current)) :
    pairing.InStep t (Eval.inEnvironment e p) (inEnvironment e q) Q := by
  have hback : ∀ {u}, u.InOrder → pairing.Later (t.inside e) u →
      (u.inside t.machine.current).InOrder ∧ pairing.Later t (u.inside t.machine.current) :=
    fun hu hl => ⟨hu.inside (Nat.lt_of_lt_of_le ht.ordered.current hl.size),
      ⟨hl.size, hl.enclosing, hl.classes⟩⟩
  rcases h with ⟨a, b, u, hp, hq, hu, hl, h⟩ | ⟨stop, stop', u, hp, hq, hu, hl, he⟩ | ⟨hfalse, -⟩
  · refine .inl ⟨a, b, u.inside t.machine.current, ?_, ?_, (hback hu hl).1, (hback hu hl).2, hQ h⟩
    · exact Eval.inEnvironment_ok (m := t.machine) hp
    · exact runInside_ok (t := t) hq
  · refine .inr (.inl ⟨stop, stop', u.inside t.machine.current, ?_, ?_, (hback hu hl).1,
      (hback hu hl).2, he⟩)
    · exact Eval.inEnvironment_error (m := t.machine) hp
    · exact runInside_error (t := t) hq
  · exact hfalse.elim

/-! ### Sequences and loops -/

/-- The same statement run, with and without keeping the states. -/
def RunsAlike (run : Stmt → Eval Completion) (run' : Stmt → Run Completion) : Prop :=
  ∀ {t : Trace} s, t.InOrder → pairing.InStep t (run s) (run' s) Completes

theorem inStep_normal (ht : t.InOrder) :
    pairing.InStep t (pure Completion.normal) (pure Completion.normal) Completes :=
  .pure ht ⟨rfl, fun _ h => nomatch h⟩

theorem inStep_iterate {condition : Eval Bool} {condition' : Run Bool} {body : Eval Completion}
    {body' : Run Completion}
    (hc : ∀ {t : Trace}, t.InOrder → pairing.InStep t condition condition' Same)
    (hb : ∀ {t : Trace}, t.InOrder → pairing.InStep t body body' Completes) (turns : Nat) :
    ∀ {t : Trace}, t.InOrder → pairing.InStep t (Lox.iterate condition body turns)
      (iterate condition' body' turns) Completes := by
  induction turns with
  | zero => exact fun ht => .throw ht .unfinished
  | succ turns ih =>
    intro t ht
    refine (hc ht).next fun c u hu => ?_
    refine .ite Iff.rfl ((hb hu).bind fun d d' v hv hl hd => ?_)
      (inStep_normal hu)
    obtain ⟨rfl, hvalue⟩ := hd
    cases d with
    | normal => exact ih hv
    | broke => exact inStep_normal hv
    | returned value => exact .pure hv ⟨rfl, hvalue⟩

section Calls

variable {run : Stmt → Eval Completion} {run' : Stmt → Run Completion}
  (hrun : RunsAlike run run')

include hrun

theorem inStep_runAll (body : List Stmt) : ∀ {t : Trace}, t.InOrder →
    pairing.InStep t (Lox.runAll run body) (runAll run' body) Completes := by
  induction body with
  | nil => exact fun ht => inStep_normal ht
  | cons s body ih =>
    intro t ht
    refine (hrun s ht).bind fun c c' u hu hl ⟨hsame, hv⟩ => ?_
    subst hsame
    cases c with
    | normal => exact ih hu
    | broke => exact .pure hu ⟨rfl, hv⟩
    | returned v => exact .pure hu ⟨rfl, hv⟩

/-- The statements of a body, in an environment of their own. -/
theorem inStep_body (ht : t.InOrder) {e : Nat} (he : e < t.machine.scopes) (body : List Stmt) :
    pairing.InStep t (Eval.inEnvironment e (Lox.runAll run body))
      (inEnvironment e (runAll run' body)) Completes := by
  refine inStep_inEnvironment ht (inStep_runAll hrun body (ht.inside he)) ?_
  rintro c c' u ⟨hsame, hv⟩
  refine ⟨hsame, fun v hc => ?_⟩
  have hknown := hv v hc
  cases v <;> exact hknown

/-- A function is called, in a new environment around that of its declaration. -/
theorem inStep_apply (ht : t.InOrder) (id : Nat) {arguments : List Value}
    (ha : ∀ v ∈ arguments, t.machine.Known v) :
    pairing.InStep t (Lox.applyFunction run id arguments) (applyFunction run' id arguments)
      Yields := by
  refine inStep_ask ?_
  have hclosure := ht.ordered.closures id
  generalize t.machine.heap.closure id = c at *
  have hmake := Machine.steps_newEnvironment ht.ordered hclosure
    (b := bindParams c.declaration.params arguments) fun hv => ha _ (mem_of_bindParams hv)
  refine (inStep_step ht hmake).bind fun e e' u hu hl ⟨hsame, he⟩ => ?_
  subst hsame
  refine (inStep_body hrun hu he c.declaration.body).bind fun d d' v hv hlv ⟨hsame, hd⟩ => ?_
  subst hsame
  -- An initializer gives its receiver, which the machine already held.
  have hthis : v.machine.Steps
      (do Eval.found (← Eval.ask (·.environments.getAt c.scope 0 "this"))) Machine.Gives := by
    refine .ask ?_
    cases hget : v.machine.heap.environments.getAt c.scope 0 "this" with
    | ok value => exact .pure hv.ordered (hv.ordered.held (holds_of_getAt hget))
    | error why => exact .throw
  refine .ite Iff.rfl (inStep_yields hv hthis) ?_
  cases d with
  | returned value => exact .pure hv ⟨rfl, hd value rfl⟩
  | normal => exact .pure hv ⟨rfl, trivial⟩
  | broke => exact .pure hv ⟨rfl, trivial⟩

/-- An instance is made, and the initializer runs on it. -/
theorem inStep_construct (ht : t.InOrder) (classId : Nat) {arguments : List Value}
    (ha : ∀ v ∈ arguments, t.machine.Known v) :
    pairing.InStep t (Lox.construct run classId arguments) (construct run' classId arguments)
      Yields := by
  refine (inStep_step ht (Machine.steps_newInstance ht.ordered classId)).bind
    fun id id' u hu hl ⟨hsame, _⟩ => ?_
  subst hsame
  refine inStep_ask ?_
  cases u.machine.heap.findMethod? classId "init" with
  | none => exact .pure hu ⟨rfl, trivial⟩
  | some m =>
    have hobject : u.machine.Known (.object id) := trivial
    refine (inStep_step hu (Machine.steps_bind hu.ordered m hobject)).bind
      fun f f' v hv hlv ⟨hsame, _⟩ => ?_
    subst hsame
    have hav : ∀ a ∈ arguments, v.machine.Known a := fun a h => (ha a h).mono (hl.trans hlv)
    exact (inStep_apply hrun hv f hav).bind fun _ _ w hw _ _ => .pure hw ⟨rfl, trivial⟩

theorem inStep_call (host : Host) (ht : t.InOrder) (paren : Token) (callee : Value)
    {arguments : List Value} (ha : ∀ v ∈ arguments, t.machine.Known v) :
    pairing.InStep t (Lox.callValue host run paren callee arguments)
      (callValue host run' paren callee arguments) Yields := by
  refine inStep_ask ?_
  cases t.machine.heap.arity? callee with
  | none => exact inStep_fail ht _ _
  | some n =>
    refine .ite Iff.rfl (inStep_fail ht _ _) (inStep_catchExhausted paren ?_)
    cases callee with
    | native f => exact inStep_yields ht (Machine.steps_native host ht.ordered paren f ha)
    | function id => exact inStep_apply hrun ht id ha
    | classRef id => exact inStep_construct hrun ht id ha
    | _ => exact inStep_fail ht _ _

end Calls

/-! ### Declarations -/

theorem inStep_define (ht : t.InOrder) (name : String) {v : Value} (hv : t.machine.Known v) :
    pairing.InStep t (Eval.define name v) (step (Eval.define name v)) fun _ _ _ => True :=
  (inStep_step ht (Machine.steps_define ht.ordered name hv)).imp fun _ _ _ _ _ _ => trivial

theorem inStep_declareFunction (ht : t.InOrder) (f : Function) :
    pairing.InStep t (Lox.declareFunction f) (declareFunction f) fun _ _ _ => True := by
  refine inStep_get ((inStep_step ht (Machine.steps_newFunction ht.ordered
    ht.ordered.current)).bind fun id id' u hu _ ⟨hsame, _⟩ => ?_)
  subst hsame
  exact inStep_define hu f.name.lexeme trivial

theorem inStep_makeMethods {scope : Nat} (methods : List Function) :
    ∀ {t : Trace} {done}, t.InOrder → scope < t.machine.scopes →
      pairing.InStep t (Lox.makeMethods scope methods done) (makeMethods scope methods done)
        Same := by
  induction methods with
  | nil => exact fun ht _ => .pure ht rfl
  | cons f rest ih =>
    intro t done ht hscope
    refine (inStep_step ht (Machine.steps_newFunction ht.ordered hscope)).bind
      fun id id' u hu hl ⟨hsame, _⟩ => ?_
    subst hsame
    exact ih hu (Nat.lt_of_lt_of_le hscope hl.size)

/-- A class is finished, once the environment of its methods is there. -/
theorem inStep_finishClass (ht : t.InOrder) {scope : Nat} (hscope : scope < t.machine.scopes)
    {superclass : Option Nat}
    (hp : ∀ {p}, superclass = some p → p < t.machine.heap.classes.size) (name : Token)
    (methods : List Function) :
    pairing.InStep t
      (do
        let table ← Lox.makeMethods scope methods .empty
        let id ← Eval.make (·.newClass { name := name.lexeme, superclass, methods := table })
        Eval.define name.lexeme (.classRef id))
      (do
        let table ← makeMethods scope methods .empty
        let id ← step
          (Eval.make (·.newClass { name := name.lexeme, superclass, methods := table }))
        step (Eval.define name.lexeme (.classRef id)))
      fun _ _ _ => True := by
  refine (inStep_makeMethods methods ht hscope).bind fun table table' u hu hl hsame => ?_
  obtain rfl : table = table' := hsame
  -- The superclass was there before the methods were made, and classes are never taken away.
  have hclass : u.machine.Steps
      (Eval.make (·.newClass { name := name.lexeme, superclass, methods := table }))
      fun id m => m.Known (.classRef id) :=
    Machine.steps_newClass hu.ordered fun h => Nat.lt_of_lt_of_le (hp h) hl.classes.1
  refine (inStep_step hu hclass).bind fun id id' v hv _ ⟨hsame, hknown⟩ => ?_
  subst hsame
  exact inStep_define hv name.lexeme hknown

/-- A class is declared; one that is below another class keeps that class in a new
environment. -/
theorem inStep_declareClass (ht : t.InOrder) (name : Token) {superclass : Option Nat}
    (hp : ∀ {p}, superclass = some p → p < t.machine.heap.classes.size)
    (methods : List Function) :
    pairing.InStep t (Lox.declareClass name superclass methods)
      (declareClass name superclass methods) fun _ _ _ => True := by
  refine (inStep_define ht name.lexeme (v := .nil) trivial).bind fun _ _ u hu hl _ =>
    inStep_get ?_
  have hbelow : ∀ {p}, superclass = some p → p < u.machine.heap.classes.size :=
    fun h => Nat.lt_of_lt_of_le (hp h) hl.classes.1
  cases superclass with
  | none => exact inStep_finishClass hu hu.ordered.current hbelow name methods
  | some parent =>
    have hparent : u.machine.Known (.classRef parent) := hbelow rfl
    refine (inStep_step hu (Machine.steps_newEnvironment hu.ordered hu.ordered.current
      (Machine.known_of_single "super" hparent))).bind fun e e' v hv hlv ⟨hsame, he⟩ => ?_
    subst hsame
    exact inStep_finishClass hv he (fun h => Nat.lt_of_lt_of_le (hbelow h) hlv.classes.1) name
      methods

/-! ### Expressions and statements -/

/-- The same expression evaluated, with and without keeping the states. -/
def EvalsAlike (ev : Expr → Eval Value) (ev' : Expr → Run Value) : Prop :=
  ∀ {t : Trace} e, t.InOrder → pairing.InStep t (ev e) (ev' e) Yields

section Trees

variable {host : Host} {n : Nat} (he : EvalsAlike (Lox.eval host n) (eval host n))
  (hr : RunsAlike (Lox.exec host n) (exec host n))

include he in
theorem inStep_arguments (ht : t.InOrder) (es : List Expr) :
    pairing.InStep t (es.mapM (Lox.eval host n)) (es.mapM (eval host n)) fun vs vs' u =>
      vs = vs' ∧ ∀ v ∈ vs, u.machine.Known v := by
  refine .mapM (I := fun _ => True) (V := fun v (t : Trace) => t.machine.Known v)
    (fun _ _ _ => trivial) (fun _ hl hv => hv.mono hl) ?_ ht trivial
  exact List.forall₂_same.mpr fun e _ u hu _ => he e hu

include he hr in
/-- Expressions with one more frame. -/
theorem EvalsAlike.succ : EvalsAlike (Lox.eval host (n + 1)) (eval host (n + 1)) := by
  intro t e ht
  cases e with
  | literal value => exact .pure ht ⟨rfl, by cases value <;> trivial⟩
  | grouping inner => exact he inner ht
  | unary op right =>
    refine (he right ht).bind fun v v' u hu _ ⟨hsame, _⟩ => ?_
    subst hsame
    exact inStep_yields hu (Machine.steps_plain hu.ordered (plain_unary op v))
  | binary left op right =>
    refine (he left ht).bind fun a a' u hu _ ⟨hsame, _⟩ => ?_
    subst hsame
    refine (he right hu).bind fun b b' v hv _ ⟨hsame, _⟩ => ?_
    subst hsame
    exact inStep_yields hv (Machine.steps_plain hv.ordered (plain_binary op a b))
  | logical left op right =>
    refine (he left ht).bind fun a a' u hu _ ⟨hsame, ha⟩ => ?_
    subst hsame
    exact .ite Iff.rfl (.pure hu ⟨rfl, ha⟩) (he right hu)
  | var ref => exact inStep_yields ht (Machine.steps_lookup ht.ordered ref)
  | assign target value =>
    -- The value was computed before the write, so it has to be known after it too.
    refine (he value ht).bind fun v v' u hu _ ⟨hsame, hv⟩ => ?_
    subst hsame
    exact (inStep_step hu (Machine.steps_assign hu.ordered target hv)).bind
      fun _ _ w hw hlw _ => .pure hw ⟨rfl, hv.mono hlw⟩
  | call callee paren arguments =>
    refine (he callee ht).bind fun f f' u hu _ ⟨hsame, _⟩ => ?_
    subst hsame
    refine (inStep_arguments he hu arguments).bind fun vs vs' w hw _ ⟨hsame, hvs⟩ => ?_
    subst hsame
    exact inStep_call hr host hw paren f hvs
  | get object name =>
    refine (he object ht).bind fun v v' u hu _ ⟨hsame, _⟩ => ?_
    subst hsame
    exact inStep_yields hu (Machine.steps_property hu.ordered v name)
  | set object name value =>
    refine (he object ht).bind fun o o' u hu _ ⟨hsame, _⟩ => ?_
    subst hsame
    refine .ite Iff.rfl ?_ (inStep_fail hu _ _)
    refine (he value hu).bind fun v v' w hw _ ⟨hsame, hv⟩ => ?_
    subst hsame
    exact (inStep_step hw (Machine.steps_setProperty hw.ordered o name hv)).bind
      fun _ _ z hz hlz _ => .pure hz ⟨rfl, hv.mono hlz⟩
  | thisRef ref => exact inStep_yields ht (Machine.steps_lookup ht.ordered ref)
  | superRef ref method => exact inStep_yields ht (Machine.steps_super ht.ordered ref method)
  | blank kind => exact .throw ht (.defect _)
  | bare kind => exact .throw ht (.defect _)
  | misplaced s => exact .throw ht (.defect _)

include he hr in
/-- Statements with one more frame. -/
theorem RunsAlike.succ : RunsAlike (Lox.exec host (n + 1)) (exec host (n + 1)) := by
  intro t s ht
  -- The results are equal on both sides; what is carried along is that the values are known.
  cases s with
  | expression e => exact (he e ht).bind fun _ _ u hu _ _ => inStep_normal hu
  | print e =>
    refine (he e ht).bind fun v v' u hu _ ⟨hsame, _⟩ => ?_
    subst hsame
    refine inStep_ask ?_
    cases u.machine.heap.display? n v with
    | none => exact .throw hu .exhausted
    | some text =>
      exact (inStep_step hu (Machine.steps_write hu.ordered text)).bind
        fun _ _ w hw _ _ => inStep_normal hw
  | varDecl name init =>
    cases init with
    | none =>
      exact (inStep_define ht name.lexeme (v := .nil) trivial).bind
        fun _ _ u hu _ _ => inStep_normal hu
    | some e =>
      refine (he e ht).bind fun v v' u hu _ ⟨hsame, hv⟩ => ?_
      subst hsame
      exact (inStep_define hu name.lexeme hv).bind fun _ _ w hw _ _ => inStep_normal hw
  | block body =>
    have hempty : ∀ {name v}, ({} : Bindings Value).get? name = some v → t.machine.Known v :=
      fun h => nomatch h
    refine inStep_get ((inStep_step ht (Machine.steps_newEnvironment ht.ordered
      ht.ordered.current hempty)).bind fun e e' u hu _ ⟨hsame, hbound⟩ => ?_)
    subst hsame
    exact inStep_body hr hu hbound body
  | ifElse condition thenBranch elseBranch =>
    refine (he condition ht).bind fun c c' u hu _ ⟨hsame, _⟩ => ?_
    subst hsame
    refine .ite Iff.rfl (hr thenBranch hu) ?_
    cases elseBranch with
    | none => exact inStep_normal hu
    | some s => exact hr s hu
  | whileLoop condition body =>
    -- Each turn begins in a later state, where what was known is known still.
    refine inStep_iterate (fun hu => ?_) (fun hu => hr body hu) host.turns ht
    exact (he condition hu).bind fun v v' w hw _ ⟨hsame, _⟩ =>
      .pure hw (congrArg Value.isTruthy hsame)
  | breakLoop keyword => exact .pure ht ⟨rfl, fun _ h => nomatch h⟩
  | funDecl f => exact (inStep_declareFunction ht f).bind fun _ _ u hu _ _ => inStep_normal hu
  | returnWith keyword value =>
    cases value with
    | none =>
      refine .pure ht ⟨rfl, ?_⟩
      rintro _ ⟨⟩
      trivial
    | some e =>
      refine (he e ht).bind fun v v' u hu _ ⟨hsame, hv⟩ => .pure hu ⟨congrArg _ hsame, ?_⟩
      rintro _ ⟨⟩
      exact hv
  | classDecl name superclass methods =>
    cases superclass with
    | none =>
      have hnone : ∀ {p}, (none : Option Nat) = some p → p < t.machine.heap.classes.size :=
        fun h => nomatch h
      exact (inStep_declareClass ht name hnone methods).bind
        fun _ _ u hu _ _ => inStep_normal hu
    | some ref =>
      refine (inStep_yields ht (Machine.steps_lookup ht.ordered ref)).bind
        fun v v' u hu _ ⟨hsame, hv⟩ => ?_
      subst hsame
      cases v with
      | classRef parent =>
        refine (inStep_declareClass hu name ?_ methods).bind fun _ _ w hw _ _ => inStep_normal hw
        rintro _ ⟨⟩
        exact hv
      | _ => exact inStep_fail hu _ _
  | misplaced e => exact .throw ht (.defect _)

end Trees

/-- Keeping the states changes nothing, and their links are in order. -/
theorem tracing_eval_and_exec (host : Host) (n : Nat) :
    EvalsAlike (Lox.eval host n) (eval host n) ∧ RunsAlike (Lox.exec host n) (exec host n) := by
  induction n with
  | zero => exact ⟨fun _ ht => .throw ht .exhausted, fun _ ht => .throw ht .exhausted⟩
  | succ n ih => exact ⟨EvalsAlike.succ ih.1 ih.2, RunsAlike.succ ih.1 ih.2⟩

/-! ### Units and sessions -/

theorem inStep_topLevel (host : Host) (levels : Nat) (record : Bool) (ht : t.InOrder) (s : Stmt) :
    pairing.InStep t (Lox.runTopLevel host levels record s) (runTopLevel host levels record s)
      Same := by
  obtain ⟨he, hr⟩ := tracing_eval_and_exec host levels
  have hexec : pairing.InStep t
      (do
        let _ ← Lox.exec host levels s
        pure none)
      (do
        let _ ← exec host levels s
        pure none) (Same (α := Option String)) :=
    (hr s ht).bind fun _ _ u hu _ _ => .pure hu rfl
  refine inStep_catchExhausted _ ?_
  -- Only an expression that is recorded is not executed but evaluated.
  cases record with
  | false => exact hexec
  | true =>
    cases s with
    | expression e =>
      refine (he e ht).bind fun v v' u hu _ ⟨hsame, _⟩ => ?_
      subst hsame
      refine inStep_ask ?_
      cases u.machine.heap.display? levels v with
      | none => exact .throw hu .exhausted
      | some text => exact .pure hu rfl
    | _ => exact hexec

theorem runStatements_tracing (host : Host) (levels : Nat) (record : Bool) (body : List Stmt) :
    ∀ {t : Trace} (value : Option String), t.InOrder → ∃ ending value' u,
      Lox.runStatements host levels record body value t.machine = (ending, value', u.machine) ∧
      runStatements host levels record body value t = (ending, value', u) ∧ u.InOrder := by
  induction body with
  | nil => exact fun {t} value ht => ⟨_, value, t, rfl, rfl, ht⟩
  | cons s body ih =>
    intro t value ht
    unfold Lox.runStatements runStatements
    rcases inStep_topLevel host levels record ht s with
      ⟨text, _, u, hp, hq, hu, -, rfl⟩ | ⟨e, e', u, hp, hq, hu, -, he⟩ | ⟨hfalse, -⟩
    · rw [show Lox.runTopLevel host levels record s t.machine = _ from hp,
        show runTopLevel host levels record s t = _ from hq]
      exact ih (text <|> value) hu
    · rw [show Lox.runTopLevel host levels record s t.machine = _ from hp,
        show runTopLevel host levels record s t = _ from hq, he.eq]
      exact ⟨_, value, u, rfl, rfl, hu⟩
    · exact hfalse.elim

theorem run_tracing (host : Host) (settings : Settings) (source : Source) (ht : t.InOrder) :
    ∃ result u,
      Session.run host settings source.file source.text ⟨t.machine⟩ = (result, ⟨u.machine⟩) ∧
      run host settings source.file source.text t = (result, u) ∧ u.InOrder := by
  unfold Session.run Session.runChecked run
  dsimp only
  generalize check host settings source.file source.text = checked
  cases checked.report.hasErrors with
  | true => exact ⟨_, t, rfl, rfl, ht⟩
  | false =>
    have hquiet : (t.on { t.machine with output := "" }).InOrder :=
      ht.on (Machine.goes_objects ht.ordered rfl rfl rfl rfl fun hu => .inl (hu.of_eq rfl rfl rfl))
    obtain ⟨ending, value, u, hrun, hrun', hu⟩ :=
      runStatements_tracing host (settings.frames host / framesPerLevel) settings.replMode
        checked.statements none hquiet
    rw [if_neg Bool.false_ne_true, if_neg Bool.false_ne_true,
      Lox.interpret_of_runStatements (m := t.machine) settings hrun]
    unfold interpret
    simp only [hrun']
    exact ⟨_, u, rfl, rfl, hu⟩

theorem runSources_tracing (host : Host) (settings : Settings) (sources : List Source) :
    ∀ {t : Trace}, t.InOrder → ∃ results u,
      Session.runSources host settings sources ⟨t.machine⟩ = (results, ⟨u.machine⟩) ∧
      runSources host settings sources t = (results, u) ∧ u.InOrder := by
  induction sources with
  | nil => exact fun {t} ht => ⟨[], t, rfl, rfl, ht⟩
  | cons source sources ih =>
    intro t ht
    obtain ⟨result, u, hrun, hrun', hu⟩ := run_tracing host settings source ht
    obtain ⟨results, w, hrest, hrest', hw⟩ := ih hu
    rw [runSources_cons hrun, hrest]
    simp only [runSources, hrun', hrest']
    exact ⟨_, w, rfl, rfl, hw⟩

/-- Before any program has run, there is one environment and no object. -/
theorem initial_inOrder : Trace.initial.InOrder := by
  have hordered : Machine.initial.Ordered := by
    refine ⟨Nat.one_pos, fun e p hp => ?_, fun {e} he hzero => ?_, Nat.one_pos,
      fun _ => Nat.one_pos, fun hp => (nomatch hp), fun hv => ?_⟩
    · cases e with
      | zero => cases hp
      | succ e => cases hp
    · exact absurd (Nat.lt_one_iff.mp he) hzero
    · obtain ⟨f, rfl⟩ := holds_initial hv
      trivial
  exact ⟨List.forall_mem_singleton.mpr hordered, List.pairwise_singleton _ _⟩

end Tracing

/-- A session that keeps all of its states comes to the same.  In every state the links lead
to earlier objects and all environments outward to the globals, and every loop along links
ends; and what is linked in a state is linked in the same way in all later ones. -/
theorem links_grounded (host : Host) (settings : Settings) (sources : List Source) :
    let session := Session.runSources host settings sources .start
    let traced := Tracing.runSources host settings sources .initial
    traced.1 = session.1 ∧ traced.2.machine = session.2.machine ∧
    (∀ m ∈ traced.2.states, m.Grounded ∧ m.Exploring) ∧
    traced.2.states.Pairwise fun later earlier => earlier.Keeps later := by
  obtain ⟨results, t, hrun, hrun', ht⟩ :=
    Tracing.runSources_tracing host settings sources Tracing.initial_inOrder
  have hstart : Session.start = ⟨Tracing.Trace.initial.machine⟩ := rfl
  simp only [hstart, hrun, hrun']
  exact ⟨trivial, trivial, fun m hm =>
    ⟨(ht.ordered_of_mem m hm).grounded, (ht.ordered_of_mem m hm).exploring⟩, ht.kept⟩

end Lox
