/-
`this` and `super` are those of the method around them.

Whatever the sources of a session declare, call, reassign and declare again, the
machine does what the run does in which `this` is the instance that the method around
was bound to, and `super` starts from the class above the class whose declaration the
method stands in.

* `inStep_declareFunction`, `inStep_declareClass` — declarations;
* `alike_eval_and_exec` — expressions and statements;
* `Stage.Level` — a stage between two statements of the top level;
* `run_eq_receiving` — sessions.
-/
import Lox.Proofs.Receivers

namespace Lox

namespace Receiving

open Scope Pairing

namespace Stage

variable {x y : Stage} {S T : Scopes} {around : Option Activation}

/-! ### Declarations -/

/-- One more function has the next number. -/
theorem count_addFunction (x : Stage) (c : Closure) (around : Option Activation) (method : Prop) :
    (x.addFunction c around method).count = x.count + 1 :=
  Array.size_push _

/-- A function is declared, and keeps the method around it. -/
theorem inStep_declareFunction (hx : Alike x) (h : x.Within S around) {f₀ f : Function}
    (hf : FunctionShape Token.Itself .lexical (S.add f₀.name.lexeme) f₀ f) :
    pairing.InStep x (Lox.declareFunction f) (declareFunction around f) fun _ _ _ => True := by
  obtain ⟨hname, hk⟩ := hf.name
  have hn : Ordinary f.name.lexeme := hname.same ▸ ordinary Token.Itself.alike hname hk
  let c : Closure := { declaration := f, scope := x.world.machine.current }
  let y := x.addFunction c around False
  have hlater : Later x y := addFunction_later hx _ _ _
  have hy : Alike y := addFunction_alike hx
    (fun _ => ⟨_, f₀, hf, (h.add (ordinary Token.Itself.alike hname hk)).stands⟩)
    (fun _ h => nomatch h) h.proper
  have hmade : pairing.InStep x (Eval.make (·.newFunction c))
      (keeping around (Eval.make (·.newFunction c))) fun id id' z =>
        id = id' ∧ z.Within S around ∧ z.Known (.function id) := by
    refine .step (y := y) (a := x.count) rfl rfl hy hlater ⟨rfl, h.later hx hlater, ?_, ?_⟩
    · rw [count_addFunction]
      exact Nat.lt_succ_self _
    · change ¬(if x.count = x.count then False else _)
      rw [if_pos rfl]
      exact id
  refine inStep_get (hmade.bind fun id id' z hz _ ⟨hsame, hw, hid⟩ => ?_)
  subst hsame
  exact (inStep_lift hz (steps_define hz hw.stands.bound hn hid)).imp fun _ _ _ _ _ _ => trivial

/-- The methods of a class in a table. -/
def Methods (x : Stage) (superclass : Option Nat) (table : Bindings Nat) : Prop :=
  ∀ {name id}, table.get? name = some id → x.Method superclass id

/-- The methods of a class are made. -/
theorem inStep_makeMethods {scope : Nat} {superclass : Option Nat}
    {methods₀ methods : List Function}
    (hm : MethodsShape Token.Itself .lexical S.ofMethods methods₀ methods) :
    ∀ {x done}, Alike x → x.Houses scope S superclass → x.Methods superclass done →
      pairing.InStep x (Lox.makeMethods scope methods done) (makeMethods scope methods done)
        fun table table' y => table = table' ∧ y.Methods superclass table := by
  -- The table grows by one method at a time, and is carried along with the methods that are in
  -- it.
  induction methods₀ generalizing methods with
  | nil =>
    cases hm
    exact fun hx _ hdone => .pure hx ⟨rfl, hdone⟩
  | cons f₀ rest₀ ih =>
    obtain _ | ⟨hf, hrest⟩ := hm
    rename_i f rest
    intro x done hx hh hdone
    let c : Closure := { declaration := f, scope, isInit := f.isInit }
    let y := x.addFunction c none True
    have hlater : Later x y := addFunction_later hx _ _ _
    have hy : Alike y := addFunction_alike hx (fun h => absurd trivial h)
      (fun h => absurd trivial h) (fun h => nomatch h)
    have hclosure : y.heap.closure x.count = c := getD_push_size rfl
    have hmethod : y.Method superclass x.count := by
      refine ⟨?_, ?_, S, f₀, ?_, ?_⟩
      · rw [count_addFunction]
        exact Nat.lt_succ_self _
      · exact (if_pos rfl).mpr trivial
      · rw [hclosure]
        exact hf
      · rw [hclosure]
        exact hh.mono hlater
    have hmade : pairing.InStep x (Eval.make (·.newFunction c))
        (keeping none (Eval.make (·.newFunction c))) fun id id' z =>
          id = id' ∧ z.Houses scope S superclass ∧
            z.Methods superclass (done.set f.name.lexeme id) := by
      refine .step (y := y) (a := x.count) rfl rfl hy hlater
        ⟨rfl, hh.mono hlater, fun {name id} hget => ?_⟩
      rw [Bindings.get?_set] at hget
      -- A method of the same name replaces an earlier one.
      by_cases hname : f.name.lexeme = name
      · rw [if_pos hname] at hget
        cases hget
        exact hmethod
      · rw [if_neg hname] at hget
        exact (hdone hget).mono hlater
    refine hmade.bind fun id id' z hz _ ⟨hsame, hhz, hdone⟩ => ?_
    subst hsame
    exact ih hrest hz hhz hdone

/-- A class is made. -/
theorem inStep_newClass (hx : Alike x) {info : ClassInfo}
    (hm : x.Methods info.superclass info.methods)
    (hp : ∀ {p}, info.superclass = some p → p < x.heap.classes.size) :
    pairing.InStep x (Eval.make (·.newClass info)) (lift (Eval.make (·.newClass info)))
      fun id id' y => id = id' ∧ y.Known (.classRef id) := by
  refine .step (y := x.addClass info) (a := x.heap.classes.size) rfl rfl (addClass_alike hx hm hp)
    (addClass_later info) ⟨rfl, ?_⟩
  exact size_lt_push _ _

/-- A class is finished, once the environment of its methods is there. -/
theorem inStep_finishClass {superclass : Option Nat} {scope : Nat} (hx : Alike x)
    (h : x.Within S around) {name : Token} (hn : Ordinary name.lexeme)
    (hp : ∀ {p}, superclass = some p → p < x.heap.classes.size)
    (hh : x.Houses scope T superclass) {methods₀ methods : List Function}
    (hm : MethodsShape Token.Itself .lexical T.ofMethods methods₀ methods) :
    pairing.InStep x
      (do
        let table ← Lox.makeMethods scope methods .empty
        let id ← Eval.make (·.newClass { name := name.lexeme, superclass, methods := table })
        Eval.define name.lexeme (.classRef id))
      (do
        let table ← makeMethods scope methods .empty
        let id ← lift
          (Eval.make (·.newClass { name := name.lexeme, superclass, methods := table }))
        lift (Eval.define name.lexeme (.classRef id)))
      fun _ _ _ => True := by
  have hempty : x.Methods superclass .empty := fun h => nomatch h
  refine (inStep_makeMethods hm hx hh hempty).bind fun table table' y hy hl ⟨hsame, ht⟩ => ?_
  subst hsame
  refine (inStep_newClass hy ht fun h => ?_).bind fun id id' z hz hlz ⟨hsame, hid⟩ => ?_
  · exact Nat.lt_of_lt_of_le (hp h) hl.classes.1
  · subst hsame
    -- Making the methods and the class only adds, so the block is where it was.
    have hwithin := h.later hx (hl.trans hlz)
    exact (inStep_lift hz (steps_define hz hwithin.stands.bound hn hid)).imp
      fun _ _ _ _ _ _ => trivial

/-- The environment of `super` is made, to house the methods of a subclass. -/
theorem inStep_newSuper (S : Scopes) {parent : Nat} (hx : Alike x)
    (hb : x.world.machine.current < x.size) (hknown : x.Known (.classRef parent)) :
    let b := Bindings.empty.set "super" (.classRef parent)
    pairing.InStep x (Eval.make (·.newEnvironment (some x.world.machine.current) b))
      (lift (Eval.make (·.newEnvironment (some x.world.machine.current) b)))
      fun e e' y => e = e' ∧ y.Houses e S.ofSubclass (some parent) := by
  intro b
  have hsuper : b.get? "super" = some (.classRef parent) := by
    rw [Bindings.get?_set, if_pos rfl]
  -- It holds the class above and nothing else.
  have hmade : Alike (x.enclose x.world.machine.current b (.above parent)) := by
    refine enclose_alike hx hb (fun {name v} hv => ?_) (fun hr => nomatch hr) (fun hr => ?_)
    · rw [Bindings.get?_set] at hv
      split at hv
      · cases hv
        exact hknown
      · cases hv
    · cases hr
      exact hsuper
  refine .step (y := x.enclose x.world.machine.current b (.above parent)) (a := x.size) rfl rfl
    hmade (enclose_later _ _ _) ⟨rfl, ?_, fun _ => ⟨parent, role_enclose, rfl⟩⟩
  rw [size_enclose]
  exact Nat.lt_succ_self _

/-- A class is declared.  The methods of a subclass close over an environment that was
made for the class above. -/
theorem inStep_declareClass (superclass : Option Nat) (hx : Alike x) (h : x.Within S around)
    {name : Token} (hn : Ordinary name.lexeme) {methods₀ methods : List Function}
    (hp : ∀ {p}, superclass = some p → p < x.heap.classes.size)
    (hm : MethodsShape Token.Itself .lexical
      (if superclass.isSome then S.ofSubclass else S).ofMethods methods₀ methods) :
    pairing.InStep x (Lox.declareClass name superclass methods)
      (declareClass name superclass methods) fun _ _ _ => True := by
  refine (inStep_lift hx (steps_define hx h.stands.bound hn (v := .nil) trivial)).bind
    fun _ _ y hy hl _ => inStep_get ?_
  have hwithin := h.later hx hl
  have hbelow : ∀ {p}, superclass = some p → p < y.heap.classes.size :=
    fun h => Nat.lt_of_lt_of_le (hp h) hl.classes.1
  cases superclass with
  | none =>
    -- Without a superclass the methods close over the environment that is there.
    have houses : y.Houses y.world.machine.current S none :=
      ⟨hwithin.stands.bound, fun hd => absurd hd h.free⟩
    exact inStep_finishClass hy hwithin hn hbelow houses hm
  | some parent =>
    refine (inStep_newSuper S hy hwithin.stands.bound (hbelow rfl)).bind
      fun e e' z hz hlz ⟨hsame, hh⟩ => ?_
    subst hsame
    exact inStep_finishClass hz (hwithin.later hy hlz) hn
      (fun h => Nat.lt_of_lt_of_le (hbelow h) hlz.classes.1) hh hm

/-! ### Expressions and statements -/

/-- Expressions do the same as inside the method around them. -/
def EvalsAlike (ev : Expr → Eval Value) (ev' : Option Activation → Expr → Run Value) : Prop :=
  ∀ {x S around e₀ e}, Alike x → x.Within S around →
    ExprShape Token.Itself (Rules.lexical.uses S) e₀ e →
      pairing.InStep x (ev e) (ev' around e) Yields

section Trees

variable {host : Host} {n : Nat} (he : EvalsAlike (Lox.eval host n) (eval host n))
  (hr : RunsAlike (Lox.exec host n) (exec host n))

include he in
/-- The arguments of a call. -/
theorem inStep_arguments (hx : Alike x) (h : x.Within S around) {es₀ es : List Expr}
    (hes : List.Forall₂ (ExprShape Token.Itself (Rules.lexical.uses S)) es₀ es) :
    pairing.InStep x (es.mapM (Lox.eval host n)) (es.mapM (eval host n around)) fun vs vs' y =>
      vs = vs' ∧ ∀ v ∈ vs, y.Known v := by
  refine .mapM (I := fun x : Stage => x.Within S around) (V := fun v (x : Stage) => x.Known v)
    (fun hy hl h => h.later hy hl) (fun _ hl hv => hv.mono hl) ?_ hx h
  induction hes with
  | nil => exact .nil
  | cons hexpr _ ih => exact .cons (fun y hy h => he hy h hexpr) ih

include he hr in
/-- Expressions with one more frame. -/
theorem EvalsAlike.succ : EvalsAlike (Lox.eval host (n + 1)) (eval host (n + 1)) := by
  intro x S around e₀ e hx h hshape
  cases hshape with
  | literal => exact .pure hx ⟨rfl, by rename_i v; cases v <;> trivial⟩
  | grouping hexpr => exact he hx h hexpr
  | unary _ _ hexpr =>
    refine (he hx h hexpr).bind fun v v' y hy hl ⟨hsame, hv⟩ => ?_
    subst hsame
    exact inStep_lift hy (steps_plain hy (plain_unary _ v))
  | binary hleft _ _ hright =>
    refine (he hx h hleft).bind fun a a' y hy hl ⟨hsame, _⟩ => ?_
    subst hsame
    refine (he hy (h.later hx hl) hright).bind fun b b' z hz hlz ⟨hsame, _⟩ => ?_
    subst hsame
    exact inStep_lift hz (steps_plain hz (plain_binary _ a b))
  | logical hleft _ hright =>
    refine (he hx h hleft).bind fun a a' y hy hl ⟨hsame, ha⟩ => ?_
    subst hsame
    exact .ite Iff.rfl (.pure hy ⟨rfl, ha⟩) (he hy (h.later hx hl) hright)
  | var => exact inStep_lift hx (steps_lookup hx _)
  | assign ht hk _ hexpr =>
    refine (he hx h hexpr).bind fun v v' y hy hl ⟨hsame, hv⟩ => ?_
    subst hsame
    -- An identifier is neither `this` nor `super`, so nothing that an activation relies on is
    -- assigned.
    have hn := ordinary Token.Itself.alike ht hk
    rw [ht.same] at hn
    refine (inStep_lift hy (steps_assign hy (h.later hx hl).stands.bound ⟨_, _⟩ hn hv)).bind
      fun _ _ z hz hlz _ => .pure hz ⟨rfl, hv.mono hlz⟩
  | call hcallee _ hes =>
    refine (he hx h hcallee).bind fun f f' y hy hl ⟨hsame, hf⟩ => ?_
    subst hsame
    refine (inStep_arguments he hy (h.later hx hl) hes).bind fun vs vs' z hz hlz ⟨hsame, hvs⟩ => ?_
    subst hsame
    exact inStep_call hr host hz _ (hf.mono hlz) hvs
  | get hobject _ =>
    refine (he hx h hobject).bind fun v v' y hy hl ⟨hsame, hv⟩ => ?_
    subst hsame
    exact inStep_property hy hv _
  | set hobject _ hexpr =>
    refine (he hx h hobject).bind fun o o' y hy hl ⟨hsame, _⟩ => ?_
    subst hsame
    refine .ite Iff.rfl ?_ (inStep_fail hy _ _)
    refine (he hy (h.later hx hl) hexpr).bind fun v v' z hz hlz ⟨hsame, hv⟩ => ?_
    subst hsame
    exact (inStep_lift hz (steps_setProperty hz o _ hv)).bind fun _ _ w hw hlw _ =>
      .pure hw ⟨rfl, hv.mono hlw⟩
  | this ht hk hu =>
    have hlexeme := ht.spelled.this hk
    rw [ht.same] at hu
    exact inStep_this hx h (ht.same ▸ hlexeme) hu
  | super ht _ _ hu => exact inStep_super hx h _ hu

include he in
/-- A variable is declared. -/
theorem inStep_varDecl (hx : Alike x) (h : x.Within S around) {name : Token}
    (hn : Ordinary name.lexeme) {init : Option Expr} (hi : ∀ e, init = some e →
      ∃ e₀, ExprShape Token.Itself (Rules.lexical.uses (S.declare name.lexeme)) e₀ e) :
    pairing.InStep x (Lox.exec host (n + 1) (.varDecl name init))
      (exec host (n + 1) around (.varDecl name init)) Completes := by
  have hdefine : ∀ {y v}, Alike y → y.Within S around → y.Known v →
      pairing.InStep y
        (do
          Eval.define name.lexeme v
          pure Completion.normal)
        (do
          lift (Eval.define name.lexeme v)
          pure Completion.normal) Completes := fun hy hw hv =>
    (inStep_lift hy (steps_define hy hw.stands.bound hn hv)).bind fun _ _ z hz _ _ =>
      .pure hz ⟨rfl, fun _ h => nomatch h⟩
  cases init with
  | none => exact hdefine hx h trivial
  | some e =>
    obtain ⟨e₀, hshape⟩ := hi e rfl
    refine (he hx (h.declare hn) hshape).bind fun v v' y hy hl ⟨hsame, hv⟩ => ?_
    subst hsame
    exact hdefine hy (h.later hx hl) hv

/-- Repetition of what is in step. -/
theorem inStep_iterate {condition : Eval Bool} {condition' : Run Bool} {body : Eval Completion}
    {body' : Run Completion}
    (hc : ∀ y, Alike y → y.Within S around → pairing.InStep y condition condition' Same)
    (hb : ∀ y, Alike y → y.Within S around → pairing.InStep y body body' Completes) :
    ∀ turns {x}, Alike x → x.Within S around →
      pairing.InStep x (Lox.iterate condition body turns) (iterate condition' body' turns)
        Completes := by
  intro turns
  induction turns with
  | zero => exact fun hx _ => .throw hx .unfinished
  | succ turns ih =>
    intro x hx h
    refine (hc x hx h).bind fun c c' y hy hl hsame => ?_
    obtain rfl : c = c' := hsame
    have hy' := h.later hx hl
    refine .ite Iff.rfl ((hb y hy hy').bind fun d d' z hz hlz hd => ?_)
      (.pure hy ⟨rfl, fun _ h => nomatch h⟩)
    obtain ⟨rfl, hv⟩ := hd
    cases d with
    | normal => exact ih hz (hy'.later hy hlz)
    | broke => exact .pure hz ⟨rfl, fun _ h => nomatch h⟩
    | returned v => exact .pure hz ⟨rfl, hv⟩

include he hr in
/-- Statements with one more frame. -/
theorem RunsAlike.succ : RunsAlike (Lox.exec host (n + 1)) (exec host (n + 1)) := by
  intro x S T around s₀ s hx h hshape
  -- Most statements end normally, with nothing to keep of their result.
  have hnormal : ∀ {y}, Alike y →
      pairing.InStep y (pure Completion.normal) (pure Completion.normal) Completes :=
    fun hy => .pure hy ⟨rfl, fun _ h => nomatch h⟩
  cases hshape with
  | expression hexpr => exact (he hx h hexpr).bind fun _ _ y hy _ _ => hnormal hy
  | print hexpr =>
    refine (he hx h hexpr).bind fun v v' y hy hl ⟨hsame, _⟩ => ?_
    subst hsame
    refine inStep_ask ?_
    cases y.heap.display? n v with
    | none => exact .throw hy .exhausted
    | some text =>
      have hwrite : y.Steps (Eval.writeLine text) fun _ _ => True :=
        .inl ⟨(), _, rfl, evolves_objects hy rfl rfl rfl rfl (Nat.le_refl _) (fun _ => rfl)
          fun hu => .inl (hu.of_eq rfl rfl rfl), trivial⟩
      exact (inStep_lift hy hwrite).bind fun _ _ z hz _ _ => hnormal hz
  | plain ht hk _ =>
    exact inStep_varDecl he hx h (ht.same ▸ ordinary Token.Itself.alike ht hk) fun _ h => nomatch h
  | initialized ht hk _ hexpr =>
    refine inStep_varDecl he hx h (ht.same ▸ ordinary Token.Itself.alike ht hk) ?_
    rintro e ⟨⟩
    exact ⟨_, ht.same ▸ hexpr⟩
  | block hb =>
    have hempty : ∀ {name v}, ({} : Bindings Value).get? name = some v → x.Known v :=
      fun h => nomatch h
    refine inStep_get ((inStep_lift hx (steps_newEnvironment hx h.stands hempty)).bind
      fun e e' y hy hl ⟨hsame, hse⟩ => ?_)
    subst hsame
    -- A block binds neither `this` nor `super`, so the activation is the one outside.
    refine inStep_body hr hy hse (fun ha => (h.proper ha).mono hl) ?_ hb
    rw [Scopes.hops?_push]
    cases S.hops? "super" <;> simp
  | ifAlone hexpr hthen =>
    refine (he hx h hexpr).bind fun c c' y hy hl ⟨hsame, _⟩ => ?_
    subst hsame
    exact .ite Iff.rfl (hr hy (h.later hx hl) hthen) (hnormal hy)
  | ifElse hexpr hthen helse =>
    refine (he hx h hexpr).bind fun c c' y hy hl ⟨hsame, _⟩ => ?_
    subst hsame
    exact .ite Iff.rfl (hr hy (h.later hx hl) hthen) (hr hy (h.later hx hl) helse)
  | whileLoop hexpr hbody =>
    refine inStep_iterate (fun y hy h => ?_) (fun y hy h => hr hy h hbody) _ hx h
    exact (he hy h hexpr).bind fun v v' z hz _ ⟨hsame, _⟩ =>
      .pure hz (congrArg Value.isTruthy hsame)
  | breakLoop => exact .pure hx ⟨rfl, fun _ h => nomatch h⟩
  | funDecl _ hf => exact (inStep_declareFunction hx h hf).bind fun _ _ y hy _ _ => hnormal hy
  | returned =>
    refine .pure hx ⟨rfl, ?_⟩
    rintro _ ⟨⟩
    trivial
  | returnedWith _ hexpr =>
    refine (he hx h hexpr).bind fun v v' y hy _ ⟨hsame, hv⟩ => .pure hy ⟨congrArg _ hsame, ?_⟩
    rintro _ ⟨⟩
    exact hv
  | classDecl ht hk _ hm =>
    have hn := ordinary Token.Itself.alike ht hk
    exact (inStep_declareClass none hx (h.add hn) (ht.same ▸ hn)
      (fun h => nomatch h) hm).bind fun _ _ y hy _ _ => hnormal hy
  | subclass ht hk _ _ _ _ hm =>
    have hn := ordinary Token.Itself.alike ht hk
    refine (inStep_lift hx (steps_lookup hx _)).bind fun v v' y hy hl ⟨hsame, hv⟩ => ?_
    subst hsame
    cases v with
    | classRef parent =>
      refine (inStep_declareClass (some parent) hy ((h.later hx hl).add hn)
        (ht.same ▸ hn) ?_ hm).bind fun _ _ z hz _ _ => hnormal hz
      rintro _ ⟨⟩
      exact hv
    | _ => exact inStep_fail hy _ _

end Trees

/-- Expressions and statements do the same as inside the methods around them. -/
theorem alike_eval_and_exec (host : Host) (n : Nat) :
    EvalsAlike (Lox.eval host n) (eval host n) ∧ RunsAlike (Lox.exec host n) (exec host n) := by
  induction n with
  | zero => exact ⟨fun hx _ _ => .throw hx .exhausted, fun hx _ _ => .throw hx .exhausted⟩
  | succ n ih => exact ⟨EvalsAlike.succ ih.1 ih.2, RunsAlike.succ ih.1 ih.2⟩

/-! ### The top level -/

/-- A stage between two statements of the top level. -/
structure Level (x : Stage) : Prop where
  alike : Alike x
  within : x.Within [] none

theorem Level.later (h : Level x) (hy : Alike y) (hl : Later x y) : Level y :=
  ⟨hy, h.within.later h.alike hl⟩

/-- The stage before any program has run. -/
def initial : Stage where
  world := .initial
  role _ := .plain
  unbound _ := False

theorem level_initial : Level initial := by
  have hlink : ∀ e, (initial.env e).enclosing = none := by
    intro e
    cases e with
    | zero => rfl
    | succ e => rfl
  have halike : Alike initial := {
    root := Nat.one_pos
    links := fun h => by
      rw [hlink] at h
      cases h
    receivers := fun h => nomatch h
    aboves := fun h => nomatch h
    count := rfl
    codes := fun h => absurd h (Nat.not_lt_zero _)
    activations := fun h => nomatch h
    methods := fun h => nomatch h
    order := fun h => nomatch h
    held := fun h => by
      obtain ⟨f, rfl⟩ := holds_initial h
      trivial }
  have hstands : initial.Stands 0 [] none :=
    ⟨Nat.one_pos, (fun h => nomatch h), fun h => nomatch h⟩
  exact ⟨halike, hstands, (fun h => nomatch h), fun h => nomatch h⟩

/-- A statement of the top level does the same outside of all methods. -/
theorem inStep_topLevel (host : Host) (levels : Nat) (record : Bool) (h : Level x)
    {s₀ s : Stmt} (hs : StmtShape Token.Itself .lexical [] s₀ s T) :
    pairing.InStep x (Lox.runTopLevel host levels record s) (runTopLevel host levels record s)
      Same := by
  obtain ⟨he, hr⟩ := alike_eval_and_exec host levels
  have hexec : pairing.InStep x
      (do
        let _ ← Lox.exec host levels s
        pure none)
      (do
        let _ ← exec host levels none s
        pure none) (Same (α := Option String)) :=
    (hr h.alike h.within hs).bind fun _ _ y hy _ _ => .pure hy rfl
  refine inStep_catchExhausted _ ?_
  -- Only an expression that is recorded is not executed but evaluated.
  cases record with
  | false => exact hexec
  | true =>
    cases hs with
    | expression hexpr =>
      refine (he h.alike h.within hexpr).bind fun v v' y hy _ ⟨hsame, _⟩ => ?_
      subst hsame
      refine inStep_ask ?_
      cases y.heap.display? levels v with
      | none => exact .throw hy .exhausted
      | some text => exact .pure hy rfl
    | _ => exact hexec

/-- Statements of the top level record the same text and end in the same way. -/
theorem runStatements_level (host : Host) (levels : Nat) (record : Bool) {body₀ body : List Stmt} :
    ∀ {x} (value : Option String), Level x → BodyShape Token.Itself .lexical [] body₀ body T →
      ∃ ending value' y,
        Lox.runStatements host levels record body value x.world.machine =
          (ending, value', y.world.machine) ∧
        runStatements host levels record body value x.world = (ending, value', y.world) ∧
        Level y ∧ Later x y := by
  induction body₀ generalizing body with
  | nil =>
    rintro x value h ⟨⟩
    exact ⟨_, value, x, rfl, rfl, h, .refl x⟩
  | cons s₀ body₀ ih =>
    rintro x value h (_ | ⟨hs, hb⟩)
    -- Among the globals nothing is declared in a scope.
    rename_i U s body
    have hU : U = [] := by
      rcases hs.scopes Token.Itself.alike with rfl | ⟨name, -, rfl⟩
      · rfl
      · rfl
    subst hU
    unfold Lox.runStatements runStatements
    rcases inStep_topLevel host levels record h hs with
      ⟨text, _, y, hp, hq, hy, hl, rfl⟩ | ⟨e, e', y, hp, hq, hy, hl, he⟩ | ⟨hfalse, -⟩
    · rw [show Lox.runTopLevel host levels record s x.world.machine = _ from hp,
        show runTopLevel host levels record s x.world = _ from hq]
      obtain ⟨ending, value', z, hrun, hrun', hz, hlz⟩ := ih (text <|> value) (h.later hy hl) hb
      exact ⟨ending, value', z, hrun, hrun', hz, hl.trans hlz⟩
    · rw [show Lox.runTopLevel host levels record s x.world.machine = _ from hp,
        show runTopLevel host levels record s x.world = _ from hq, he.eq]
      exact ⟨_, value, y, rfl, rfl, h.later hy hl, hl⟩
    · exact hfalse.elim

/-! ### Units and sessions -/

/-- What the statements of a unit come to is what its run comes to. -/
theorem interpret_of_runStatements {host : Host} (settings : Settings) {statements : List Stmt}
    {listing : Listing} {report : Report} {w w' : World} {ending : Ending} {value : Option String}
    (h : runStatements host (settings.frames host / framesPerLevel) settings.replMode statements
      none { w with machine := { w.machine with output := "" } } = (ending, value, w')) :
    interpret host settings statements listing report w =
      ({ output := w'.machine.output, ending, value, report := ending.record listing report },
        w') := by
  unfold interpret
  simp only [h]

theorem run_level (host : Host) (settings : Settings) (source : Source) (h : Level x) :
    ∃ result y,
      Session.run host settings source.file source.text ⟨x.world.machine⟩ =
        (result, ⟨y.world.machine⟩) ∧
      run host settings source.file source.text x.world = (result, y.world) ∧
      Level y ∧ Later x y := by
  unfold Session.run Session.runChecked run
  dsimp only
  cases herrors : (check host settings source.file source.text).report.hasErrors with
  | true => exact ⟨_, x, rfl, rfl, h, .refl x⟩
  | false =>
    obtain ⟨ts, program, r, ha⟩ := hasErrors_eq_false_iff.mp herrors
    have hquiet : x.Evolves { x.world.machine with output := "" } :=
      evolves_objects h.alike rfl rfl rfl rfl (Nat.le_refl _) (fun _ => rfl)
        fun hu => .inl (hu.of_eq rfl rfl rfl)
    obtain ⟨ending, value, y, hrun, hrun', hy, hl⟩ :=
      runStatements_level host (settings.frames host / framesPerLevel) settings.replMode none
        (h.later (evolves_alike h.alike hquiet) (evolves_later hquiet)) ha.lexical
    rw [if_neg Bool.false_ne_true, if_neg Bool.false_ne_true, ha.check_eq.1,
      Lox.interpret_of_runStatements (m := x.world.machine) settings hrun,
      interpret_of_runStatements (w := x.world) settings hrun']
    exact ⟨_, y, rfl, rfl, hy, (evolves_later hquiet).trans hl⟩

theorem runSources_level (host : Host) (settings : Settings) (sources : List Source) :
    ∀ {x}, Level x → ∃ results y,
      Session.runSources host settings sources ⟨x.world.machine⟩ = (results, ⟨y.world.machine⟩) ∧
      runSources host settings sources x.world = (results, y.world) ∧ Level y ∧ Later x y := by
  induction sources with
  | nil => exact fun {x} h => ⟨[], x, rfl, rfl, h, .refl x⟩
  | cons source sources ih =>
    intro x h
    obtain ⟨result, y, hrun, hrun', hy, hl⟩ := run_level host settings source h
    obtain ⟨results, z, hrest, hrest', hz, hlz⟩ := ih hy
    rw [runSources_cons hrun, hrest]
    simp only [runSources, hrun', hrest']
    exact ⟨_, z, rfl, rfl, hz, hl.trans hlz⟩

end Stage

end Receiving

/-- `this` and `super` are lexically right.  Whatever sources were run before, a
source does to the machine what it does when `this` is the instance that the method
around was bound to and `super` starts from the class above the one whose
declaration the method stands in.  It comes to no defect, so whenever a method was
entered and whenever `this` was used, the instance was there and its class was the
class of the method or one below it.  This holds of all functions that are kept, and
no class is ever changed, so the class above one is the class value that was there
when it was declared. -/
theorem run_eq_receiving (host : Host) (settings : Settings) (sources : List Source)
    (source : Source) :
    let s := (Session.runSources host settings sources .start).2
    let w := (Receiving.runSources host settings sources .initial).2
    let outcome := s.run host settings source.file source.text
    let reference := Receiving.run host settings source.file source.text w
    outcome.1 = reference.1 ∧ outcome.2.machine = reference.2.machine ∧
    (∀ d, reference.1.ending ≠ .defective d) ∧
    (∀ id a, reference.2.activation id = some a → a.isProper reference.2.machine.heap = true) ∧
    s.machine.heap.KeepsClasses outcome.2.machine.heap := by
  obtain ⟨results, x, hs, hw, hx, -⟩ :=
    Receiving.Stage.runSources_level host settings sources Receiving.Stage.level_initial
  obtain ⟨result, y, hrun, hrun', hy, hl⟩ := Receiving.Stage.run_level host settings source hx
  have hstart : Session.start = ⟨Receiving.Stage.initial.world.machine⟩ := rfl
  have hinitial : Receiving.World.initial = Receiving.Stage.initial.world := rfl
  have houtcome := (run_sound host settings sources source).2.2
  simp only [hstart, hs, hrun] at houtcome
  simp only [hstart, hinitial, hs, hw, hrun, hrun']
  exact ⟨trivial, trivial, houtcome.ending_ne, fun id a ha => (hy.alike.activations ha).isProper,
    hl.classes⟩

end Lox
