/-
Running a program beside its receivers.

A machine finds `this` and `super` in environments, by their distances.  It does the
same, step by step, as the run in which every function keeps the method around it
and takes `this` and `super` from there; and whenever a method is entered, its
receiver is an instance of the class the method stands in, or of a class below it.

* `Stage.Steps`, `inStep_lift` — steps that the machine takes alone;
* `Stage.Within` — a place inside a method, or outside of all;
* `inStep_this`, `inStep_super` — receivers and classes above;
* `inStep_bind`, `inStep_property` — methods;
* `RunsAlike`, `inStep_body` — statements of a body;
* `inStep_apply`, `inStep_construct`, `inStep_call` — calls.
-/
import Lox.Proofs.Stages

namespace Lox.Receiving

open Scope Pairing

/-- A machine, and the same machine with the methods around its functions. -/
def pairing : Pairing Stage Machine World where
  left x := x.world.machine
  right x := x.world
  Alike := Stage.Alike
  Later := Stage.Later
  later_refl := Stage.Later.refl
  later_trans := Stage.Later.trans
  Places := Eq
  Lenient := False

namespace Stage

variable {x y : Stage} {S T : Scopes} {around : Option Activation} {α β ι κ : Type}
  {p : Eval α} {q : Run β} {Q : α → β → Stage → Prop}

/-- The same value on both sides, whose object is there. -/
abbrev Yields (v v' : Value) (y : Stage) : Prop :=
  Gives (fun v y => y.Known v) v v' y

/-- The same completion on both sides; the object of a value that is returned is
there. -/
abbrev Completes (c c' : Completion) (y : Stage) : Prop :=
  Ends (fun v y => y.Known v) c c' y

theorem known_of_inert {v : Value} (h : v.Inert) : x.Known v := by
  cases v with
  | function id => exact h.elim
  | classRef id => exact h.elim
  | object id => exact h.elim
  | _ => trivial

/-! ### Steps of the machine alone -/

/-- From a stage, a computation on the machine makes no function and no class, or
stops and leaves the machine as it is. -/
def Steps (x : Stage) (p : Eval α) (V : α → Stage → Prop) : Prop :=
  (∃ a m, p x.world.machine = .ok a m ∧ x.Evolves m ∧ V a (x.on m)) ∨
    ∃ e, p x.world.machine = .error e x.world.machine

theorem Steps.fail {f : Fault} {t : Token} {V : α → Stage → Prop} : x.Steps (Eval.fail f t) V :=
  .inr ⟨_, rfl⟩

theorem Steps.pure (hx : Alike x) {a : α} {V : α → Stage → Prop} (h : V a x) :
    x.Steps (pure a) V :=
  .inl ⟨a, x.world.machine, rfl, .refl hx, h⟩

theorem steps_ask {r : Heap → ι} {f : ι → Eval α} {V : α → Stage → Prop}
    (h : x.Steps (f (r x.heap)) V) : x.Steps (Eval.ask r >>= f) V :=
  h

theorem steps_plain (hx : Alike x) {p : Eval Value} (h : Plain p) :
    x.Steps p fun v y => y.Known v := by
  rcases h with ⟨v, hv, rfl⟩ | ⟨e, rfl⟩
  · exact .pure hx (known_of_inert hv)
  · exact .inr ⟨e, rfl⟩

theorem inStep_lift (hx : Alike x) {V : α → Stage → Prop} (h : x.Steps p V) :
    pairing.InStep x p (lift p) fun a b y => a = b ∧ V a y := by
  rcases h with ⟨a, m, hp, hm, hV⟩ | ⟨e, hp⟩
  · have hlift : lift p x.world = .ok a (x.on m).world := by
      unfold lift
      rw [hp]
      rfl
    exact .step (y := x.on m) hp hlift (evolves_alike hx hm) (evolves_later hm) ⟨rfl, hV⟩
  · have hlift : lift p x.world = .error e x.world := by
      unfold lift
      rw [hp]
    exact .inr (.inl ⟨e, e, x, hp, hlift, hx, .refl x, .refl (R := Eq) (fun _ => rfl) e⟩)

theorem inStep_fail (hx : Alike x) (f : Fault) (t : Token) :
    pairing.InStep x (Eval.fail f t : Eval α) (lift (Eval.fail f t : Eval β)) Q :=
  .inr (.inl ⟨_, _, x, rfl, rfl, hx, .refl x, .fault rfl⟩)

theorem inStep_ask {r : Heap → ι} {r' : Heap → κ} {f : ι → Eval α} {g : κ → Run β}
    (h : pairing.InStep x (f (r x.heap)) (g (r' x.heap)) Q) :
    pairing.InStep x (Eval.ask r >>= f) (lift (Eval.ask r') >>= g) Q :=
  h

theorem inStep_get {f : Machine → Eval α} {g : World → Run β}
    (h : pairing.InStep x (f x.world.machine) (g x.world) Q) :
    pairing.InStep x (MonadState.get >>= f) (MonadState.get >>= g) Q :=
  h

/-- Only the first computation looks at the state, and finds what it needs. -/
theorem inStep_left {r : Eval ι} {a : ι} {f : ι → Eval α}
    (hr : r x.world.machine = .ok a x.world.machine) (h : pairing.InStep x (f a) q Q) :
    pairing.InStep x (r >>= f) q Q := by
  unfold InStep
  rw [bind_ok (show r (pairing.left x) = .ok a (pairing.left x) from hr)]
  exact h

/-- Only the second computation looks at the state, and finds what it needs. -/
theorem inStep_right {r : Run κ} {b : κ} {g : κ → Run β} (hr : r x.world = .ok b x.world)
    (h : pairing.InStep x p (g b) Q) : pairing.InStep x p (r >>= g) Q := by
  unfold InStep
  rw [bind_ok (show r (pairing.right x) = .ok b (pairing.right x) from hr)]
  exact h

theorem catches {α : Type} (t : Token) (p : Run α) : Catches t p (catchExhausted t p) where
  ok h := by
    unfold catchExhausted
    rw [h]
  error {_ e _} h := by
    unfold catchExhausted
    rw [h]
    cases e with
    | _ => rfl

theorem inStep_catchExhausted (t : Token) (h : pairing.InStep x p q Q) :
    pairing.InStep x (Eval.catchExhausted t p) (catchExhausted t q) Q :=
  h.caught rfl (Eval.catches t p) (catches t q)

/-! ### Another environment -/

/-- The stage in another environment. -/
def inside (x : Stage) (e : Nat) : Stage :=
  x.on { x.world.machine with current := e }

theorem Alike.inside (hx : Alike x) (e : Nat) : Alike (x.inside e) := by
  obtain ⟨hroot, hlinks, hreceivers, haboves, hcount, hcodes, hactivations, hmethods, horder,
    hheld⟩ := hx
  refine ⟨hroot, hlinks, fun hr => ?_, haboves, hcount, fun hid hu => ?_, fun ha => ?_,
    fun hk => ?_, horder, fun hv => ?_⟩
  · obtain ⟨he, hthis, howner, hreceiver, hinherits⟩ := hreceivers hr
    exact ⟨he, hthis, howner, hreceiver, hinherits⟩
  · obtain ⟨⟨S, f, hf, hbound, hthis, hsuper⟩, hinit⟩ := hcodes hid hu
    exact ⟨⟨S, f, hf, hbound, hthis, hsuper⟩, hinit⟩
  · obtain ⟨howner, hreceiver, hinherits⟩ := hactivations ha
    exact ⟨howner, hreceiver, hinherits⟩
  · obtain ⟨hid, hu, S, f, hf, hhouses⟩ := hmethods hk
    exact ⟨hid, hu, S, f, hf, hhouses⟩
  · have h := hheld (hv.of_eq rfl rfl rfl)
    rename_i v
    cases v <;> exact h

section Inside

variable {e : Nat} {stop : Stop} {w w' : World}

theorem runInside_ok {b : β}
    (h : q { w with machine := { w.machine with current := e } } = .ok b w') :
    inEnvironment e q w =
      .ok b { w' with machine := { w'.machine with current := w.machine.current } } := by
  unfold inEnvironment
  rw [h]

theorem runInside_error
    (h : q { w with machine := { w.machine with current := e } } = .error stop w') :
    inEnvironment e q w =
      .error stop { w' with machine := { w'.machine with current := w.machine.current } } := by
  unfold inEnvironment
  rw [h]

end Inside

theorem inStep_inEnvironment {e : Nat} (h : pairing.InStep (x.inside e) p q Q)
    (hQ : ∀ {a b y}, Q a b y → Q a b (y.inside x.world.machine.current)) :
    pairing.InStep x (Eval.inEnvironment e p) (inEnvironment e q) Q := by
  have hback : ∀ {y}, Later (x.inside e) y → Later x (y.inside x.world.machine.current) :=
    fun hl => ⟨hl.size, hl.enclosing, hl.role, hl.count, hl.unbound, hl.closure, hl.activation,
      hl.classes, hl.instances, hl.classId, rfl⟩
  rcases h with ⟨a, b, y, hp, hq, hy, hl, h⟩ | ⟨stop, stop', y, hp, hq, hy, hl, he⟩ | ⟨hfalse, -⟩
  · exact .inl ⟨a, b, y.inside x.world.machine.current,
      Eval.inEnvironment_ok (m := x.world.machine) hp, runInside_ok (w := x.world) hq,
      Alike.inside hy _, hback hl, hQ h⟩
  · exact .inr (.inl ⟨stop, stop', y.inside x.world.machine.current,
      Eval.inEnvironment_error (m := x.world.machine) hp, runInside_error (w := x.world) hq,
      Alike.inside hy _, hback hl, he⟩)
  · exact hfalse.elim

/-! ### Places -/

/-- Where a program is: in an environment from which `this` and `super` are found as
the scopes say, inside a method that runs on a receiver of its class, or outside of
all. -/
structure Within (x : Stage) (S : Scopes) (around : Option Activation) : Prop where
  stands : x.Stands x.world.machine.current S around
  proper : ∀ {a}, around = some a → x.Proper a
  /-- No statement stands in a scope of `super` itself. -/
  free : S.hops? "super" ≠ some 0

theorem Within.later (h : x.Within S around) (hx : Alike x) (hxy : Later x y) :
    y.Within S around where
  stands := by
    rw [hxy.current]
    exact h.stands.mono hx hxy
  proper ha := (h.proper ha).mono hxy
  free := h.free

/-- Only the distances of `this` and `super` matter. -/
theorem Stands.congr {e : Nat} (h : x.Stands e S around)
    (hthis : T.hops? "this" = S.hops? "this") (hsuper : T.hops? "super" = S.hops? "super") :
    x.Stands e T around where
  bound := h.bound
  this hd := h.this (hthis.symm.trans hd)
  super hd hd' := h.super (hthis.symm.trans hd) (hsuper.symm.trans hd')

theorem Within.congr (h : x.Within S around) (hthis : T.hops? "this" = S.hops? "this")
    (hsuper : T.hops? "super" = S.hops? "super") : x.Within T around :=
  ⟨h.stands.congr hthis hsuper, h.proper, hsuper ▸ h.free⟩

theorem Within.declare (h : x.Within S around) {name : String} (hn : Ordinary name) :
    x.Within (S.declare name) around :=
  h.congr (Scopes.hops?_mark false hn.1) (Scopes.hops?_mark false hn.2)

theorem Within.add (h : x.Within S around) {name : String} (hn : Ordinary name) :
    x.Within (S.add name) around :=
  h.congr (Scopes.hops?_add hn.1) (Scopes.hops?_add hn.2)

/-! ### Variables -/

/-- A name of the current environment gets a value. -/
theorem steps_define (hx : Alike x) (hb : x.world.machine.current < x.size) {name : String}
    (hn : Ordinary name) {v : Value} (hv : x.Known v) :
    x.Steps (Eval.define name v) fun _ _ => True :=
  .inl ⟨(), _, rfl, evolves_define hx hb hn hv, trivial⟩

/-- A variable is read. -/
theorem steps_lookup (hx : Alike x) (ref : Reference) :
    x.Steps (Eval.lookup ref) fun v y => y.Known v := by
  rcases lookup_cases ref x.world.machine with ⟨v, hp, hv⟩ | ⟨e, hp⟩
  · exact .inl ⟨v, x.world.machine, hp, .refl hx, hx.held hv⟩
  · exact .inr ⟨e, hp⟩

/-- A variable is changed. -/
theorem steps_assign (hx : Alike x) (hb : x.world.machine.current < x.size) (ref : Reference)
    (hn : Ordinary ref.name) {v : Value} (hv : x.Known v) :
    x.Steps (Eval.assign ref v) fun _ _ => True := by
  rcases assign_cases ref v hx.links hx.root hb with ⟨e, he, hp⟩ | ⟨stop, hp⟩
  · exact .inl ⟨(), _, hp, evolves_define hx he hn hv, trivial⟩
  · exact .inr ⟨stop, hp⟩

/-- An environment that is reached binds a name. -/
theorem getAt_of_walk {e e' d : Nat} {name : String} {v : Value}
    (hwalk : x.heap.environments.walk d (some e) = .ok (some e'))
    (hget : (x.env e').values.get? name = some v) :
    x.heap.environments.getAt e d name = .ok v := by
  have hreach : x.heap.environments.reach e d = .ok e' := Forest.reach_ok.mpr hwalk
  have hget : (x.heap.environments.env e').values.get? name = some v := hget
  unfold Forest.getAt
  rw [hreach]
  simp only [bind, Except.bind, hget]
  rfl

/-- The receiver of a method is an instance of its class, or of a class below it. -/
theorem receiver_run {a : Activation} (ha : x.Proper a) :
    receiver (some a) x.world = .ok (.object a.receiver) x.world := by
  have hproper := ha.isProper
  change (if a.isProper x.heap then (pure (.object a.receiver) : Run Value)
    else throw (.defect (.lost .missing))) x.world = _
  rw [if_pos hproper]
  rfl

/-- `this` is the receiver. -/
theorem inStep_this (hx : Alike x) (h : x.Within S around) {t : Token} {hops : Option Nat}
    (ht : t.lexeme = "this") (hu : Rules.lexical.uses S .this_ t.lexeme hops) :
    pairing.InStep x (Eval.lookup ⟨t, hops⟩) (receiver around) Yields := by
  obtain ⟨d, rfl, hd, -⟩ := hu
  obtain ⟨e, a, hwalk, hrole, rfl⟩ := h.stands.this hd
  obtain ⟨-, hthis, hproper⟩ := hx.receivers hrole
  have hget := getAt_of_walk hwalk hthis
  refine .step (a := .object a.receiver) (y := x) ?_ (receiver_run hproper) hx (.refl x)
    ⟨rfl, hproper.receiver⟩
  change Eval.found (x.heap.environments.getAt x.world.machine.current d t.lexeme)
    x.world.machine = _
  rw [ht, hget]
  rfl

/-! ### Methods -/

/-- The environment of a receiver stands one scope inside that of the methods. -/
theorem stands_method {e : Nat} {a : Activation}
    (hh : x.Houses e S (x.heap.classInfo a.owner).superclass)
    (ha : a.owner < x.heap.classes.size) {b : Bindings Value} :
    (x.enclose e b (.receiver a)).Stands x.size S.ofMethods (some a) where
  bound := by
    rw [size_enclose]
    exact Nat.lt_succ_self _
  this {d} hd := by
    obtain rfl : 0 = d := Option.some.inj ((Scopes.hops?_of "this" S).symm.trans hd)
    exact ⟨x.size, a, rfl, role_enclose, rfl⟩
  super {d} hd hd' := by
    obtain rfl : 0 = d := Option.some.inj ((Scopes.hops?_of "this" S).symm.trans hd)
    have hsuper : S.hops? "super" = some 0 := by
      rw [Scopes.ofMethods, Scopes.hops?_of_ne (by decide)] at hd'
      simpa using hd'
    obtain ⟨p, hrole, hp⟩ := hh.2 hsuper
    refine ⟨e, a, p, ?_, ?_, rfl, ha, hp⟩
    · have henv : (x.enclose e b (.receiver a)).env x.size = ⟨some e, b⟩ := by
        rw [env_enclose, if_pos rfl]
      exact congrArg (fun v : Environment => Except.ok v.enclosing) henv
    · exact (if_neg (Nat.ne_of_lt hh.1)).trans hrole

/-- A method is bound to a receiver of its class. -/
theorem inStep_bind (hx : Alike x) {m : Nat} {a : Activation}
    (hm : x.Method (x.heap.classInfo a.owner).superclass m) (ha : x.Proper a) :
    pairing.InStep x (Eval.make (·.bind m (.object a.receiver))) (bindMethod a.owner m a.receiver)
      fun id id' y => id = id' ∧ y.Known (.function id) := by
  obtain ⟨-, -, S, f, hf, hhouses⟩ := hm
  let c := x.heap.closure m
  let b : Bindings Value := Bindings.empty.set "this" (.object a.receiver)
  let z := x.enclose c.scope b (.receiver a)
  let y := z.addFunction { c with scope := x.size } (some a) False
  have hthis : b.get? "this" = some (.object a.receiver) := by
    rw [Bindings.get?_set, if_pos rfl]
  -- First the environment that holds the receiver, then the closure of the method in it.
  have hz : Alike z := by
    refine enclose_alike hx hhouses.1 (fun {name v} hv => ?_) (fun hr => ?_) (fun hr => nomatch hr)
    · rw [Bindings.get?_set] at hv
      split at hv
      · cases hv
        exact ha.receiver
      · cases hv
    · cases hr
      exact ⟨hthis, ha⟩
  have hlater : Later x z := enclose_later _ _ _
  have hy : Alike y := by
    refine addFunction_alike hz (fun _ => ⟨S.ofMethods, f, hf, stands_method hhouses ha.owner⟩)
      (fun _ _ => ⟨a, rfl, role_enclose⟩) ?_
    rintro _ ⟨⟩
    exact ha.mono hlater
  refine .step (y := y) (a := x.count) rfl rfl hy (hlater.trans (addFunction_later hz _ _ _))
    ⟨rfl, ?_, ?_⟩
  · exact size_lt_push _ _
  · change ¬(if x.count = x.count then False else _)
    rw [if_pos rfl]
    exact id

theorem inStep_bindValue (hx : Alike x) {m : Nat} {a : Activation}
    (hm : x.Method (x.heap.classInfo a.owner).superclass m) (ha : x.Proper a) :
    pairing.InStep x (.function <$> Eval.make (·.bind m (.object a.receiver)))
      (.function <$> bindMethod a.owner m a.receiver) Yields :=
  (inStep_bind hx hm ha).map fun _ _ _ _ _ ⟨hsame, hknown⟩ =>
    ⟨congrArg Value.function hsame, hsame ▸ hknown⟩

/-- A method that is found stands in a class that is there. -/
theorem Alike.owned (hx : Alike x) {name : String} {owner m id : Nat}
    (h : x.heap.findOwned? id name = some (owner, m)) :
    x.Method (x.heap.classInfo owner).superclass m ∧ owner < x.heap.classes.size ∧
      x.heap.inherits id owner = true := by
  obtain ⟨hget, hinherits⟩ := Heap.findOwned?_spec id h
  refine ⟨hx.methods hget, ?_, hinherits⟩
  by_contra hge
  rw [Heap.classInfo_of_size_le (Nat.not_lt.mp hge)] at hget
  cases hget

/-- A property of an array. -/
theorem steps_arrayProperty (hx : Alike x) (id : Nat) (name : Token) :
    x.Steps (arrayProperty id name) fun v y => y.Known v := by
  unfold arrayProperty
  generalize name.lexeme = property
  split
  · exact .inl ⟨_, x.world.machine, rfl, .refl hx, trivial⟩
  · exact .pure hx trivial
  · exact .pure hx trivial
  · exact .fail

/-- A property of a value. -/
theorem inStep_property (hx : Alike x) {v : Value} (hv : x.Known v) (name : Token) :
    pairing.InStep x (Lox.getProperty v name) (getProperty v name) Yields := by
  cases v with
  | object id =>
    refine inStep_ask ?_
    cases hfield : (x.heap.instanceInfo id).fields.get? name.lexeme with
    | some v => exact .pure hx ⟨rfl, hx.held (.field hfield)⟩
    | none =>
      refine inStep_ask (inStep_ask ?_)
      rw [Heap.findMethod?_eq]
      cases hm : x.heap.findOwned? (x.heap.instanceInfo id).classId name.lexeme with
      | some found =>
        obtain ⟨hmethod, howner, hinherits⟩ := hx.owned hm
        exact inStep_bindValue (a := ⟨found.1, id⟩) hx hmethod ⟨howner, hv, hinherits⟩
      | none => exact inStep_fail hx _ _
  | array id => exact inStep_lift hx (steps_arrayProperty hx id name)
  | _ => exact inStep_fail hx _ _

/-- A property is set. -/
theorem steps_setProperty (hx : Alike x) (o : Value) (name : Token) {v : Value}
    (hv : x.Known v) : x.Steps (setProperty o name v) fun _ _ => True := by
  cases o with
  | object id =>
    refine .inl ⟨(), _, rfl, evolves_objects hx rfl rfl rfl rfl ?_ (fun {i} _ => ?_)
      (fun hu => (holds_setField hu).symm.imp_right fun h => by rwa [h]), trivial⟩
    · exact Nat.le_of_eq Array.size_modify.symm
    · change ((x.heap.instances.modify id _).getD i default).classId =
        (x.heap.instances.getD i default).classId
      rw [getD_modify]
      split
      · rfl
      · rfl
  | _ => exact .fail

/-- `super` starts from the class above that of the method. -/
theorem inStep_super (hx : Alike x) (h : x.Within S around) {t : Token} {hops : Option Nat}
    (method : Token) (hu : Rules.lexical.uses S .super_ t.lexeme hops) :
    pairing.InStep x (Lox.superMethod ⟨t, hops⟩ method) (superMethod around method) Yields := by
  obtain ⟨d, rfl, ⟨hd', -⟩, ⟨hd, -⟩⟩ := hu
  obtain ⟨e, a, p, hwalk, hrole, rfl, howner, hp⟩ := h.stands.super hd hd'
  obtain ⟨e', a', hwalk', hrole', ha'⟩ := h.stands.this hd
  cases ha'
  have hsuper := getAt_of_walk hwalk (hx.aboves hrole).2
  obtain ⟨-, hthis, hproper⟩ := hx.receivers hrole'
  have hthis := getAt_of_walk hwalk' hthis
  have hback : ((d + 1 : Nat) : Int) - 1 = d := by omega
  -- The machine looks both up; the class of the method says the same.
  refine inStep_left (a := x.world.machine) rfl
    (inStep_left (a := .ok (.classRef p)) ?_
      (inStep_left (a := .classRef p) rfl
        (inStep_left (a := .ok (.object a.receiver)) ?_
          (inStep_left (a := .object a.receiver) rfl ?_))))
  · exact congrArg (fun r => EStateM.Result.ok r x.world.machine) hsuper
  · rw [hback]
    exact congrArg (fun r => EStateM.Result.ok r x.world.machine) hthis
  refine inStep_right (b := some p) (congrArg (fun r => EStateM.Result.ok r x.world) hp)
    (inStep_ask ?_)
  rw [Heap.findMethod?_eq]
  cases hm : x.heap.findOwned? p method.lexeme with
  | some found =>
    obtain ⟨hmethod, howner', hinherits⟩ := hx.owned hm
    refine inStep_bindValue (a := ⟨found.1, a.receiver⟩) hx hmethod
      ⟨howner', hproper.receiver, ?_⟩
    exact Heap.inherits_trans
      (Heap.inherits_of_superclass hp (hx.order hp) hinherits) _ hproper.inherits
  | none => exact inStep_fail hx _ _

/-! ### Native functions -/

theorem steps_allowed {paren : Token} {r : Except Refusal ι} {f : ι → Eval α}
    {V : α → Stage → Prop} (h : ∀ a, r = .ok a → x.Steps (f a) V) :
    x.Steps (allowed paren r >>= f) V := by
  cases r with
  | ok a => exact h a rfl
  | error why => exact .inr ⟨_, rfl⟩

/-- A native function is called. -/
theorem steps_native (host : Host) (hx : Alike x) (paren : Token) (f : Native)
    {arguments : List Value} (ha : ∀ v ∈ arguments, x.Known v) :
    x.Steps (applyNative host paren f arguments) fun v y => y.Known v := by
  -- No native function makes an environment or code, so only what arrays hold has to be known.
  cases f with
  | clock =>
    exact .inl ⟨_, _, rfl, evolves_objects hx rfl rfl rfl rfl (Nat.le_refl _) (fun _ => rfl)
      fun hu => .inl (hu.of_eq rfl rfl rfl), trivial⟩
  | makeArray =>
    cases arguments with
    | nil => exact .fail
    | cons size rest =>
      refine steps_allowed fun elements helements => .inl ⟨_, _, rfl,
        evolves_objects hx rfl rfl rfl rfl (Nat.le_refl _) (fun _ => rfl) fun hu => ?_, trivial⟩
      rcases holds_newArray helements hu with rfl | hu
      · exact .inr trivial
      · exact .inl hu
  | elementOf id =>
    cases arguments with
    | nil => exact .fail
    | cons index rest =>
      refine steps_ask ?_
      cases hget : Elements.get (x.heap.elements id) index with
      | error why => exact .fail
      | ok v =>
        refine .pure hx ?_
        rcases Elements.eq_nil_or_getElem?_of_get hget with rfl | ⟨i, hi⟩
        · trivial
        · exact hx.held (.element hi)
  | storeInto id =>
    cases arguments with
    | nil => exact .fail
    | cons index rest =>
      cases rest with
      | nil => exact .fail
      | cons value rest =>
        have hvalue : x.Known value := ha value (by simp)
        refine steps_ask (steps_allowed fun i _ => ?_)
        have hm : x.Evolves (x.world.machine.withArrays
            (x.heap.arrays.modify id fun a => a.setIfInBounds i value)) :=
          evolves_objects hx rfl rfl rfl rfl (Nat.le_refl _) (fun _ => rfl) fun hu =>
            (holds_storeElement hu).symm.imp_right fun h => by rwa [h]
        exact .inl ⟨value, _, rfl, hm, hvalue.mono (evolves_later hm)⟩

/-! ### New environments -/

/-- A new environment that is made for no method and no class lies one scope further
inside. -/
theorem steps_newEnvironment (hx : Alike x) {outer : Nat} (hs : x.Stands outer S around)
    {b : Bindings Value} (hb : ∀ {name v}, b.get? name = some v → x.Known v) :
    x.Steps (Eval.make (·.newEnvironment (some outer) b)) fun e y =>
      y.Stands e (Bindings.empty :: S) around := by
  have hm := evolves_enclose hx hs.bound hb
  refine .inl ⟨x.size, _, rfl, hm, ?_⟩
  -- From the new environment each environment is one step further away.
  have hwalk : ∀ {j e'}, x.heap.environments.walk j (some outer) = .ok (some e') →
      e' < x.size ∧ Forest.walk (x.heap.environments.push ⟨some outer, b⟩) (j + 1) (some x.size) =
        .ok (some e') := by
    intro j e' h
    obtain ⟨he', hwalk⟩ := (evolves_later hm).walk hx.links hs.bound h
    refine ⟨he', ?_⟩
    rw [Forest.walk, Forest.env_push, if_pos (show x.size = Array.size _ from rfl)]
    exact hwalk
  refine ⟨?_, fun hd => ?_, fun {d} hd hd' => ?_⟩
  · exact size_lt_push _ _
  · rw [Scopes.hops?_push, Option.map_eq_some_iff] at hd
    obtain ⟨d, hd, rfl⟩ := hd
    obtain ⟨e', a, h, hrole, ha⟩ := hs.this hd
    exact ⟨e', a, (hwalk h).2, hrole, ha⟩
  · rw [Scopes.hops?_push, Option.map_eq_some_iff] at hd hd'
    obtain ⟨d, hd, rfl⟩ := hd
    obtain ⟨d', hd', hsucc⟩ := hd'
    obtain rfl := Nat.succ.inj hsucc
    obtain ⟨e', a, p, h, hrole, ha, howner, hp⟩ := hs.super hd hd'
    exact ⟨e', a, p, (hwalk h).2, hrole, ha, howner, hp⟩

/-- Statements do the same as inside the method around them. -/
def RunsAlike (run : Stmt → Eval Completion) (run' : Runner) : Prop :=
  ∀ {x S T around s₀ s}, Alike x → x.Within S around →
    StmtShape Token.Itself .lexical S s₀ s T → pairing.InStep x (run s) (run' around s) Completes

section Calls

variable {run : Stmt → Eval Completion} {run' : Runner} (hrun : RunsAlike run run')

include hrun

/-- Statements one after another. -/
theorem inStep_runAll {body₀ body : List Stmt} : ∀ {x S T}, Alike x → x.Within S around →
    BodyShape Token.Itself .lexical S body₀ body T →
    pairing.InStep x (Lox.runAll run body) (runAll (run' around) body) Completes := by
  induction body₀ generalizing body with
  | nil =>
    rintro x S _ hx - ⟨⟩
    exact .pure hx ⟨rfl, fun _ h => nomatch h⟩
  | cons s₀ body₀ ih =>
    rintro x S U hx h (_ | ⟨hs, hb⟩)
    refine (hrun hx h hs).bind fun c c' y hy hl ⟨hsame, hv⟩ => ?_
    subst hsame
    -- What the statement declares is neither `this` nor `super`.
    have hy' := h.later hx hl
    cases c with
    | normal =>
      refine ih hy ?_ hb
      rcases hs.scopes Token.Itself.alike with rfl | ⟨name, hn, rfl⟩
      · exact hy'
      · exact hy'.add hn
    | broke => exact .pure hy ⟨rfl, hv⟩
    | returned v => exact .pure hy ⟨rfl, hv⟩

/-- The statements of a body, in an environment of their own. -/
theorem inStep_body (hx : Alike x) {e : Nat} (hs : x.Stands e S around)
    (hproper : ∀ {a}, around = some a → x.Proper a) (hfree : S.hops? "super" ≠ some 0)
    {body₀ body : List Stmt} (hb : BodyShape Token.Itself .lexical S body₀ body T) :
    pairing.InStep x (Eval.inEnvironment e (Lox.runAll run body))
      (inEnvironment e (runAll (run' around) body)) Completes := by
  have hwithin : (x.inside e).Within S around := by
    refine ⟨⟨hs.bound, hs.this, hs.super⟩, fun ha => ?_, hfree⟩
    obtain ⟨howner, hreceiver, hinherits⟩ := hproper ha
    exact ⟨howner, hreceiver, hinherits⟩
  refine inStep_inEnvironment (inStep_runAll hrun (Alike.inside hx e) hwithin hb) ?_
  rintro c c' y ⟨hsame, hv⟩
  refine ⟨hsame, fun v hc => ?_⟩
  have h := hv v hc
  cases v <;> exact h

omit hrun in
/-- A method is entered on a receiver of its class. -/
theorem enter_run (h : ∀ {a}, around = some a → x.Proper a) :
    Receiving.enter around x.world = .ok () x.world := by
  cases around with
  | none => rfl
  | some a => exact bind_ok (f := fun _ => pure ()) (receiver_run (h rfl))

/-- A function is called. -/
theorem inStep_apply (hx : Alike x) {id : Nat} (hf : x.Known (.function id))
    {arguments : List Value} (ha : ∀ v ∈ arguments, x.Known v) :
    pairing.InStep x (Lox.applyFunction run id arguments) (applyFunction run' id arguments)
      Yields := by
  obtain ⟨⟨S, f, hshape, hstands⟩, hinit⟩ := hx.codes hf.1 hf.2
  have hproper : ∀ {a}, x.world.activation id = some a → x.Proper a := hx.activations
  refine inStep_ask (inStep_right (b := x.world) rfl (inStep_right (enter_run hproper) ?_))
  generalize x.world.activation id = around at *
  generalize x.heap.closure id = c at *
  obtain ⟨declaration, scope, isInit⟩ := c
  obtain ⟨hn, hk, hp, hkp, hd, hb⟩ := hshape
  rename_i T name name' params params' body body'
  have hordinary := ordinary_params Token.Itself.alike hp hkp
  have hthis := Scopes.hops?_enter (fun p hmem => (hordinary p hmem).1) S
  have hsuper := Scopes.hops?_enter (fun p hmem => (hordinary p hmem).2) S
  refine (inStep_lift hx (steps_newEnvironment hx hstands
    fun hv => ha _ (mem_of_bindParams hv))).bind fun e e' y hy hl ⟨hsame, hse⟩ => ?_
  subst hsame
  have henter : y.Stands e (S.enter params) around :=
    hse.congr (hthis.trans (Scopes.hops?_push S _).symm) (hsuper.trans (Scopes.hops?_push S _).symm)
  have hfree : (S.enter params).hops? "super" ≠ some 0 := by
    rw [hsuper]
    cases S.hops? "super" <;> simp
  refine (inStep_body hrun hy henter (fun h => (hproper h).mono hl) hfree hb).bind
    fun c c' z hz hlz ⟨hsame, hv⟩ => ?_
  subst hsame
  cases isInit with
  | true =>
    -- An initializer gives its receiver.
    rw [if_pos rfl, if_pos rfl]
    obtain ⟨a, rfl, hrole⟩ := hinit rfl
    have hrole : z.role scope = .receiver a :=
      ((hl.trans hlz).role hstands.bound).trans hrole
    obtain ⟨-, hthis, hproper⟩ := hz.receivers hrole
    have hget : z.heap.environments.getAt scope 0 "this" = .ok (.object a.receiver) :=
      getAt_of_walk (d := 0) rfl hthis
    refine inStep_left (congrArg (fun r => EStateM.Result.ok r z.world.machine) hget) ?_
    exact .step (a := .object a.receiver) (y := z) rfl (receiver_run hproper) hz (.refl z)
      ⟨rfl, hproper.receiver⟩
  | false =>
    rw [if_neg Bool.false_ne_true, if_neg Bool.false_ne_true]
    cases c with
    | returned v => exact .pure hz ⟨rfl, hv v rfl⟩
    | _ => exact .pure hz ⟨rfl, trivial⟩

omit hrun in
/-- A new instance is one of its class. -/
theorem steps_newInstance (hx : Alike x) (classId : Nat) :
    x.Steps (Eval.make (·.newInstance classId)) fun id y =>
      id < y.heap.instances.size ∧ (y.heap.instanceInfo id).classId = classId := by
  refine .inl ⟨x.heap.instances.size, _, rfl, evolves_objects hx rfl rfl rfl rfl ?_
    (fun hi => congrArg Instance.classId (getD_push_lt hi))
    (fun hu => .inl (holds_newInstance hu)), ?_, ?_⟩
  · exact size_le_push _ _
  · exact size_lt_push _ _
  · exact congrArg Instance.classId (getD_push_size rfl)

/-- An instance is made, and the initializer runs on it. -/
theorem inStep_construct (hx : Alike x) (classId : Nat) {arguments : List Value}
    (ha : ∀ v ∈ arguments, x.Known v) :
    pairing.InStep x (Lox.construct run classId arguments) (construct run' classId arguments)
      Yields := by
  refine (inStep_lift hx (steps_newInstance hx classId)).bind
    fun id id' y hy hl ⟨hsame, hobject, hclass⟩ => ?_
  subst hsame
  refine inStep_ask ?_
  rw [Heap.findMethod?_eq]
  cases hm : y.heap.findOwned? classId "init" with
  | none => exact .pure hy ⟨rfl, hobject⟩
  | some found =>
    -- The initializer may be an inherited one, so its owner need not be the class.
    obtain ⟨hmethod, howner, hinherits⟩ := hy.owned hm
    refine (inStep_bind (a := ⟨found.1, id⟩) hy hmethod ⟨howner, hobject, ?_⟩).bind
      fun f f' z hz hlz ⟨hsame, hf⟩ => ?_
    · rw [hclass]
      exact hinherits
    · subst hsame
      have haz : ∀ v ∈ arguments, z.Known v := fun v hv => (ha v hv).mono (hl.trans hlz)
      refine (inStep_apply hrun hz hf haz).bind fun _ _ w hw hlw _ => .pure hw ⟨rfl, ?_⟩
      exact Nat.lt_of_lt_of_le hobject (hlz.trans hlw).instances

/-- A value is called. -/
theorem inStep_call (host : Host) (hx : Alike x) (paren : Token) {callee : Value}
    (hc : x.Known callee) {arguments : List Value} (ha : ∀ v ∈ arguments, x.Known v) :
    pairing.InStep x (Lox.callValue host run paren callee arguments)
      (callValue host run' paren callee arguments) Yields := by
  refine inStep_ask ?_
  cases x.heap.arity? callee with
  | none => exact inStep_fail hx _ _
  | some n =>
    refine .ite Iff.rfl (inStep_fail hx _ _) (inStep_catchExhausted paren ?_)
    cases callee with
    | native f => exact inStep_lift hx (steps_native host hx paren f ha)
    | function id => exact inStep_apply hrun hx hc ha
    | classRef id => exact inStep_construct hrun hx id ha
    | _ => exact inStep_fail hx _ _

end Calls

end Stage

end Lox.Receiving
