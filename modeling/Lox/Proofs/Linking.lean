/-
Steps that make links.

Links are made in five places: a block and a call make an environment inside another one, a
method that is bound and a subclass make one for `this` and for `super`, and a class is made
below another.  All other steps change values only.  Each of them keeps the links that are
there and leaves them in order.

* `Machine.Goes`, `goes_define`, `goes_enclose`, `goes_function`, `goes_class`,
  `goes_objects` — changes of the heap;
* `Machine.Steps` — a computation that is one step, or stops and changes nothing;
* `steps_lookup`, `steps_assign`, `steps_define` — variables;
* `steps_newEnvironment`, `steps_newFunction`, `steps_newClass`, `steps_bind` — new objects;
* `steps_property`, `steps_setProperty`, `steps_super`, `steps_native` — properties and
  native functions.
-/
import Lox.Proofs.Links

namespace Lox.Machine

variable {α β ι : Type} {m : Machine}

/-- A step to a machine that keeps the links and has them in order. -/
structure Goes (m m' : Machine) : Prop where
  keeps : m.Keeps m'
  ordered : m'.Ordered

/-! ### Changes of the heap -/

theorem Goes.refl (h : m.Ordered) : m.Goes m :=
  ⟨.refl m, h⟩

theorem Goes.trans {m' m'' : Machine} (h : m.Goes m') (h' : m'.Goes m'') : m.Goes m'' :=
  ⟨h.keeps.trans h'.keeps, h'.ordered⟩

/-- A name gets a value. -/
theorem goes_define (h : m.Ordered) {e : Nat} (he : e < m.scopes) {name : String} {v : Value}
    (hv : m.Known v) :
    m.Goes (m.withEnvironments (m.heap.environments.define e name v)) := by
  have hsize : (m.withEnvironments (m.heap.environments.define e name v)).scopes = m.scopes :=
    Forest.size_define _ e name v
  have henclosing : ∀ e', (m.withEnvironments (m.heap.environments.define e name v)).enclosing e' =
      m.enclosing e' := Forest.enclosing_define _ e name v
  refine ⟨⟨Nat.le_of_eq hsize.symm, fun _ => henclosing _, Nat.le_refl _, fun _ => rfl⟩,
    hsize ▸ h.root, Forest.linked_define h.links e name v, fun he hzero => ?_, hsize ▸ h.current,
    fun id => hsize ▸ h.closures id, h.order, fun hu => ?_⟩
  · rw [henclosing]
    exact h.outer (hsize ▸ he) hzero
  · rcases holds_define he hu with rfl | hu
    · exact hv
    · exact h.held hu

/-- A new environment, inside one that is there. -/
theorem goes_enclose (h : m.Ordered) {outer : Nat} (ho : outer < m.scopes) {b : Bindings Value}
    (hb : ∀ {name v}, b.get? name = some v → m.Known v) :
    m.Goes (m.withEnvironments (m.heap.environments.push ⟨some outer, b⟩)) := by
  have hsize : (m.withEnvironments (m.heap.environments.push ⟨some outer, b⟩)).scopes =
      m.scopes + 1 := Array.size_push _
  have henclosing : ∀ e,
      (m.withEnvironments (m.heap.environments.push ⟨some outer, b⟩)).enclosing e =
        if e = m.scopes then some outer else m.enclosing e := fun e => by
    unfold enclosing
    rw [← apply_ite (fun a : Environment => a.enclosing) (e = m.scopes) ⟨some outer, b⟩]
    exact congrArg Environment.enclosing (Forest.env_push _ _ e)
  refine ⟨⟨hsize ▸ Nat.le_succ _, fun he => (henclosing _).trans (if_neg (Nat.ne_of_lt he)),
    Nat.le_refl _, fun _ => rfl⟩, hsize ▸ Nat.succ_pos _, fun e p hp => ?_, fun {e} he hzero => ?_,
    hsize ▸ Nat.lt_succ_of_lt h.current, fun id => hsize ▸ Nat.lt_succ_of_lt (h.closures id),
    h.order, fun hu => ?_⟩
  -- Only the link of the new environment is new, and it points to one that was there.
  · replace hp := (henclosing e).symm.trans hp
    by_cases hnew : e = m.scopes
    · rw [if_pos hnew] at hp
      cases hp
      exact hnew ▸ ho
    · rw [if_neg hnew] at hp
      exact h.links hp
  · rw [henclosing]
    by_cases hnew : e = m.scopes
    · rw [if_pos hnew]
      exact Option.some_ne_none outer
    · rw [if_neg hnew]
      rw [hsize] at he
      exact h.outer (Nat.lt_of_le_of_ne (Nat.le_of_lt_succ he) hnew) hzero
  · rcases holds_enclose hu with ⟨name, hname⟩ | hu
    · exact hb hname
    · exact h.held hu

/-- The machine with one more function. -/
def withFunction (m : Machine) (c : Closure) : Machine :=
  { m with heap := { m.heap with functions := m.heap.functions.push c } }

/-- The machine with one more class. -/
def withClass (m : Machine) (info : ClassInfo) : Machine :=
  { m with heap := { m.heap with classes := m.heap.classes.push info } }

/-- A new function, declared in an environment that is there. -/
theorem goes_function (h : m.Ordered) {c : Closure} (hc : c.scope < m.scopes) :
    m.Goes (m.withFunction c) := by
  refine ⟨⟨Nat.le_refl _, fun _ => rfl, Nat.le_refl _, fun _ => rfl⟩, h.root, h.links, h.outer,
    h.current, fun id => ?_, h.order, fun hu => ?_⟩
  · change ((m.heap.newFunction c).2.closure id).scope < m.scopes
    rw [Heap.closure_newFunction]
    split
    · exact hc
    · exact h.closures id
  · exact h.held (hu.of_eq rfl rfl rfl)

/-- A new class, below one that is there. -/
theorem goes_class (h : m.Ordered) {info : ClassInfo}
    (hp : ∀ {p}, info.superclass = some p → p < m.heap.classes.size) :
    m.Goes (m.withClass info) := by
  have hkeeps : m.Keeps (m.withClass info) := by
    refine ⟨Nat.le_refl _, fun _ => rfl, ?_, fun hk => getD_push_lt hk⟩
    exact size_le_push _ _
  refine ⟨hkeeps, h.root, h.links, h.outer, h.current, h.closures, fun {k p} hk => ?_,
    fun hu => (h.held (hu.of_eq rfl rfl rfl)).mono hkeeps⟩
  change ((m.heap.newClass info).2.classInfo k).superclass = some p at hk
  rw [Heap.classInfo_newClass] at hk
  by_cases hnew : k = m.heap.classes.size
  · rw [if_pos hnew] at hk
    exact hnew ▸ hp hk
  · rw [if_neg hnew] at hk
    exact h.order hk

/-- Nothing changes but values, the output and the clock. -/
theorem goes_objects (h : m.Ordered) {m' : Machine}
    (he : m'.heap.environments = m.heap.environments)
    (hf : m'.heap.functions = m.heap.functions) (hk : m'.heap.classes = m.heap.classes)
    (hc : m'.current = m.current) (hheld : ∀ {v}, m'.Holds v → m.Holds v ∨ m.Known v) :
    m.Goes m' := by
  obtain ⟨⟨environments, functions, classes, instances, arrays⟩, current, output, readings⟩ := m'
  obtain rfl := he
  obtain rfl := hf
  obtain rfl := hk
  obtain rfl := hc
  refine ⟨⟨Nat.le_refl _, fun _ => rfl, Nat.le_refl _, fun _ => rfl⟩, h.root, h.links, h.outer,
    h.current, h.closures, h.order, fun {v} hv => ?_⟩
  have hknown : m.Known v := (hheld hv).elim h.held id
  cases v <;> exact hknown

/-- Another environment becomes the current one. -/
theorem goes_current (h : m.Ordered) {e : Nat} (he : e < m.scopes) :
    m.Goes { m with current := e } := by
  refine ⟨⟨Nat.le_refl _, fun _ => rfl, Nat.le_refl _, fun _ => rfl⟩, h.root, h.links, h.outer,
    he, h.closures, h.order, fun {v} hv => ?_⟩
  have hknown : m.Known v := h.held (hv.of_eq rfl rfl rfl)
  cases v <;> exact hknown

/-! ### Single steps -/

/-- A computation that is one step, or stops and leaves the machine as it is. -/
def Steps (m : Machine) (p : Eval α) (V : α → Machine → Prop) : Prop :=
  (∃ a m', p m = .ok a m' ∧ m.Goes m' ∧ V a m') ∨ ∃ e, p m = .error e m

variable {p : Eval α} {V : α → Machine → Prop}

theorem Steps.pure (h : m.Ordered) {a : α} (ha : V a m) : m.Steps (pure a) V :=
  .inl ⟨a, m, rfl, .refl h, ha⟩

theorem Steps.fail {f : Fault} {t : Token} : m.Steps (Eval.fail f t) V :=
  .inr ⟨_, rfl⟩

theorem Steps.throw {e : Stop} : m.Steps (throw e) V :=
  .inr ⟨e, rfl⟩

theorem Steps.map {f : α → β} {W : β → Machine → Prop} (h : m.Steps p V)
    (hf : ∀ a m', V a m' → W (f a) m') : m.Steps (f <$> p) W := by
  rw [map_eq_pure_bind]
  rcases h with ⟨a, m', hp, hm, ha⟩ | ⟨e, hp⟩
  · exact .inl ⟨f a, m', bind_ok hp, hm, hf a m' ha⟩
  · exact .inr ⟨e, bind_error hp⟩

theorem Steps.ask {r : Heap → ι} {f : ι → Eval α} (h : m.Steps (f (r m.heap)) V) :
    m.Steps (Eval.ask r >>= f) V :=
  h

theorem Steps.get {f : Machine → Eval α} (h : m.Steps (f m) V) :
    m.Steps (MonadState.get >>= f) V :=
  h

theorem Steps.found {r : Except Forest.Lost ι} {f : ι → Eval α}
    (h : ∀ a, r = .ok a → m.Steps (f a) V) : m.Steps (Eval.found r >>= f) V := by
  cases r with
  | ok a => exact h a rfl
  | error why => exact .inr ⟨_, rfl⟩

theorem Steps.allowed {paren : Token} {r : Except Refusal ι} {f : ι → Eval α}
    (h : ∀ a, r = .ok a → m.Steps (f a) V) : m.Steps (allowed paren r >>= f) V := by
  cases r with
  | ok a => exact h a rfl
  | error why => exact .inr ⟨_, rfl⟩

/-- A value that is known when it is there. -/
abbrev Gives (v : Value) (m : Machine) : Prop :=
  m.Known v

theorem steps_plain (h : m.Ordered) {p : Eval Value} (hp : Plain p) : m.Steps p Gives := by
  rcases hp with ⟨v, hv, rfl⟩ | ⟨e, rfl⟩
  · exact .pure h (known_of_inert hv)
  · exact .throw

/-! ### Variables -/

theorem steps_lookup (h : m.Ordered) (ref : Reference) : m.Steps (Eval.lookup ref) Gives := by
  rcases lookup_cases ref m with ⟨v, hp, hv⟩ | ⟨e, hp⟩
  · exact .inl ⟨v, m, hp, .refl h, h.held hv⟩
  · exact .inr ⟨e, hp⟩

theorem steps_assign (h : m.Ordered) (ref : Reference) {v : Value} (hv : m.Known v) :
    m.Steps (Eval.assign ref v) fun _ _ => True := by
  rcases assign_cases ref v (fun hp => h.links hp) h.root h.current with ⟨e, he, hp⟩ | ⟨stop, hp⟩
  · exact .inl ⟨(), _, hp, goes_define h he hv, trivial⟩
  · exact .inr ⟨stop, hp⟩

theorem steps_define (h : m.Ordered) (name : String) {v : Value} (hv : m.Known v) :
    m.Steps (Eval.define name v) fun _ _ => True :=
  .inl ⟨(), _, rfl, goes_define h h.current hv, trivial⟩

/-! ### New objects -/

theorem steps_newEnvironment (h : m.Ordered) {outer : Nat} (ho : outer < m.scopes)
    {b : Bindings Value} (hb : ∀ {name v}, b.get? name = some v → m.Known v) :
    m.Steps (Eval.make (·.newEnvironment (some outer) b)) fun e m' => e < m'.scopes :=
  .inl ⟨m.scopes, _, rfl, goes_enclose h ho hb, size_lt_push _ _⟩

theorem steps_newFunction (h : m.Ordered) {c : Closure} (hc : c.scope < m.scopes) :
    m.Steps (Eval.make (·.newFunction c)) fun _ _ => True :=
  .inl ⟨_, m.withFunction c, rfl, goes_function h hc, trivial⟩

theorem steps_newClass (h : m.Ordered) {info : ClassInfo}
    (hp : ∀ {p}, info.superclass = some p → p < m.heap.classes.size) :
    m.Steps (Eval.make (·.newClass info)) fun id m' => m'.Known (.classRef id) := by
  refine .inl ⟨_, m.withClass info, rfl, goes_class h hp, ?_⟩
  exact size_lt_push _ _

theorem steps_newInstance (h : m.Ordered) (classId : Nat) :
    m.Steps (Eval.make (·.newInstance classId)) fun _ _ => True :=
  .inl ⟨_, _, rfl, goes_objects h rfl rfl rfl rfl fun hu => .inl (holds_newInstance hu), trivial⟩

/-- What is bound where a single name is bound. -/
theorem known_of_single (name : String) {u : Value} (hu : m.Known u) {other : String} {v : Value}
    (hv : (Bindings.empty.set name u).get? other = some v) : m.Known v := by
  rw [Bindings.get?_set] at hv
  split at hv
  · cases hv
    exact hu
  · cases hv

/-- A method is bound to a receiver, in a new environment around that of the method. -/
theorem steps_bind (h : m.Ordered) (method : Nat) {receiver : Value} (hr : m.Known receiver) :
    m.Steps (Eval.make (·.bind method receiver)) fun _ _ => True := by
  have hinner := goes_enclose h (h.closures method) (known_of_single "this" hr)
  exact .inl ⟨_, _, rfl, hinner.trans (goes_function hinner.ordered (size_lt_push _ _)), trivial⟩

theorem steps_boundValue (h : m.Ordered) (method : Nat) {receiver : Value}
    (hr : m.Known receiver) :
    m.Steps (.function <$> Eval.make (·.bind method receiver)) Gives :=
  (steps_bind h method hr).map fun _ _ _ => trivial

theorem steps_write (h : m.Ordered) (text : String) :
    m.Steps (Eval.writeLine text) fun _ _ => True :=
  .inl ⟨(), _, rfl, goes_objects h rfl rfl rfl rfl fun hu => .inl (hu.of_eq rfl rfl rfl), trivial⟩

/-! ### Properties -/

theorem steps_arrayProperty (h : m.Ordered) (id : Nat) (name : Token) :
    m.Steps (arrayProperty id name) Gives := by
  unfold arrayProperty
  split
  · exact .ask (.pure h trivial)
  · exact .pure h trivial
  · exact .pure h trivial
  · exact .fail

theorem steps_instanceProperty (h : m.Ordered) (id : Nat) (name : Token) :
    m.Steps (instanceProperty id name) Gives := by
  refine .ask ?_
  cases hfield : (m.heap.instanceInfo id).fields.get? name.lexeme with
  | some v => exact .pure h (h.held (.field hfield))
  | none =>
    refine .ask (.ask ?_)
    cases m.heap.findMethod? (m.heap.instanceInfo id).classId name.lexeme with
    | some method => exact steps_boundValue h method trivial
    | none => exact .fail

theorem steps_property (h : m.Ordered) (v : Value) (name : Token) :
    m.Steps (getProperty v name) Gives := by
  cases v with
  | object id => exact steps_instanceProperty h id name
  | array id => exact steps_arrayProperty h id name
  | _ => exact .fail

theorem steps_setProperty (h : m.Ordered) (object : Value) (name : Token) {v : Value}
    (hv : m.Known v) : m.Steps (setProperty object name v) fun _ _ => True := by
  cases object with
  | object id =>
    refine .inl ⟨(), _, rfl, goes_objects h rfl rfl rfl rfl fun hu => ?_, trivial⟩
    exact (holds_setField hu).symm.imp_right fun h => by rwa [h]
  | _ => exact .fail

/-- A method of the class above is bound to what is found as the receiver. -/
theorem steps_super (h : m.Ordered) (ref : Reference) (method : Token) :
    m.Steps (superMethod ref method) Gives := by
  unfold superMethod
  cases ref.hops with
  | none => exact .throw
  | some hops =>
    refine .get (.ask (.found fun parent _ => .ask (.found fun receiver hreceiver => ?_)))
    cases parent with
    | classRef classId =>
      refine .ask ?_
      cases m.heap.findMethod? classId method.lexeme with
      | some found => exact steps_boundValue h found (h.held (holds_of_getAt hreceiver))
      | none => exact .fail
    | _ => exact .throw

/-! ### Native functions -/

theorem steps_native (host : Host) (h : m.Ordered) (paren : Token) (f : Native)
    {arguments : List Value} (ha : ∀ v ∈ arguments, m.Known v) :
    m.Steps (applyNative host paren f arguments) Gives := by
  -- Native functions change arrays only, and put nothing there that was not known.
  cases f with
  | clock =>
    exact .inl ⟨_, _, rfl, goes_objects h rfl rfl rfl rfl fun hu => .inl (hu.of_eq rfl rfl rfl),
      trivial⟩
  | makeArray =>
    cases arguments with
    | nil => exact .fail
    | cons size rest =>
      refine .allowed fun elements helements => .inl ⟨_, _, rfl,
        goes_objects h rfl rfl rfl rfl fun hu => ?_, trivial⟩
      rcases holds_newArray helements hu with rfl | hu
      · exact .inr trivial
      · exact .inl hu
  | elementOf id =>
    cases arguments with
    | nil => exact .fail
    | cons index rest =>
      refine .ask ?_
      cases hget : Elements.get (m.heap.elements id) index with
      | error why => exact .fail
      | ok v =>
        refine .pure h ?_
        rcases Elements.eq_nil_or_getElem?_of_get hget with rfl | ⟨i, hi⟩
        · trivial
        · exact h.held (.element hi)
  | storeInto id =>
    cases arguments with
    | nil => exact .fail
    | cons index rest =>
      cases rest with
      | nil => exact .fail
      | cons value rest =>
        have hvalue : m.Known value := ha value (by simp)
        refine .ask (.allowed fun i _ => ?_)
        have hm : m.Goes (m.withArrays
            (m.heap.arrays.modify id fun a => a.setIfInBounds i value)) :=
          goes_objects h rfl rfl rfl rfl fun hu =>
            (holds_storeElement hu).symm.imp_right fun h => by rwa [h]
        exact .inl ⟨value, _, rfl, hm, hvalue.mono hm.keeps⟩

end Lox.Machine
