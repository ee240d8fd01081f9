/-
A machine and the methods around its functions.

In an environment that was made to bind a method, `this` is the receiver for good,
and in one that was made for a subclass, `super` is the class above it, since no
declaration and no assignment can name them.  How far out these environments lie
is known from the scopes around a place.

* `Stage` — a machine, the methods around its functions, and what its environments
  were made for;
* `Stage.Known` — a value whose object is there;
* `Stage.Stands` — where `this` and `super` are found from an environment, inside a
  method;
* `Stage.Method` — a method in the table of a class;
* `Stage.Alike`, `Stage.Later` — what holds of a stage, and what stays;
* `Stage.Evolves`, `evolves_alike` — steps of the machine that make no function and no
  class;
* `addFunction_alike`, `enclose_alike`, `addClass_alike` — steps that do.
-/
import Lox.Proofs.Holding
import Lox.Proofs.Pairing
import Lox.Proofs.Receiving

namespace Lox

open Scope

/-! ### Distances of names -/

namespace Scope.Scopes

theorem hops?_add {S : Scopes} {name other : String} (h : name ≠ other) :
    (S.add name).hops? other = S.hops? other :=
  (hops?_mark true h).trans (hops?_mark false h)

theorem hops?_push (S : Scopes) (name : String) :
    hops? (Bindings.empty :: S) name = (S.hops? name).map (· + 1) :=
  hops?_cons _ _ _

/-- Parameters do not hide other names. -/
theorem hops?_enter {params : List Token} {name : String} (h : ∀ p ∈ params, p.lexeme ≠ name)
    (S : Scopes) : (S.enter params).hops? name = (S.hops? name).map (· + 1) := by
  have hfold : ∀ (params : List Token) (T : Scopes), (∀ p ∈ params, p.lexeme ≠ name) →
      (params.foldl (fun s p => s.add p.lexeme) T).hops? name = T.hops? name := by
    intro params
    induction params with
    | nil => exact fun T _ => rfl
    | cons p params ih =>
      intro T h
      rw [List.forall_mem_cons] at h
      exact (ih _ h.2).trans (hops?_add h.1)
  exact (hfold params _ h).trans (hops?_push S name)

theorem hops?_of (name : String) (S : Scopes) : hops? (Names.of name :: S) name = some 0 :=
  (sees_of name S).1

theorem hops?_of_ne {name other : String} (h : name ≠ other) (S : Scopes) :
    hops? (Names.of name :: S) other = (S.hops? other).map (· + 1) := by
  have hnone : (Names.of name).get? other = none := by
    rw [Names.of, Bindings.get?_set, if_neg h]
    rfl
  rw [hops?_cons, Bindings.binds, hnone]
  rfl

end Scope.Scopes

/-! ### Classes -/

namespace Heap

variable {h h' : Heap}

/-- One heap comes after another: no class has changed. -/
def KeepsClasses (h h' : Heap) : Prop :=
  h.classes.size ≤ h'.classes.size ∧
    ∀ {k}, k < h.classes.size → h'.classInfo k = h.classInfo k

theorem inherits_self (h : Heap) (id : Nat) : h.inherits id id = true := by
  rw [inherits]
  simp

/-- A class lies below all classes that the one above it lies below. -/
theorem inherits_of_superclass {id p above : Nat} (hp : (h.classInfo id).superclass = some p)
    (hlt : p < id) (ha : h.inherits p above = true) : h.inherits id above = true := by
  have hsuper : h.superclass? id = some ⟨p, hlt⟩ := by
    unfold superclass?
    rw [hp]
    exact dif_pos hlt
  rw [inherits, hsuper]
  simp [ha]

theorem inherits_trans {middle above : Nat} (hm : h.inherits middle above = true) (id : Nat)
    (hid : h.inherits id middle = true) : h.inherits id above = true := by
  induction id using Nat.strongRecOn with
  | _ id ih =>
    rw [inherits, Bool.or_eq_true] at hid
    rcases hid with hsame | hup
    · rwa [beq_iff_eq.mp hsame]
    · rw [inherits, Bool.or_eq_true]
      refine .inr ?_
      cases hsuper : h.superclass? id with
      | none =>
        rw [hsuper] at hup
        cases hup
      | some p =>
        rw [hsuper] at hup
        exact ih p.1 p.2 hup

theorem superclass?_mono (hk : h.KeepsClasses h') {id : Nat} {p : { p : Nat // p < id }}
    (hp : h.superclass? id = some p) : h'.superclass? id = some p := by
  have hid : id < h.classes.size := by
    by_contra hge
    unfold superclass? at hp
    rw [classInfo_of_size_le (Nat.le_of_not_lt hge)] at hp
    cases hp
  unfold superclass? at hp ⊢
  rwa [hk.2 hid]

/-- What lies below a class stays below it. -/
theorem inherits_mono (hk : h.KeepsClasses h') {above : Nat} (id : Nat)
    (hid : h.inherits id above = true) : h'.inherits id above = true := by
  induction id using Nat.strongRecOn with
  | _ id ih =>
    rw [inherits, Bool.or_eq_true] at hid ⊢
    refine hid.imp_right fun hup => ?_
    cases hsuper : h.superclass? id with
    | none =>
      rw [hsuper] at hup
      cases hup
    | some p =>
      rw [hsuper] at hup
      rw [superclass?_mono hk hsuper]
      exact ih p.1 p.2 hup

/-- The method that is found, without the class it is found in. -/
theorem findMethod?_eq (h : Heap) (name : String) (id : Nat) :
    h.findMethod? id name = (h.findOwned? id name).map Prod.snd := by
  induction id using Nat.strongRecOn with
  | _ id ih =>
    rw [findMethod?, findOwned?]
    cases (h.classInfo id).methods.get? name with
    | some m => rfl
    | none =>
      cases h.superclass? id with
      | none => rfl
      | some p => exact ih p.1 p.2

/-- A method is found in the table of a class or of one above it. -/
theorem findOwned?_spec {name : String} {owner m : Nat} (id : Nat)
    (hm : h.findOwned? id name = some (owner, m)) :
    (h.classInfo owner).methods.get? name = some m ∧ h.inherits id owner = true := by
  -- By strong induction, since superclasses come before their classes.
  induction id using Nat.strongRecOn with
  | _ id ih =>
    rw [findOwned?] at hm
    cases hget : (h.classInfo id).methods.get? name with
    | some m' =>
      rw [hget] at hm
      cases hm
      exact ⟨hget, inherits_self h _⟩
    | none =>
      rw [hget] at hm
      cases hsuper : h.superclass? id with
      | none =>
        rw [hsuper] at hm
        cases hm
      | some p =>
        rw [hsuper] at hm
        obtain ⟨howner, hup⟩ := ih p.1 p.2 hm
        refine ⟨howner, ?_⟩
        rw [inherits, hsuper, Bool.or_eq_true]
        exact .inr hup

end Heap

namespace Receiving

/-- What an environment was made for. -/
inductive Role
  | plain
  /-- It binds `this` to the receiver of a method. -/
  | receiver (a : Activation)
  /-- It binds `super` to a class. -/
  | above (parent : Nat)

/-- A machine, the methods around its functions, and what its environments were made
for. -/
structure Stage where
  world : World
  role : Nat → Role
  /-- The functions that are methods without a receiver. -/
  unbound : Nat → Prop

namespace Stage

/-- The objects of the machine. -/
def heap (x : Stage) : Heap :=
  x.world.machine.heap

/-- An environment of the machine. -/
def env (x : Stage) (e : Nat) : Environment :=
  x.heap.environments.env e

/-- The number of environments. -/
def size (x : Stage) : Nat :=
  x.heap.environments.size

/-- The number of functions. -/
def count (x : Stage) : Nat :=
  x.heap.functions.size

/-- A value whose object is there; if it is a function, it can be called. -/
def Known (x : Stage) : Value → Prop
  | .function id => id < x.count ∧ ¬x.unbound id
  | .classRef id => id < x.heap.classes.size
  | .object id => id < x.heap.instances.size
  | _ => True

/-- A method that runs on an instance of its class, or of a class below it. -/
structure Proper (x : Stage) (a : Activation) : Prop where
  owner : a.owner < x.heap.classes.size
  receiver : a.receiver < x.heap.instances.size
  inherits : x.heap.inherits (x.heap.instanceInfo a.receiver).classId a.owner = true

/-- From an environment, `this` and `super` are found where the scopes around say,
and they are those of the method around. -/
structure Stands (x : Stage) (e : Nat) (S : Scopes) (around : Option Activation) : Prop where
  bound : e < x.size
  this : ∀ {d}, S.hops? "this" = some d → ∃ e' a,
    x.heap.environments.walk d (some e) = .ok (some e') ∧ x.role e' = .receiver a ∧
      around = some a
  super : ∀ {d}, S.hops? "this" = some d → S.hops? "super" = some (d + 1) → ∃ e' a p,
    x.heap.environments.walk (d + 1) (some e) = .ok (some e') ∧ x.role e' = .above p ∧
      around = some a ∧ a.owner < x.heap.classes.size ∧
      (x.heap.classInfo a.owner).superclass = some p

/-- An environment that methods of a class close over.  For a subclass it binds
`super`. -/
def Houses (x : Stage) (e : Nat) (S : Scopes) (superclass : Option Nat) : Prop :=
  e < x.size ∧ (S.hops? "super" = some 0 → ∃ p, x.role e = .above p ∧ superclass = some p)

/-- A method of a class, without a receiver. -/
structure Method (x : Stage) (superclass : Option Nat) (id : Nat) : Prop where
  bound : id < x.count
  unbound : x.unbound id
  declared : ∃ S f, FunctionShape Token.Itself .lexical S.ofMethods f
    (x.heap.closure id).declaration ∧ x.Houses (x.heap.closure id).scope S superclass

/-- A function that can be called, and the method around it. -/
structure Coded (x : Stage) (id : Nat) : Prop where
  declared : ∃ S f, FunctionShape Token.Itself .lexical S f (x.heap.closure id).declaration ∧
    x.Stands (x.heap.closure id).scope S (x.world.activation id)
  init : (x.heap.closure id).isInit = true → ∃ a, x.world.activation id = some a ∧
    x.role (x.heap.closure id).scope = .receiver a

/-- What holds of a machine and of the methods around its functions. -/
structure Alike (x : Stage) : Prop where
  root : 0 < x.size
  links : ∀ {e p}, (x.env e).enclosing = some p → p < e
  receivers : ∀ {e a}, x.role e = .receiver a →
    e < x.size ∧ (x.env e).values.get? "this" = some (.object a.receiver) ∧ x.Proper a
  aboves : ∀ {e p}, x.role e = .above p →
    e < x.size ∧ (x.env e).values.get? "super" = some (.classRef p)
  count : x.world.around.size = x.count
  codes : ∀ {id}, id < x.count → ¬x.unbound id → x.Coded id
  activations : ∀ {id a}, x.world.activation id = some a → x.Proper a
  methods : ∀ {k name id}, (x.heap.classInfo k).methods.get? name = some id →
    x.Method (x.heap.classInfo k).superclass id
  order : ∀ {k p}, (x.heap.classInfo k).superclass = some p → p < k
  held : ∀ {v}, x.world.machine.Holds v → x.Known v

/-- What stays true as the machine runs. -/
structure Later (x y : Stage) : Prop where
  size : x.size ≤ y.size
  enclosing : ∀ {e}, e < x.size → (y.env e).enclosing = (x.env e).enclosing
  role : ∀ {e}, e < x.size → y.role e = x.role e
  count : x.count ≤ y.count
  unbound : ∀ {id}, id < x.count → (y.unbound id ↔ x.unbound id)
  closure : ∀ {id}, id < x.count → y.heap.closure id = x.heap.closure id
  activation : ∀ {id}, id < x.count → y.world.activation id = x.world.activation id
  classes : x.heap.KeepsClasses y.heap
  instances : x.heap.instances.size ≤ y.heap.instances.size
  classId : ∀ {i}, i < x.heap.instances.size →
    (y.heap.instanceInfo i).classId = (x.heap.instanceInfo i).classId
  current : y.world.machine.current = x.world.machine.current

namespace Later

theorem refl (x : Stage) : Later x x :=
  ⟨Nat.le_refl _, fun _ => rfl, fun _ => rfl, Nat.le_refl _, fun _ => Iff.rfl, fun _ => rfl,
    fun _ => rfl, ⟨Nat.le_refl _, fun _ => rfl⟩, Nat.le_refl _, fun _ => rfl, rfl⟩

theorem trans {x y z : Stage} (h : Later x y) (h' : Later y z) : Later x z where
  size := Nat.le_trans h.size h'.size
  enclosing he := (h'.enclosing (Nat.lt_of_lt_of_le he h.size)).trans (h.enclosing he)
  role he := (h'.role (Nat.lt_of_lt_of_le he h.size)).trans (h.role he)
  count := Nat.le_trans h.count h'.count
  unbound hid := (h'.unbound (Nat.lt_of_lt_of_le hid h.count)).trans (h.unbound hid)
  closure hid := (h'.closure (Nat.lt_of_lt_of_le hid h.count)).trans (h.closure hid)
  activation hid := (h'.activation (Nat.lt_of_lt_of_le hid h.count)).trans (h.activation hid)
  classes := ⟨Nat.le_trans h.classes.1 h'.classes.1, fun hk =>
    (h'.classes.2 (Nat.lt_of_lt_of_le hk h.classes.1)).trans (h.classes.2 hk)⟩
  instances := Nat.le_trans h.instances h'.instances
  classId hi := (h'.classId (Nat.lt_of_lt_of_le hi h.instances)).trans (h.classId hi)
  current := h'.current.trans h.current

end Later

section

variable {x y : Stage} {S : Scopes} {around : Option Activation}

/-! ### What stays -/

theorem Known.mono {v : Value} (h : x.Known v) (hxy : Later x y) : y.Known v := by
  cases v with
  | function id =>
    obtain ⟨hid, hu⟩ := h
    exact ⟨Nat.lt_of_lt_of_le hid hxy.count, mt (hxy.unbound hid).mp hu⟩
  | classRef id => exact Nat.lt_of_lt_of_le h hxy.classes.1
  | object id => exact Nat.lt_of_lt_of_le h hxy.instances
  | _ => trivial

theorem Proper.mono {a : Activation} (h : x.Proper a) (hxy : Later x y) : y.Proper a where
  owner := Nat.lt_of_lt_of_le h.owner hxy.classes.1
  receiver := Nat.lt_of_lt_of_le h.receiver hxy.instances
  inherits := by
    rw [hxy.classId h.receiver]
    exact Heap.inherits_mono hxy.classes _ h.inherits

theorem Proper.isProper {a : Activation} (h : x.Proper a) : a.isProper x.heap = true := by
  unfold Activation.isProper
  rw [h.inherits, Bool.and_true]
  exact decide_eq_true h.receiver

/-- A walk leads to the same environment later on. -/
theorem Later.walk (hxy : Later x y) (hlinks : ∀ {e p}, (x.env e).enclosing = some p → p < e)
    {e e' d : Nat} (he : e < x.size)
    (hwalk : x.heap.environments.walk d (some e) = .ok (some e')) :
    e' < x.size ∧ y.heap.environments.walk d (some e) = .ok (some e') := by
  refine ⟨Nat.lt_of_le_of_lt (Forest.walk_le hlinks d hwalk) he, ?_⟩
  rwa [Forest.walk_congr (n := x.size) hxy.enclosing hlinks d he]

theorem Stands.mono {e : Nat} (h : x.Stands e S around) (hx : Alike x) (hxy : Later x y) :
    y.Stands e S around where
  bound := Nat.lt_of_lt_of_le h.bound hxy.size
  this hd := by
    obtain ⟨e', a, hwalk, hrole, ha⟩ := h.this hd
    obtain ⟨he', hwalk'⟩ := hxy.walk hx.links h.bound hwalk
    exact ⟨e', a, hwalk', (hxy.role he').trans hrole, ha⟩
  super hd hd' := by
    obtain ⟨e', a, p, hwalk, hrole, ha, howner, hp⟩ := h.super hd hd'
    obtain ⟨he', hwalk'⟩ := hxy.walk hx.links h.bound hwalk
    refine ⟨e', a, p, hwalk', (hxy.role he').trans hrole, ha,
      Nat.lt_of_lt_of_le howner hxy.classes.1, ?_⟩
    rw [hxy.classes.2 howner]
    exact hp

theorem Houses.mono {e : Nat} {superclass : Option Nat} (h : x.Houses e S superclass)
    (hxy : Later x y) : y.Houses e S superclass := by
  refine ⟨Nat.lt_of_lt_of_le h.1 hxy.size, fun hd => ?_⟩
  obtain ⟨p, hrole, hp⟩ := h.2 hd
  exact ⟨p, (hxy.role h.1).trans hrole, hp⟩

theorem Method.mono {superclass : Option Nat} {id : Nat} (h : x.Method superclass id)
    (hxy : Later x y) : y.Method superclass id := by
  obtain ⟨hid, hu, S, f, hf, hhouses⟩ := h
  refine ⟨Nat.lt_of_lt_of_le hid hxy.count, (hxy.unbound hid).mpr hu, S, f, ?_, ?_⟩
  · rw [hxy.closure hid]
    exact hf
  · rw [hxy.closure hid]
    exact hhouses.mono hxy

theorem Coded.mono {id : Nat} (h : x.Coded id) (hx : Alike x) (hxy : Later x y)
    (hid : id < x.count) : y.Coded id := by
  obtain ⟨⟨S, f, hf, hstands⟩, hinit⟩ := h
  refine ⟨⟨S, f, ?_, ?_⟩, ?_⟩
  · rw [hxy.closure hid]
    exact hf
  · rw [hxy.closure hid, hxy.activation hid]
    exact hstands.mono hx hxy
  · rw [hxy.closure hid, hxy.activation hid, hxy.role hstands.bound]
    exact hinit

/-! ### Steps of the machine -/

/-- The stage with another machine. -/
def on (x : Stage) (m : Machine) : Stage :=
  { x with world := { x.world with machine := m } }

/-- A step of the machine that makes no function and no class, and leaves `this` and
`super` alone. -/
structure Evolves (x : Stage) (m : Machine) : Prop where
  current : m.current = x.world.machine.current
  functions : m.heap.functions = x.heap.functions
  classes : m.heap.classes = x.heap.classes
  size : x.size ≤ m.heap.environments.size
  enclosing : ∀ {e}, e < x.size →
    (m.heap.environments.env e).enclosing = (x.env e).enclosing
  links : ∀ {e p}, (m.heap.environments.env e).enclosing = some p → p < e
  words : ∀ {e name}, e < x.size → ¬Ordinary name →
    (m.heap.environments.env e).values.get? name = (x.env e).values.get? name
  instances : x.heap.instances.size ≤ m.heap.instances.size
  classId : ∀ {i}, i < x.heap.instances.size →
    (m.heap.instanceInfo i).classId = (x.heap.instanceInfo i).classId
  held : ∀ {v}, m.Holds v → (x.on m).Known v

theorem Evolves.refl (hx : Alike x) : x.Evolves x.world.machine :=
  ⟨rfl, rfl, rfl, Nat.le_refl _, fun _ => rfl, hx.links, fun _ _ => rfl, Nat.le_refl _,
    fun _ => rfl, hx.held⟩

theorem not_ordinary_this : ¬Ordinary "this" :=
  fun h => h.1 rfl

theorem not_ordinary_super : ¬Ordinary "super" :=
  fun h => h.2 rfl

theorem evolves_later {m : Machine} (h : x.Evolves m) : Later x (x.on m) where
  size := h.size
  enclosing := h.enclosing
  role _ := rfl
  count := Nat.le_of_eq (congrArg Array.size h.functions).symm
  unbound _ := Iff.rfl
  closure _ := congrArg (Array.getD · _ default) h.functions
  activation _ := rfl
  classes := ⟨Nat.le_of_eq (congrArg Array.size h.classes).symm,
    fun _ => congrArg (Array.getD · _ default) h.classes⟩
  instances := h.instances
  classId := h.classId
  current := h.current

theorem evolves_alike (hx : Alike x) {m : Machine} (h : x.Evolves m) : Alike (x.on m) := by
  have hlater := evolves_later h
  -- The classes and functions are the same ones, so only environments and values are new.
  have hinfo : ∀ k, m.heap.classInfo k = x.heap.classInfo k := fun k =>
    congrArg (Array.getD · k default) h.classes
  have hcount : (x.on m).count = x.count := congrArg Array.size h.functions
  refine ⟨Nat.lt_of_lt_of_le hx.root h.size, h.links, fun hr => ?_, fun hr => ?_,
    hx.count.trans hcount.symm, fun hid hu => ?_, fun ha => (hx.activations ha).mono hlater,
    fun hk => ?_, fun hk => ?_, h.held⟩
  · obtain ⟨he, hthis, hproper⟩ := hx.receivers hr
    exact ⟨Nat.lt_of_lt_of_le he h.size, (h.words he not_ordinary_this).trans hthis,
      hproper.mono hlater⟩
  · obtain ⟨he, hsuper⟩ := hx.aboves hr
    exact ⟨Nat.lt_of_lt_of_le he h.size, (h.words he not_ordinary_super).trans hsuper⟩
  · rw [hcount] at hid
    exact (hx.codes hid hu).mono hx hlater hid
  · change (m.heap.classInfo _).methods.get? _ = _ at hk
    change Method (x.on m) (m.heap.classInfo _).superclass _
    rw [hinfo] at hk ⊢
    exact (hx.methods hk).mono hlater
  · change (m.heap.classInfo _).superclass = _ at hk
    rw [hinfo] at hk
    exact hx.order hk

/-- A name that is neither `this` nor `super` gets a value. -/
theorem evolves_define (hx : Alike x) {e : Nat} (he : e < x.size) {name : String} {v : Value}
    (hn : Ordinary name) (hv : x.Known v) :
    x.Evolves (x.world.machine.withEnvironments (x.heap.environments.define e name v)) where
  current := rfl
  functions := rfl
  classes := rfl
  size := Nat.le_of_eq (Forest.size_define _ e name v).symm
  enclosing _ := Forest.enclosing_define _ e name v _
  links hp := hx.links ((Forest.enclosing_define _ e name v _).symm.trans hp)
  words _ hw := by
    refine (Forest.get?_define _ he name _ v _).trans (if_neg fun h => hw ?_)
    rw [← h.2]
    exact hn
  instances := Nat.le_refl _
  classId _ := rfl
  held hu := by
    rcases holds_define he hu with rfl | hu
    · exact hv
    · exact hx.held hu

/-- A new environment that is made for no method and no class. -/
theorem evolves_enclose (hx : Alike x) {outer : Nat} (ho : outer < x.size) {b : Bindings Value}
    (hb : ∀ {name v}, b.get? name = some v → x.Known v) :
    x.Evolves (x.world.machine.withEnvironments (x.heap.environments.push ⟨some outer, b⟩)) := by
  have henv : ∀ e, Forest.env (x.heap.environments.push ⟨some outer, b⟩) e =
      if e = x.size then ⟨some outer, b⟩ else x.env e := Forest.env_push _ _
  refine ⟨rfl, rfl, rfl, ?_, fun he => ?_, fun {e p} hp => ?_, fun he _ => ?_, Nat.le_refl _,
    fun _ => rfl, fun hu => ?_⟩
  · exact size_le_push _ _
  · exact congrArg Environment.enclosing ((henv _).trans (if_neg (Nat.ne_of_lt he)))
  · change (Forest.env (x.heap.environments.push ⟨some outer, b⟩) e).enclosing = some p at hp
    rw [henv] at hp
    by_cases he : e = x.size
    · rw [if_pos he] at hp
      cases hp
      exact he ▸ ho
    · rw [if_neg he] at hp
      exact hx.links hp
  · exact congrArg (Bindings.get? ·.values _) ((henv _).trans (if_neg (Nat.ne_of_lt he)))
  · rcases holds_enclose hu with ⟨name, hname⟩ | hu
    · exact hb hname
    · exact hx.held hu

/-- Objects are changed; environments, functions and classes are not. -/
theorem evolves_objects (hx : Alike x) {m : Machine}
    (he : m.heap.environments = x.heap.environments)
    (hf : m.heap.functions = x.heap.functions) (hk : m.heap.classes = x.heap.classes)
    (hc : m.current = x.world.machine.current)
    (hi : x.heap.instances.size ≤ m.heap.instances.size)
    (hid : ∀ {i}, i < x.heap.instances.size →
      (m.heap.instanceInfo i).classId = (x.heap.instanceInfo i).classId)
    (hheld : ∀ {v}, m.Holds v → x.world.machine.Holds v ∨ x.Known v) : x.Evolves m := by
  -- There are as many functions and classes as before, and no fewer instances.
  have hknown : ∀ {v}, x.Known v → (x.on m).Known v := by
    intro v hv
    cases v with
    | function id =>
      refine ⟨?_, hv.2⟩
      change id < m.heap.functions.size
      rw [hf]
      exact hv.1
    | classRef id =>
      change id < m.heap.classes.size
      rw [hk]
      exact hv
    | object id => exact Nat.lt_of_lt_of_le hv hi
    | _ => trivial
  refine ⟨hc, hf, hk, Nat.le_of_eq ?_, fun _ => ?_, fun hp => ?_, fun _ _ => ?_, hi, hid,
    fun hv => hknown ((hheld hv).elim hx.held id)⟩
  · rw [he]
    rfl
  · rw [he]
    rfl
  · rw [he] at hp
    exact hx.links hp
  · rw [he]
    rfl

/-! ### Functions -/

/-- One more function, with the method around it. -/
def addFunction (x : Stage) (c : Closure) (around : Option Activation) (method : Prop) : Stage where
  world :=
    { machine := { x.world.machine with heap := { x.heap with
        functions := x.heap.functions.push c } }
      around := x.world.around.push around }
  role := x.role
  unbound id := if id = x.count then method else x.unbound id

theorem addFunction_later (hx : Alike x) (c : Closure) (around : Option Activation)
    (method : Prop) : Later x (x.addFunction c around method) where
  size := Nat.le_refl _
  enclosing _ := rfl
  role _ := rfl
  count := by
    exact size_le_push _ _
  unbound hid := by
    change (if _ then method else x.unbound _) ↔ _
    rw [if_neg (Nat.ne_of_lt hid)]
  closure hid := getD_push_lt hid
  activation hid := getD_push_lt (hx.count ▸ hid)
  classes := ⟨Nat.le_refl _, fun _ => rfl⟩
  instances := Nat.le_refl _
  classId _ := rfl
  current := rfl

theorem addFunction_alike (hx : Alike x) {c : Closure} {method : Prop}
    (hdeclared : ¬method → ∃ S f, FunctionShape Token.Itself .lexical S f c.declaration ∧
      x.Stands c.scope S around)
    (hinit : ¬method → c.isInit = true → ∃ a, around = some a ∧ x.role c.scope = .receiver a)
    (hproper : ∀ {a}, around = some a → x.Proper a) :
    Alike (x.addFunction c around method) := by
  have hlater := addFunction_later hx c around method
  have hcount : (x.addFunction c around method).count = x.count + 1 := Array.size_push _
  -- Nothing but the list of functions is longer, so the other conditions are those of before.
  refine ⟨hx.root, hx.links, fun hr => ?_, hx.aboves, ?_, fun {id} hid hu => ?_,
    fun {id a} ha => ?_, fun hk => ?_, hx.order, fun {v} hv => ?_⟩
  · obtain ⟨he, hthis, hp⟩ := hx.receivers hr
    exact ⟨he, hthis, hp.mono hlater⟩
  · rw [hcount, ← hx.count]
    exact Array.size_push _
  · rw [hcount] at hid
    rcases Nat.lt_succ_iff_lt_or_eq.mp hid with hid | rfl
    · exact (hx.codes hid (mt (hlater.unbound hid).mpr hu)).mono hx hlater hid
    · -- The new function is the one that was made.
      have hclosure : (x.addFunction c around method).heap.closure x.count = c :=
        getD_push_size rfl
      have haround : (x.addFunction c around method).world.activation x.count = around :=
        getD_push_size hx.count.symm
      have hmethod : ¬method := by
        change ¬(if x.count = x.count then method else _) at hu
        rwa [if_pos rfl] at hu
      obtain ⟨S, f, hf, hstands⟩ := hdeclared hmethod
      refine ⟨⟨S, f, ?_, ?_⟩, ?_⟩
      · rw [hclosure]
        exact hf
      · rw [hclosure, haround]
        exact hstands.mono hx hlater
      · rw [hclosure, haround]
        exact hinit hmethod
  · change (x.world.around.push around).getD id none = some a at ha
    rw [getD_push] at ha
    split at ha
    · exact (hproper ha).mono hlater
    · exact (hx.activations ha).mono hlater
  · exact (hx.methods hk).mono hlater
  · exact (hx.held (hv.of_eq rfl rfl rfl)).mono hlater

/-! ### Environments of methods and classes -/

/-- One more environment, made for a method or for a class. -/
def enclose (x : Stage) (outer : Nat) (b : Bindings Value) (role : Role) : Stage where
  world := { x.world with
    machine := x.world.machine.withEnvironments (x.heap.environments.push ⟨some outer, b⟩) }
  role e := if e = x.size then role else x.role e
  unbound := x.unbound

theorem env_enclose {outer : Nat} {b : Bindings Value} {role : Role} (e : Nat) :
    (x.enclose outer b role).env e = if e = x.size then ⟨some outer, b⟩ else x.env e :=
  Forest.env_push _ _ e

theorem size_enclose {outer : Nat} {b : Bindings Value} {role : Role} :
    (x.enclose outer b role).size = x.size + 1 :=
  Array.size_push _

theorem role_enclose {outer : Nat} {b : Bindings Value} {role : Role} :
    (x.enclose outer b role).role x.size = role :=
  if_pos rfl

theorem enclose_later (outer : Nat) (b : Bindings Value) (role : Role) :
    Later x (x.enclose outer b role) where
  size := by
    rw [size_enclose]
    exact Nat.le_succ _
  enclosing he := by rw [env_enclose, if_neg (Nat.ne_of_lt he)]
  role he := if_neg (Nat.ne_of_lt he)
  count := Nat.le_refl _
  unbound _ := Iff.rfl
  closure _ := rfl
  activation _ := rfl
  classes := ⟨Nat.le_refl _, fun _ => rfl⟩
  instances := Nat.le_refl _
  classId _ := rfl
  current := rfl

theorem enclose_alike (hx : Alike x) {outer : Nat} (ho : outer < x.size) {b : Bindings Value}
    {role : Role} (hb : ∀ {name v}, b.get? name = some v → x.Known v)
    (hreceiver : ∀ {a}, role = .receiver a →
      b.get? "this" = some (.object a.receiver) ∧ x.Proper a)
    (habove : ∀ {p}, role = .above p → b.get? "super" = some (.classRef p)) :
    Alike (x.enclose outer b role) := by
  have hlater := enclose_later (x := x) outer b role
  have hplain := evolves_enclose hx ho hb
  have hstep := evolves_alike hx hplain
  -- Only the role of the new environment is not one that was there.
  refine ⟨hstep.root, hstep.links, fun {e a} hr => ?_, fun {e p} hr => ?_, hx.count,
    fun hid hu => (hx.codes hid hu).mono hx hlater hid,
    fun ha => (hx.activations ha).mono hlater, fun hk => (hx.methods hk).mono hlater, hx.order,
    hplain.held⟩
  · rw [env_enclose, size_enclose]
    change (if e = x.size then role else x.role e) = _ at hr
    by_cases he : e = x.size
    · rw [if_pos he] at hr ⊢
      obtain ⟨hthis, hproper⟩ := hreceiver hr
      exact ⟨Nat.lt_succ_of_le (Nat.le_of_eq he), hthis, hproper.mono hlater⟩
    · rw [if_neg he] at hr ⊢
      obtain ⟨hlt, hthis, hproper⟩ := hx.receivers hr
      exact ⟨Nat.lt_succ_of_lt hlt, hthis, hproper.mono hlater⟩
  · rw [env_enclose, size_enclose]
    change (if e = x.size then role else x.role e) = _ at hr
    by_cases he : e = x.size
    · rw [if_pos he] at hr ⊢
      exact ⟨Nat.lt_succ_of_le (Nat.le_of_eq he), habove hr⟩
    · rw [if_neg he] at hr ⊢
      obtain ⟨hlt, hsuper⟩ := hx.aboves hr
      exact ⟨Nat.lt_succ_of_lt hlt, hsuper⟩

/-! ### Classes -/

/-- One more class. -/
def addClass (x : Stage) (info : ClassInfo) : Stage :=
  x.on { x.world.machine with heap := { x.heap with classes := x.heap.classes.push info } }

theorem addClass_later (info : ClassInfo) : Later x (x.addClass info) where
  size := Nat.le_refl _
  enclosing _ := rfl
  role _ := rfl
  count := Nat.le_refl _
  unbound _ := Iff.rfl
  closure _ := rfl
  activation _ := rfl
  classes := by
    refine ⟨?_, fun hk => getD_push_lt hk⟩
    exact size_le_push _ _
  instances := Nat.le_refl _
  classId _ := rfl
  current := rfl

theorem classInfo_addClass (info : ClassInfo) (k : Nat) : (x.addClass info).heap.classInfo k =
    if k = x.heap.classes.size then info else x.heap.classInfo k :=
  Heap.classInfo_newClass x.heap info k

theorem addClass_alike (hx : Alike x) {info : ClassInfo}
    (hmethods : ∀ {name id}, info.methods.get? name = some id → x.Method info.superclass id)
    (hparent : ∀ {p}, info.superclass = some p → p < x.heap.classes.size) :
    Alike (x.addClass info) := by
  -- Nothing of the new class is known yet but its methods and its superclass.
  have hlater := addClass_later (x := x) info
  refine ⟨hx.root, hx.links, fun hr => ?_, hx.aboves, hx.count,
    fun hid hu => (hx.codes hid hu).mono hx hlater hid,
    fun ha => (hx.activations ha).mono hlater, fun {k name id} hk => ?_, fun {k p} hk => ?_,
    fun {v} hv => ?_⟩
  · obtain ⟨he, hthis, hp⟩ := hx.receivers hr
    exact ⟨he, hthis, hp.mono hlater⟩
  · rw [classInfo_addClass] at hk ⊢
    by_cases hsize : k = x.heap.classes.size
    · rw [if_pos hsize] at hk ⊢
      exact (hmethods hk).mono hlater
    · rw [if_neg hsize] at hk ⊢
      exact (hx.methods hk).mono hlater
  · rw [classInfo_addClass] at hk
    by_cases hsize : k = x.heap.classes.size
    · rw [if_pos hsize] at hk
      exact hsize ▸ hparent hk
    · rw [if_neg hsize] at hk
      exact hx.order hk
  · exact (hx.held (hv.of_eq rfl rfl rfl)).mono hlater

end

end Stage

end Receiving

end Lox
