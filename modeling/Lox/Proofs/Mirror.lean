/-
Environments beside cells.

A machine keeps the variables of a program in environments, which go on growing
after a function has closed over them.  The same program, run by lexical
scoping, keeps each variable in a cell of its own.  A layout tells which cell
belongs to which name of which environment; it only ever grows.

* `Follows` — the environments outward from one are the scopes around a place,
  and the names of a view have the cells that the layout gives them;
* `Callable`, `IsMethod` — functions of the same shape on both sides;
* `Mirrors` — the two states hold the same objects, globals and variables;
* `Later` — what stays true as a program runs;
* `store_mirrors`, `reserve_mirrors`, `enclose_mirrors`, `addFunction_mirrors` —
  the steps that a program takes keep the two states alike.
-/
import Lox.Proofs.Lexical
import Lox.Proofs.Resolution
import Lox.Proofs.Storage

namespace Lox

namespace Lexical

open Scope

/-! ### Snapshots -/

/-- The cell of a name of an environment. -/
abbrev Layout := Nat → String → Option Nat

/-- The two states of a program, and the layout between them. -/
structure Snapshot where
  layout : Layout
  machine : Machine
  world : World

namespace Snapshot

/-- An environment of the machine. -/
def env (x : Snapshot) (e : Nat) : Environment :=
  x.machine.heap.environments.env e

/-- The number of environments. -/
def size (x : Snapshot) : Nat :=
  x.machine.heap.environments.size

/-- The number of functions. -/
def functionCount (x : Snapshot) : Nat :=
  x.machine.heap.functions.size

/-- The snapshot with another current environment. -/
def enter (x : Snapshot) (e : Nat) : Snapshot :=
  { x with machine := { x.machine with current := e } }

end Snapshot

/-- An environment and those around it are the scopes around a place, down to the
globals.  The names of each scope have the cells of their environment, and those
that are ready are bound. -/
inductive Follows (x : Snapshot) : Nat → Scopes → View → Prop
  | globals : Follows x 0 [] {}
  | inner {e p : Nat} {scope : Names} {S : Scopes} {V : View} {entries : List (String × Nat)}
      (ho : Follows x p S V) (he : 0 < e) (hp : (x.env e).enclosing = some p)
      (hn : ∀ name, entries.lookup name = if scope.binds name then x.layout e name else none)
      (hc : ∀ name, scope.binds name → (x.layout e name).isSome)
      (hb : ∀ name, scope.get? name = some true → (x.env e).values.binds name) :
      Follows x e (scope :: S) ⟨true, entries ++ V.names⟩

/-- What stays true from one snapshot to a later one: environments keep what is
around them and what they bind, names keep their cells, and functions stay as
they are. -/
structure Later (x y : Snapshot) : Prop where
  size : x.size ≤ y.size
  enclosing : ∀ {e}, e < x.size → (y.env e).enclosing = (x.env e).enclosing
  binds : ∀ {e name}, (x.env e).values.binds name → (y.env e).values.binds name
  layout : ∀ {e name c}, x.layout e name = some c → y.layout e name = some c
  functions : x.functionCount ≤ y.functionCount
  closure : ∀ {id}, id < x.functionCount →
    y.machine.heap.closure id = x.machine.heap.closure id
  origin : ∀ {id}, id < x.functionCount →
    y.world.machine.heap.closure id = x.world.machine.heap.closure id
  view : ∀ {id}, id < x.functionCount → y.world.view id = x.world.view id

namespace Later

theorem refl (x : Snapshot) : Later x x :=
  ⟨Nat.le_refl _, fun _ => rfl, id, id, Nat.le_refl _, fun _ => rfl, fun _ => rfl, fun _ => rfl⟩

theorem trans {x y z : Snapshot} (h : Later x y) (h' : Later y z) : Later x z where
  size := Nat.le_trans h.size h'.size
  enclosing he := (h'.enclosing (Nat.lt_of_lt_of_le he h.size)).trans (h.enclosing he)
  binds hb := h'.binds (h.binds hb)
  layout hc := h'.layout (h.layout hc)
  functions := Nat.le_trans h.functions h'.functions
  closure hid := (h'.closure (Nat.lt_of_lt_of_le hid h.functions)).trans (h.closure hid)
  origin hid := (h'.origin (Nat.lt_of_lt_of_le hid h.functions)).trans (h.origin hid)
  view hid := (h'.view (Nat.lt_of_lt_of_le hid h.functions)).trans (h.view hid)

end Later

/-- What a computation may add to the layout: names of new environments, or also
names of the current one. -/
inductive Extent where
  | inside
  | here

/-- A later snapshot with the same current environment, and with new names only
where they may be. -/
structure Grows (k : Extent) (x y : Snapshot) : Prop extends Later x y where
  current : y.machine.current = x.machine.current
  frame : ∀ {e}, e < x.size → (k = .inside ∨ e ≠ x.machine.current) →
    ∀ name, y.layout e name = x.layout e name

namespace Grows

variable {k : Extent} {x y z : Snapshot}

theorem refl (k : Extent) (x : Snapshot) : Grows k x x :=
  ⟨.refl x, rfl, fun _ _ _ => rfl⟩

theorem trans (h : Grows k x y) (h' : Grows k y z) : Grows k x z where
  toLater := h.toLater.trans h'.toLater
  current := h'.current.trans h.current
  frame he hk name := by
    have hy := h'.frame (Nat.lt_of_lt_of_le he h.size) (by rwa [h.current]) name
    rw [hy, h.frame he hk name]

/-- What adds no name to the current environment may be done anywhere. -/
theorem here (h : Grows .inside x y) : Grows .here x y :=
  ⟨h.toLater, h.current, fun he _ => h.frame he (.inl rfl)⟩

end Grows

namespace Follows

variable {x y : Snapshot} {e : Nat} {S : Scopes} {V : View}

theorem lt_size (h : Follows x e S V) (hroot : 0 < x.size) : e < x.size := by
  cases h with
  | globals => exact hroot
  | inner _ _ hp _ _ _ =>
    by_contra hge
    rw [Snapshot.env, Forest.env_of_size_le (Nat.not_lt.mp hge)] at hp
    cases hp

theorem mono (h : Follows x e S V) (hxy : Later x y) (hroot : 0 < x.size) : Follows y e S V := by
  induction h with
  | globals => exact .globals
  | @inner e p scope S V entries ho he hp hn hc hb ih =>
    have hlt := (Follows.inner ho he hp hn hc hb).lt_size hroot
    refine .inner ih he ((hxy.enclosing hlt).trans hp) ?_ ?_ fun name hr => hxy.binds (hb name hr)
    · intro name
      rw [hn name]
      by_cases hs : scope.binds name
      · obtain ⟨c, hcell⟩ := Option.isSome_iff_exists.mp (hc name hs)
        rw [if_pos hs, if_pos hs, hcell, hxy.layout hcell]
      · rw [if_neg hs, if_neg hs]
    · intro name hs
      obtain ⟨c, hcell⟩ := Option.isSome_iff_exists.mp (hc name hs)
      rw [hxy.layout hcell]
      rfl

theorem eq_globals (h : Follows x e [] V) : e = 0 ∧ V = {} := by
  cases h
  exact ⟨rfl, rfl⟩

theorem isLocal {scope : Names} (h : Follows x e (scope :: S) V) :
    V.isLocal = true ∧ 0 < e := by
  cases h with
  | inner _ hpos _ _ _ _ => exact ⟨rfl, hpos⟩

/-- A name has its cell from the innermost scope that binds it. -/
theorem cell?_append {scope : Names} {entries names : List (String × Nat)} {name : String}
    (hn : entries.lookup name = if scope.binds name then x.layout e name else none)
    (hc : scope.binds name → (x.layout e name).isSome) :
    View.cell? ⟨true, entries ++ names⟩ name =
      if scope.binds name then x.layout e name else names.lookup name := by
  unfold View.cell?
  rw [List.lookup_append, hn]
  by_cases hs : scope.binds name
  · obtain ⟨c, hcell⟩ := Option.isSome_iff_exists.mp (hc hs)
    rw [if_pos hs, if_pos hs, hcell]
    rfl
  · rw [if_neg hs, if_neg hs]
    rfl

/-- A name that is declared around a place is found by its distance, and has a
cell in the view. -/
theorem reach (h : Follows x e S V) {name : String} {d : Nat} (hd : S.hops? name = some d) :
    ∃ e' c, x.machine.heap.environments.walk d (some e) = .ok (some e') ∧ 0 < e' ∧
      V.cell? name = some c ∧ x.layout e' name = some c ∧
      (S.Ready d name → (x.env e').values.binds name) := by
  -- By induction on the scopes: each one is one hop outward.
  induction h generalizing d with
  | globals => cases hd
  | @inner e p scope S V entries ho he hp hn hc hb ih =>
    rw [Scopes.hops?_cons] at hd
    rw [cell?_append (hn name) (hc name)]
    -- The name is bound here, or it has its cell from further out.
    by_cases hs : scope.binds name
    · rw [if_pos hs] at hd
      cases hd
      obtain ⟨c, hcell⟩ := Option.isSome_iff_exists.mp (hc name hs)
      refine ⟨e, c, rfl, he, ?_, hcell, ?_⟩
      · rw [if_pos hs, hcell]
      · rintro ⟨scope', hscope, hready⟩
        cases hscope
        exact hb name hready
    · rw [if_neg hs] at hd
      obtain ⟨d', hd', rfl⟩ := Option.map_eq_some_iff.mp hd
      obtain ⟨e', c, hwalk, he', hcell, hlayout, hready⟩ := ih hd'
      refine ⟨e', c, ?_, he', ?_, hlayout, fun hr => hready hr⟩
      · rw [Forest.walk]
        rw [show (x.machine.heap.environments.env e).enclosing = some p from hp]
        exact hwalk
      · rw [if_neg hs]
        exact hcell

/-- A name that is not declared around a place is not in the view. -/
theorem cell?_eq_none (h : Follows x e S V) {name : String} (hd : S.hops? name = none) :
    V.cell? name = none := by
  induction h with
  | globals => rfl
  | @inner e p scope S V entries ho he hp hn hc hb ih =>
    rw [Scopes.hops?_cons] at hd
    rw [cell?_append (hn name) (hc name)]
    by_cases hs : scope.binds name
    · rw [if_pos hs] at hd
      cases hd
    · rw [if_neg hs] at hd ⊢
      exact ih (Option.map_eq_none_iff.mp hd)

end Follows

/-! ### Functions and values -/

section Mirrors

variable (R : Token → Token → Prop)

/-- A function that can be called: it closes over environments that follow the
view it keeps, and an initializer has its receiver nearest. -/
def Callable (x : Snapshot) (id : Nat) : Prop :=
  id < x.functionCount ∧ ∃ S,
    Follows x (x.machine.heap.closure id).scope S (x.world.view id) ∧
    FunctionShape R .lexical S (x.world.machine.heap.closure id).declaration
      (x.machine.heap.closure id).declaration ∧
    (x.world.machine.heap.closure id).isInit = (x.machine.heap.closure id).isInit ∧
    ((x.machine.heap.closure id).isInit → S.Sees "this" 0)

/-- A function that can be called once it is bound to a receiver. -/
def IsMethod (x : Snapshot) (id : Nat) : Prop :=
  id < x.functionCount ∧ ∃ S,
    Follows x (x.machine.heap.closure id).scope S (x.world.view id) ∧
    FunctionShape R .lexical S.ofMethods (x.world.machine.heap.closure id).declaration
      (x.machine.heap.closure id).declaration ∧
    (x.world.machine.heap.closure id).isInit = (x.machine.heap.closure id).isInit

/-- A value that a program may hold: if it is a function, it can be called. -/
def Proper (x : Snapshot) (v : Value) : Prop :=
  ∀ id, v = .function id → Callable R x id

/-- The values that a program can come by. -/
inductive Contains (x : Snapshot) : Value → Prop
  | global {name : String} {v : Value} (h : x.world.globals.get? name = some v) : Contains x v
  | cell {c : Nat} {v : Value} (h : x.world.cells[c]? = some v) : Contains x v
  | field {id : Nat} {name : String} {v : Value}
      (h : (x.machine.heap.instanceInfo id).fields.get? name = some v) : Contains x v
  | element {id i : Nat} {v : Value} (h : (x.machine.heap.elements id)[i]? = some v) :
      Contains x v

/-- Both states hold the same objects, and `before` was printed before the
machine began. -/
structure Shares (before : String) (x : Snapshot) : Prop where
  classes : x.world.machine.heap.classes = x.machine.heap.classes
  instances : x.world.machine.heap.instances = x.machine.heap.instances
  arrays : x.world.machine.heap.arrays = x.machine.heap.arrays
  readings : x.world.machine.readings = x.machine.readings
  output : x.world.machine.output = before ++ x.machine.output

/-- The variables are the same: globals are bound alike, and what a local
environment binds is in the cell of the name. -/
structure Stores (x : Snapshot) : Prop where
  root : 0 < x.size
  globals : (x.env 0).values = x.world.globals
  cell : ∀ {e name c}, x.layout e name = some c →
    0 < e ∧ e < x.size ∧ c < x.world.cells.size
  value : ∀ {e name c v}, x.layout e name = some c → (x.env e).values.get? name = some v →
    x.world.cell c = v
  covered : ∀ {e name}, 0 < e → (x.env e).values.binds name → (x.layout e name).isSome
  injective : ∀ {e name e' name' c}, x.layout e name = some c → x.layout e' name' = some c →
    e = e' ∧ name = name'
  super : ∀ {e v}, 0 < e → (x.env e).values.get? "super" = some v → ∃ id, v = .classRef id

/-- The functions are the same, and the methods of classes can be bound. -/
structure Codes (x : Snapshot) : Prop where
  functions : x.world.machine.heap.functions.size = x.functionCount
  views : x.world.views.size = x.functionCount
  closures : ∀ {id}, id < x.functionCount → Callable R x id ∨ IsMethod R x id
  methods : ∀ {k name id}, (x.machine.heap.classInfo k).methods.get? name = some id →
    IsMethod R x id

/-- The two states of a program are alike. -/
structure Mirrors (before : String) (x : Snapshot) : Prop where
  shares : Shares before x
  stores : Stores x
  codes : Codes R x
  values : ∀ {v}, Contains x v → Proper R x v

end Mirrors

section Steps

variable {R : Token → Token → Prop} {before : String} {x y : Snapshot}

theorem Callable.mono {id : Nat} (h : Callable R x id) (hxy : Later x y) (hroot : 0 < x.size) :
    Callable R y id := by
  obtain ⟨hid, S, hf, hs, hi, hthis⟩ := h
  refine ⟨Nat.lt_of_lt_of_le hid hxy.functions, S, ?_⟩
  rw [hxy.closure hid, hxy.origin hid, hxy.view hid]
  exact ⟨hf.mono hxy hroot, hs, hi, hthis⟩

theorem IsMethod.mono {id : Nat} (h : IsMethod R x id) (hxy : Later x y) (hroot : 0 < x.size) :
    IsMethod R y id := by
  obtain ⟨hid, S, hf, hs, hi⟩ := h
  refine ⟨Nat.lt_of_lt_of_le hid hxy.functions, S, ?_⟩
  rw [hxy.closure hid, hxy.origin hid, hxy.view hid]
  exact ⟨hf.mono hxy hroot, hs, hi⟩

theorem Proper.mono {v : Value} (h : Proper R x v) (hxy : Later x y) (hroot : 0 < x.size) :
    Proper R y v :=
  fun id hv => (h id hv).mono hxy hroot

/-- Functions and classes that stay are as good as before. -/
theorem Codes.mono (h : Codes R x) (hxy : Later x y) (hroot : 0 < x.size)
    (hm : y.machine.heap.functions = x.machine.heap.functions)
    (hw : y.world.machine.heap.functions = x.world.machine.heap.functions)
    (hv : y.world.views = x.world.views)
    (hc : y.machine.heap.classes = x.machine.heap.classes) : Codes R y := by
  have hcount : y.functionCount = x.functionCount := congrArg Array.size hm
  refine ⟨?_, ?_, fun hid => ?_, fun {k name id} hk => ?_⟩
  · rw [hw, hcount]
    exact h.functions
  · rw [hv, hcount]
    exact h.views
  · rw [hcount] at hid
    exact (h.closures hid).imp (·.mono hxy hroot) (·.mono hxy hroot)
  · unfold Heap.classInfo at hk
    rw [hc] at hk
    exact (h.methods hk).mono hxy hroot

/-- Only globals, cells and objects matter to what a program can come by. -/
theorem Contains.of_eq {v : Value} (h : Contains y v) (hg : y.world.globals = x.world.globals)
    (hc : y.world.cells = x.world.cells)
    (hi : y.machine.heap.instances = x.machine.heap.instances)
    (ha : y.machine.heap.arrays = x.machine.heap.arrays) : Contains x v := by
  cases h with
  | global h => exact .global (hg ▸ h)
  | cell h => exact .cell (hc ▸ h)
  | field h =>
    unfold Heap.instanceInfo at h
    rw [hi] at h
    exact .field h
  | element h =>
    unfold Heap.elements at h
    rw [ha] at h
    exact .element h

/-- States stay alike if all values that a program comes by are proper already. -/
theorem Mirrors.later {after : String} (h : Mirrors R before x) (hxy : Later x y)
    (hs : Shares after y) (hstores : Stores y) (hcodes : Codes R y)
    (hv : ∀ {v}, Contains y v → Proper R x v ∨ Contains x v) : Mirrors R after y :=
  ⟨hs, hstores, hcodes, fun hc => ((hv hc).elim id h.values).mono hxy h.stores.root⟩

/-! ### Objects -/

/-- The variables and the functions of two snapshots are the same. -/
structure Beyond (x y : Snapshot) : Prop where
  layout : y.layout = x.layout
  environments : y.machine.heap.environments = x.machine.heap.environments
  functions : y.machine.heap.functions = x.machine.heap.functions
  origins : y.world.machine.heap.functions = x.world.machine.heap.functions
  views : y.world.views = x.world.views
  cells : y.world.cells = x.world.cells
  globals : y.world.globals = x.world.globals

theorem Beyond.later (h : Beyond x y) : Later x y := by
  obtain ⟨hl, he, hf, ho, hv, -, -⟩ := h
  refine ⟨?_, fun _ => ?_, fun hb => ?_, fun hc => ?_, ?_, fun _ => ?_, fun _ => ?_, fun _ => ?_⟩
  · exact Nat.le_of_eq (congrArg Array.size he).symm
  · rw [Snapshot.env, he]
    rfl
  · rw [Snapshot.env, he]
    exact hb
  · rw [hl]
    exact hc
  · exact Nat.le_of_eq (congrArg Array.size hf).symm
  · rw [Heap.closure, hf]
    rfl
  · rw [Heap.closure, ho]
    rfl
  · rw [World.view, hv]
    rfl

theorem Beyond.stores (h : Beyond x y) (hx : Stores x) : Stores y := by
  obtain ⟨hl, he, -, -, -, hc, hg⟩ := h
  -- Layout, environments, cells and globals are the same, and the rest is not asked for.
  have henv : ∀ e, y.env e = x.env e := fun e => congrArg (Forest.env · e) he
  have hsize : y.size = x.size := congrArg Array.size he
  refine ⟨?_, ?_, ?_, ?_, ?_, ?_, ?_⟩
  · rw [hsize]
    exact hx.root
  · rw [henv, hg]
    exact hx.globals
  · rw [hl, hsize, hc]
    exact hx.cell
  · intro e name c v hlayout hv
    rw [hl] at hlayout
    rw [henv] at hv
    unfold World.cell
    rw [hc]
    exact hx.value hlayout hv
  · intro e name hpos hb
    rw [hl]
    exact hx.covered hpos (henv e ▸ hb)
  · rw [hl]
    exact hx.injective
  · intro e v hpos hv
    exact hx.super hpos (henv e ▸ hv)

theorem Beyond.grows (h : Beyond x y) (hc : y.machine.current = x.machine.current) :
    Grows .inside x y :=
  ⟨h.later, hc, fun _ _ _ => congrFun (congrFun h.layout _) _⟩

/-- A change of the objects alone keeps the states alike. -/
theorem Beyond.mirrors {after : String} (h : Beyond x y) (hx : Mirrors R before x)
    (hs : Shares after y) (hc : y.machine.heap.classes = x.machine.heap.classes)
    (hf : ∀ {id name v}, (y.machine.heap.instanceInfo id).fields.get? name = some v →
      Proper R x v)
    (he : ∀ {id i : Nat} {v}, (y.machine.heap.elements id)[i]? = some v → Proper R x v) :
    Mirrors R after y := by
  refine hx.later h.later hs (h.stores hx.stores)
    (hx.codes.mono h.later hx.stores.root h.functions h.origins h.views hc) fun hv => ?_
  cases hv with
  | global hv => exact .inr (.global (h.globals ▸ hv))
  | cell hv => exact .inr (.cell (h.cells ▸ hv))
  | field hv => exact .inl (hf hv)
  | element hv => exact .inl (he hv)

/-- The current environment does not matter to the likeness of states. -/
theorem enter_mirrors (h : Mirrors R before x) (e : Nat) : Mirrors R before (x.enter e) :=
  Beyond.mirrors (x := x) (y := x.enter e) ⟨rfl, rfl, rfl, rfl, rfl, rfl, rfl⟩ h
    ⟨h.shares.classes, h.shares.instances, h.shares.arrays, h.shares.readings, h.shares.output⟩
    rfl (fun hv => h.values (.field hv)) (fun hv => h.values (.element hv))

theorem enter_later (x : Snapshot) (e : Nat) : Later x (x.enter e) :=
  Beyond.later ⟨rfl, rfl, rfl, rfl, rfl, rfl, rfl⟩

/-! ### Variables -/

/-- A name of an environment and its cell get a value. -/
def Snapshot.store (x : Snapshot) (e : Nat) (name : String) (c : Nat) (v : Value) : Snapshot where
  layout := x.layout
  machine := { x.machine with heap := { x.machine.heap with
    environments := x.machine.heap.environments.define e name v } }
  world := { x.world with cells := x.world.cells.setIfInBounds c v }

/-- A global gets a value. -/
def Snapshot.storeGlobal (x : Snapshot) (name : String) (v : Value) : Snapshot where
  layout := x.layout
  machine := { x.machine with heap := { x.machine.heap with
    environments := x.machine.heap.environments.define 0 name v } }
  world := { x.world with globals := x.world.globals.set name v }

/-- A name of an environment gets a new cell, before it is bound. -/
def Snapshot.reserve (x : Snapshot) (e : Nat) (name : String) (v : Value) : Snapshot where
  layout e' name' := if e = e' ∧ name = name' then some x.world.cells.size else x.layout e' name'
  machine := x.machine
  world := { x.world with cells := x.world.cells.push v }

/-- An environment inside another one is made. -/
def Snapshot.enclose (x : Snapshot) (outer : Nat) : Snapshot where
  layout := x.layout
  machine := { x.machine with heap := { x.machine.heap with
    environments := x.machine.heap.environments.push { enclosing := some outer } } }
  world := x.world

theorem later_define {e : Nat} (he : e < x.size) (name : String) (v : Value)
    (hl : y.layout = x.layout)
    (hm : y.machine.heap.environments = x.machine.heap.environments.define e name v)
    (hf : y.machine.heap.functions = x.machine.heap.functions)
    (ho : y.world.machine.heap.functions = x.world.machine.heap.functions)
    (hv : y.world.views = x.world.views) : Later x y := by
  have hsize : y.size = x.size := by
    rw [Snapshot.size, Snapshot.size, hm, Forest.size_define]
  refine ⟨Nat.le_of_eq hsize.symm, fun {e'} _ => ?_, fun {e' other} hb => ?_, fun hc => ?_, ?_,
    fun _ => ?_, fun _ => ?_, fun _ => ?_⟩
  · rw [Snapshot.env, hm]
    exact Forest.enclosing_define _ e name v e'
  · -- What was bound stays bound, whether or not it is this name.
    rw [Bindings.binds, Snapshot.env, hm, Forest.get?_define _ he]
    by_cases h : e = e' ∧ name = other
    · rw [if_pos h]
      rfl
    · rw [if_neg h]
      exact hb
  · rw [hl]
    exact hc
  · exact Nat.le_of_eq (congrArg Array.size hf).symm
  · rw [Heap.closure, hf]
    rfl
  · rw [Heap.closure, ho]
    rfl
  · rw [World.view, hv]
    rfl

theorem store_later {e : Nat} (he : e < x.size) (name : String) (c : Nat) (v : Value) :
    Later x (x.store e name c v) :=
  later_define he name v rfl rfl rfl rfl rfl

theorem storeGlobal_later (hroot : 0 < x.size) (name : String) (v : Value) :
    Later x (x.storeGlobal name v) :=
  later_define hroot name v rfl rfl rfl rfl rfl

theorem layout_reserve (x : Snapshot) (e : Nat) (name : String) (v : Value) (e' : Nat)
    (name' : String) : (x.reserve e name v).layout e' name' =
      if e = e' ∧ name = name' then some x.world.cells.size else x.layout e' name' :=
  rfl

theorem reserve_later {e : Nat} {name : String} (hn : x.layout e name = none) (v : Value) :
    Later x (x.reserve e name v) := by
  refine ⟨Nat.le_refl _, fun _ => rfl, id, fun {e' other c} hc => ?_, Nat.le_refl _, fun _ => rfl,
    fun _ => rfl, fun _ => rfl⟩
  have hne : ¬(e = e' ∧ name = other) := by
    rintro ⟨rfl, rfl⟩
    rw [hn] at hc
    cases hc
  rw [layout_reserve, if_neg hne]
  exact hc

theorem env_enclose (x : Snapshot) (outer e : Nat) : (x.enclose outer).env e =
    if e = x.size then { enclosing := some outer } else x.env e :=
  Forest.env_push _ _ e

theorem size_enclose (x : Snapshot) (outer : Nat) : (x.enclose outer).size = x.size + 1 :=
  Array.size_push _

theorem enclose_later (x : Snapshot) (outer : Nat) : Later x (x.enclose outer) := by
  refine ⟨?_, fun {e} he => ?_, fun {e name} hb => ?_, id, Nat.le_refl _, fun _ => rfl,
    fun _ => rfl, fun _ => rfl⟩
  · rw [size_enclose]
    omega
  · rw [env_enclose, if_neg (Nat.ne_of_lt he)]
  · rw [env_enclose]
    by_cases he : e = x.size
    · rw [Snapshot.env, Forest.env_of_size_le (Nat.le_of_eq he.symm)] at hb
      cases hb
    · rw [if_neg he]
      exact hb

/-- A variable may hold any value, but `super` only a class. -/
def Fitting (name : String) (v : Value) : Prop :=
  name = "super" → ∃ id, v = .classRef id

theorem store_stores {e : Nat} {name : String} {c : Nat} {v : Value} (h : Stores x)
    (hc : x.layout e name = some c) (hv : Fitting name v) : Stores (x.store e name c v) := by
  obtain ⟨hpos, he, hcell⟩ := h.cell hc
  -- The environment is changed at this name alone.
  have hget : ∀ e' name', ((x.store e name c v).env e').values.get? name' =
      if e = e' ∧ name = name' then some v else (x.env e').values.get? name' :=
    fun e' name' => Forest.get?_define _ he name name' v e'
  have hsize : (x.store e name c v).size = x.size := Forest.size_define _ e name v
  refine ⟨?_, ?_, ?_, ?_, ?_, h.injective, ?_⟩
  · rw [hsize]
    exact h.root
  · change ((x.machine.heap.environments.define e name v).env 0).values = _
    rw [Forest.env_define _ he, if_neg (Nat.ne_of_gt hpos)]
    exact h.globals
  · intro e' name' c' hc'
    rw [hsize]
    change _ ∧ _ ∧ c' < (x.world.cells.setIfInBounds c v).size
    rw [Array.size_setIfInBounds]
    exact h.cell hc'
  · intro e' name' c' v' hc' hv'
    rw [hget] at hv'
    change (x.world.cells.setIfInBounds c v).getD c' .nil = v'
    rw [getD_setIfInBounds hcell]
    by_cases hsame : e = e' ∧ name = name'
    · rw [if_pos hsame] at hv'
      obtain ⟨rfl, rfl⟩ := hsame
      obtain rfl : c = c' := Option.some.inj (hc.symm.trans hc')
      rw [if_pos rfl]
      exact Option.some.inj hv'
    · rw [if_neg hsame] at hv'
      -- Two names never share a cell, so another name keeps its value.
      have hne : c ≠ c' := by
        rintro rfl
        exact hsame (h.injective hc hc')
      rw [if_neg hne]
      exact h.value hc' hv'
  · intro e' name' hpos' hb
    rw [Bindings.binds, hget] at hb
    change (x.layout e' name').isSome
    by_cases hsame : e = e' ∧ name = name'
    · obtain ⟨rfl, rfl⟩ := hsame
      rw [hc]
      rfl
    · rw [if_neg hsame] at hb
      exact h.covered hpos' hb
  · intro e' v' hpos' hv'
    rw [hget] at hv'
    by_cases hsame : e = e' ∧ name = "super"
    · rw [if_pos hsame] at hv'
      cases hv'
      exact hv hsame.2
    · rw [if_neg hsame] at hv'
      exact h.super hpos' hv'

/-- A name and its cell get the same value. -/
theorem store_mirrors {e : Nat} {name : String} {c : Nat} {v : Value} (h : Mirrors R before x)
    (hc : x.layout e name = some c) (hn : Fitting name v) (hv : Proper R x v) :
    Mirrors R before (x.store e name c v) := by
  have hlater := store_later (h.stores.cell hc).2.1 name c v
  refine h.later hlater ⟨h.shares.classes, h.shares.instances, h.shares.arrays, h.shares.readings,
    h.shares.output⟩ (store_stores h.stores hc hn)
    (h.codes.mono hlater h.stores.root rfl rfl rfl rfl) fun {v'} hv' => ?_
  cases hv' with
  | global hv' => exact .inr (.global hv')
  | @cell c' _ hv' =>
    change (x.world.cells.setIfInBounds c v)[c']? = some v' at hv'
    rw [Array.getElem?_setIfInBounds] at hv'
    -- What a cell holds is the new value or an old one.
    by_cases hsame : c = c'
    · rw [if_pos hsame, if_pos (hsame ▸ (h.stores.cell hc).2.2)] at hv'
      cases hv'
      exact .inl hv
    · rw [if_neg hsame] at hv'
      exact .inr (.cell hv')
  | field hv' => exact .inr (.field hv')
  | element hv' => exact .inr (.element hv')

theorem storeGlobal_stores (h : Stores x) (name : String) (v : Value) :
    Stores (x.storeGlobal name v) := by
  -- Only the globals are changed, and they have no cells.
  have henv : ∀ {e}, 0 < e → (x.storeGlobal name v).env e = x.env e := by
    intro e he
    change (x.machine.heap.environments.define 0 name v).env e = _
    rw [Forest.env_define _ h.root, if_neg (Nat.ne_of_lt he)]
    rfl
  have hsize : (x.storeGlobal name v).size = x.size := Forest.size_define _ 0 name v
  refine ⟨?_, ?_, ?_, ?_, ?_, h.injective, ?_⟩
  · rw [hsize]
    exact h.root
  · change ((x.machine.heap.environments.define 0 name v).env 0).values = _
    rw [Forest.env_define _ h.root, if_pos rfl]
    exact congrArg (Bindings.set · name v) h.globals
  · intro e name' c hc
    rw [hsize]
    exact h.cell hc
  · intro e name' c v' hc hv'
    rw [henv (h.cell hc).1] at hv'
    exact h.value hc hv'
  · intro e name' hpos hb
    rw [henv hpos] at hb
    exact h.covered hpos hb
  · intro e v' hpos hv'
    rw [henv hpos] at hv'
    exact h.super hpos hv'

/-- A global gets the same value on both sides. -/
theorem storeGlobal_mirrors {v : Value} (h : Mirrors R before x) (name : String)
    (hv : Proper R x v) : Mirrors R before (x.storeGlobal name v) := by
  have hroot := h.stores.root
  have hlater := storeGlobal_later hroot name v
  refine h.later hlater ⟨h.shares.classes, h.shares.instances, h.shares.arrays, h.shares.readings,
    h.shares.output⟩ (storeGlobal_stores h.stores name v)
    (h.codes.mono hlater hroot rfl rfl rfl rfl) fun {v'} hv' => ?_
  cases hv' with
  | @global name' _ hv' =>
    change (x.world.globals.set name v).get? name' = some v' at hv'
    rw [Bindings.get?_set] at hv'
    by_cases hsame : name = name'
    · rw [if_pos hsame] at hv'
      cases hv'
      exact .inl hv
    · rw [if_neg hsame] at hv'
      exact .inr (.global hv')
  | cell hv' => exact .inr (.cell hv')
  | field hv' => exact .inr (.field hv')
  | element hv' => exact .inr (.element hv')

theorem reserve_stores {e : Nat} {name : String} {v : Value} (h : Stores x) (hpos : 0 < e)
    (he : e < x.size) (hn : x.layout e name = none) : Stores (x.reserve e name v) := by
  -- The old cells are as they were.
  have hold : ∀ {c}, c < x.world.cells.size →
      (x.reserve e name v).world.cell c = x.world.cell c := by
    intro c hc
    exact getD_push_lt hc
  refine ⟨h.root, h.globals, ?_, ?_, ?_, ?_, fun hpos' hv' => h.super hpos' hv'⟩
  · intro e' name' c hc
    rw [layout_reserve] at hc
    change _ ∧ e' < x.size ∧ c < (x.world.cells.push v).size
    rw [Array.size_push]
    by_cases hsame : e = e' ∧ name = name'
    · rw [if_pos hsame] at hc
      cases hc
      exact ⟨hsame.1 ▸ hpos, hsame.1 ▸ he, Nat.lt_succ_self _⟩
    · rw [if_neg hsame] at hc
      obtain ⟨hpos', he', hc'⟩ := h.cell hc
      exact ⟨hpos', he', Nat.lt_succ_of_lt hc'⟩
  · intro e' name' c v' hc hv'
    rw [layout_reserve] at hc
    by_cases hsame : e = e' ∧ name = name'
    · -- The name is not bound yet, or it would have a cell.
      obtain ⟨rfl, rfl⟩ := hsame
      have hb : ((x.env e).values.get? name).isSome := by
        rw [show (x.env e).values.get? name = some v' from hv']
        rfl
      have hsome := h.covered hpos hb
      rw [hn] at hsome
      cases hsome
    · rw [if_neg hsame] at hc
      rw [hold (h.cell hc).2.2]
      exact h.value hc hv'
  · intro e' name' hpos' hb
    rw [layout_reserve]
    by_cases hsame : e = e' ∧ name = name'
    · rw [if_pos hsame]
      rfl
    · rw [if_neg hsame]
      exact h.covered hpos' hb
  · intro e₁ n₁ e₂ n₂ c h₁ h₂
    rw [layout_reserve] at h₁ h₂
    by_cases hs₁ : e = e₁ ∧ name = n₁ <;> by_cases hs₂ : e = e₂ ∧ name = n₂
    · exact ⟨hs₁.1.symm.trans hs₂.1, hs₁.2.symm.trans hs₂.2⟩
    · rw [if_pos hs₁] at h₁
      rw [if_neg hs₂] at h₂
      cases h₁
      exact absurd (h.cell h₂).2.2 (Nat.lt_irrefl _)
    · rw [if_neg hs₁] at h₁
      rw [if_pos hs₂] at h₂
      cases h₂
      exact absurd (h.cell h₁).2.2 (Nat.lt_irrefl _)
    · rw [if_neg hs₁] at h₁
      rw [if_neg hs₂] at h₂
      exact h.injective h₁ h₂

/-- A name that has no cell yet gets one. -/
theorem reserve_mirrors {e : Nat} {name : String} {v : Value} (h : Mirrors R before x)
    (hpos : 0 < e) (he : e < x.size) (hn : x.layout e name = none) (hv : Proper R x v) :
    Mirrors R before (x.reserve e name v) := by
  have hlater := reserve_later hn v
  refine h.later hlater ⟨h.shares.classes, h.shares.instances, h.shares.arrays, h.shares.readings,
    h.shares.output⟩ (reserve_stores h.stores hpos he hn)
    (h.codes.mono hlater h.stores.root rfl rfl rfl rfl) fun {v'} hv' => ?_
  cases hv' with
  | global hv' => exact .inr (.global hv')
  | @cell c _ hv' =>
    change (x.world.cells.push v)[c]? = some v' at hv'
    rw [Array.getElem?_push] at hv'
    by_cases hsame : c = x.world.cells.size
    · rw [if_pos hsame] at hv'
      cases hv'
      exact .inl hv
    · rw [if_neg hsame] at hv'
      exact .inr (.cell hv')
  | field hv' => exact .inr (.field hv')
  | element hv' => exact .inr (.element hv')

theorem enclose_stores (h : Stores x) (outer : Nat) : Stores (x.enclose outer) := by
  have henv : ∀ {e}, e < x.size → (x.enclose outer).env e = x.env e := by
    intro e he
    rw [env_enclose, if_neg (Nat.ne_of_lt he)]
  -- A binding is in an environment that was there before.
  have hold : ∀ {e name v}, ((x.enclose outer).env e).values.get? name = some v →
      (x.env e).values.get? name = some v := by
    intro e name v hv
    rw [env_enclose] at hv
    by_cases he : e = x.size
    · rw [if_pos he] at hv
      cases hv
    · rwa [if_neg he] at hv
  refine ⟨?_, ?_, ?_, ?_, ?_, h.injective, fun hpos hv => h.super hpos (hold hv)⟩
  · rw [size_enclose]
    exact Nat.succ_pos _
  · rw [henv h.root]
    exact h.globals
  · intro e name c hc
    rw [size_enclose]
    obtain ⟨hpos, he, hcell⟩ := h.cell hc
    exact ⟨hpos, Nat.lt_succ_of_lt he, hcell⟩
  · exact fun hc hv => h.value hc (hold hv)
  · intro e name hpos hb
    obtain ⟨v, hv⟩ := Option.isSome_iff_exists.mp hb
    refine h.covered hpos ?_
    rw [Bindings.binds, hold hv]
    rfl

/-- An empty environment changes nothing. -/
theorem enclose_mirrors (h : Mirrors R before x) (outer : Nat) :
    Mirrors R before (x.enclose outer) := by
  have hlater := enclose_later x outer
  exact h.later hlater ⟨h.shares.classes, h.shares.instances, h.shares.arrays, h.shares.readings,
    h.shares.output⟩ (enclose_stores h.stores outer)
    (h.codes.mono hlater h.stores.root rfl rfl rfl rfl) fun hv => .inr (hv.of_eq rfl rfl rfl rfl)

/-! ### Functions and classes -/

/-- A function is made on both sides. -/
def Snapshot.addFunction (x : Snapshot) (c c' : Closure) (V : View) : Snapshot where
  layout := x.layout
  machine := { x.machine with heap := { x.machine.heap with
    functions := x.machine.heap.functions.push c } }
  world := { x.world with
    machine := { x.world.machine with heap := { x.world.machine.heap with
      functions := x.world.machine.heap.functions.push c' } }
    views := x.world.views.push V }

/-- A class is made on both sides. -/
def Snapshot.addClass (x : Snapshot) (info : ClassInfo) : Snapshot where
  layout := x.layout
  machine := { x.machine with heap := { x.machine.heap with
    classes := x.machine.heap.classes.push info } }
  world := { x.world with
    machine := { x.world.machine with heap := { x.world.machine.heap with
      classes := x.world.machine.heap.classes.push info } } }

theorem addFunction_later (h : Codes R x) (c c' : Closure) (V : View) :
    Later x (x.addFunction c c' V) := by
  refine ⟨Nat.le_refl _, fun _ => rfl, id, id, ?_, fun hid => ?_, fun hid => ?_, fun hid => ?_⟩
  · exact size_le_push _ c
  · exact getD_push_lt hid
  · exact getD_push_lt (h.functions ▸ hid)
  · exact getD_push_lt (h.views ▸ hid)

/-- A function is made that can be called, or that can be bound. -/
theorem addFunction_mirrors (h : Mirrors R before x) {c c' : Closure} {V : View}
    (hnew : Callable R (x.addFunction c c' V) x.functionCount ∨
      IsMethod R (x.addFunction c c' V) x.functionCount) :
    Mirrors R before (x.addFunction c c' V) := by
  have hroot := h.stores.root
  have hlater := addFunction_later h.codes c c' V
  have hcount : (x.addFunction c c' V).functionCount = x.functionCount + 1 := Array.size_push _
  refine h.later hlater ⟨h.shares.classes, h.shares.instances, h.shares.arrays, h.shares.readings,
    h.shares.output⟩ ?_ ⟨?_, ?_, fun {id} hid => ?_, fun hk => ?_⟩
    fun hv => .inr (hv.of_eq rfl rfl rfl rfl)
  · obtain ⟨hr, hg, hc, hv, hb, hi, hs⟩ := h.stores
    exact ⟨hr, hg, hc, hv, hb, hi, hs⟩
  · rw [hcount]
    exact (Array.size_push _).trans (congrArg (· + 1) h.codes.functions)
  · rw [hcount]
    exact (Array.size_push _).trans (congrArg (· + 1) h.codes.views)
  · rw [hcount] at hid
    -- A number is that of an old function or of the new one.
    rcases Nat.lt_succ_iff_lt_or_eq.mp hid with hid | rfl
    · exact (h.codes.closures hid).imp (·.mono hlater hroot) (·.mono hlater hroot)
    · exact hnew
  · exact (h.codes.methods hk).mono hlater hroot

theorem addClass_later (x : Snapshot) (info : ClassInfo) : Later x (x.addClass info) :=
  ⟨Nat.le_refl _, fun _ => rfl, id, id, Nat.le_refl _, fun _ => rfl, fun _ => rfl, fun _ => rfl⟩

/-- A class is made from methods. -/
theorem addClass_mirrors (h : Mirrors R before x) {info : ClassInfo}
    (hm : ∀ {name id}, info.methods.get? name = some id → IsMethod R x id) :
    Mirrors R before (x.addClass info) := by
  have hroot := h.stores.root
  have hlater := addClass_later x info
  refine h.later hlater
    ⟨?_, h.shares.instances, h.shares.arrays, h.shares.readings, h.shares.output⟩ ?_
    ⟨h.codes.functions, h.codes.views, fun hid => ?_, fun hk => ?_⟩
    fun hv => .inr (hv.of_eq rfl rfl rfl rfl)
  · exact congrArg (Array.push · info) h.shares.classes
  · obtain ⟨hr, hg, hc, hv, hb, hi, hs⟩ := h.stores
    exact ⟨hr, hg, hc, hv, hb, hi, hs⟩
  · exact (h.codes.closures hid).imp (·.mono hlater hroot) (·.mono hlater hroot)
  · exact ((Heap.get?_of_newClass hk).elim hm h.codes.methods).mono hlater hroot

end Steps

end Lexical

end Lox
