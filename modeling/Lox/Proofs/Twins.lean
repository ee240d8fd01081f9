/-
Two machines that run a program under two spellings.

A program and the same program with a local name changed are run from two machines
that hold the same objects.  Their environments are the same too, but for those
that were made for the renamed scope: there the name is changed.  Functions were
declared by trees of which one is the other with the name changed.

* `Twins` — the two machines, and which environments were made for the renamed
  scope;
* `Twins.Stands` — how far out from an environment the renamed scope lies;
* `Twins.Bound` — a value that a program may hold: no method without a receiver;
* `Twins.Alike`, `Twins.Later` — what holds of the two machines, and what stays;
* `define_alike`, `enclose_alike`, `addFunction_alike`, `share_alike` — the steps of
  a program.
-/
import Lox.Proofs.Holding
import Lox.Proofs.Pairing
import Lox.Proofs.Renaming

namespace Lox

/-! ### The two machines -/

/-- Two machines with the same objects. -/
structure Twins where
  machine : Machine
  /-- The environments of the other machine. -/
  environments : Forest
  /-- The functions of the other machine. -/
  functions : Array Closure
  /-- The environments that were made for the renamed scope. -/
  marked : Nat → Prop
  /-- The functions that are methods without a receiver. -/
  unbound : Nat → Prop

namespace Twins

/-- The machine that runs the program with the name changed. -/
def other (x : Twins) : Machine :=
  { x.machine with heap :=
      { x.machine.heap with environments := x.environments, functions := x.functions } }

@[simp] theorem other_environments (x : Twins) : x.other.heap.environments = x.environments := rfl

@[simp] theorem other_instanceInfo (x : Twins) (id : Nat) :
    x.other.heap.instanceInfo id = x.machine.heap.instanceInfo id := rfl

/-- An environment of the first machine. -/
def env (x : Twins) (e : Nat) : Environment :=
  x.machine.heap.environments.env e

/-- The number of environments. -/
def size (x : Twins) : Nat :=
  x.machine.heap.environments.size

/-- The number of functions. -/
def count (x : Twins) : Nat :=
  x.machine.heap.functions.size

/-- How far out from an environment the renamed scope lies. -/
def Stands (x : Twins) (e : Nat) (d : Depth) : Prop :=
  e < x.size ∧ ∀ j e', x.machine.heap.environments.walk j (some e) = .ok (some e') →
    (x.marked e' ↔ d = some j)

/-- A value that a program may hold: if it is a function, it can be called. -/
def Bound (x : Twins) (v : Value) : Prop :=
  ∀ id, v = .function id → id < x.count ∧ ¬x.unbound id

/-- A function of the two machines, declared by a tree and by that tree with the
name changed.  A method lies one scope further inside than the place it closes
over, since it is bound to a receiver before it is called. -/
structure Coded (ρ : Renaming) (x : Twins) (id : Nat) : Prop where
  scope : (x.other.heap.closure id).scope = (x.machine.heap.closure id).scope
  isInit : (x.other.heap.closure id).isInit = (x.machine.heap.closure id).isInit
  declared : ∃ d, x.Stands (x.machine.heap.closure id).scope d ∧
    (¬x.unbound id → FunctionRenamed ρ d (x.machine.heap.closure id).declaration
      (x.other.heap.closure id).declaration) ∧
    (x.unbound id → FunctionRenamed ρ d.inner (x.machine.heap.closure id).declaration
      (x.other.heap.closure id).declaration)

/-- The environments of the two machines: the same, but for the name in those that
are marked. -/
structure Spaces (ρ : Renaming) (x : Twins) : Prop where
  root : 0 < x.size
  size : x.environments.size = x.size
  enclosing : ∀ e, (x.environments.env e).enclosing = (x.env e).enclosing
  links : ∀ {e p}, (x.env e).enclosing = some p → p < e
  plain : ∀ {e}, ¬x.marked e → (x.environments.env e).values = (x.env e).values
  renamed : ∀ {e}, x.marked e → (x.environments.env e).values = (x.env e).values.rename ρ
  fresh : ∀ {e}, x.marked e → (x.env e).values.get? ρ.new = none
  marked : ∀ {e}, x.marked e → 0 < e ∧ e < x.size

/-- The two machines run a program and the same program with the name changed. -/
structure Alike (ρ : Renaming) (x : Twins) : Prop where
  spaces : Spaces ρ x
  count : x.functions.size = x.count
  codes : ∀ {id}, id < x.count → Coded ρ x id
  methods : ∀ {k name id}, (x.machine.heap.classInfo k).methods.get? name = some id →
    id < x.count ∧ x.unbound id
  held : ∀ {v}, x.machine.Holds v → x.Bound v

/-- What stays true as the two machines run. -/
structure Later (x y : Twins) : Prop where
  size : x.size ≤ y.size
  enclosing : ∀ {e}, e < x.size → (y.env e).enclosing = (x.env e).enclosing
  marked : ∀ {e}, e < x.size → (y.marked e ↔ x.marked e)
  count : x.count ≤ y.count
  unbound : ∀ {id}, id < x.count → (y.unbound id ↔ x.unbound id)
  current : y.machine.current = x.machine.current

namespace Later

theorem refl (x : Twins) : Later x x :=
  ⟨Nat.le_refl _, fun _ => rfl, fun _ => Iff.rfl, Nat.le_refl _, fun _ => Iff.rfl, rfl⟩

theorem trans {x y z : Twins} (h : Later x y) (h' : Later y z) : Later x z where
  size := Nat.le_trans h.size h'.size
  enclosing he := (h'.enclosing (Nat.lt_of_lt_of_le he h.size)).trans (h.enclosing he)
  marked he := (h'.marked (Nat.lt_of_lt_of_le he h.size)).trans (h.marked he)
  count := Nat.le_trans h.count h'.count
  unbound hid := (h'.unbound (Nat.lt_of_lt_of_le hid h.count)).trans (h.unbound hid)
  current := h'.current.trans h.current

end Later

/-- Runs of a program and of the same program with a name changed.  They stop at
the same places. -/
def pairing (ρ : Renaming) : Pairing Twins Machine Machine where
  left := machine
  right := other
  Alike := Alike ρ
  Later := Later
  later_refl := .refl
  later_trans := .trans
  Places t t' := t'.span = t.span
  Lenient := False

@[simp] theorem pairing_left (ρ : Renaming) (x : Twins) : (pairing ρ).left x = x.machine := rfl
@[simp] theorem pairing_right (ρ : Renaming) (x : Twins) : (pairing ρ).right x = x.other := rfl

section

variable {ρ : Renaming} {x y : Twins} {d : Depth}

/-! ### What stays -/

theorem Bound.mono {v : Value} (h : x.Bound v) (hxy : Later x y) : y.Bound v := by
  intro id hid
  obtain ⟨hlt, hu⟩ := h id hid
  exact ⟨Nat.lt_of_lt_of_le hlt hxy.count, mt (hxy.unbound hlt).mp hu⟩

theorem bound_of_ne {v : Value} (h : ∀ id, v ≠ .function id) : x.Bound v :=
  fun id hid => absurd hid (h id)

theorem bound_nil : x.Bound .nil :=
  bound_of_ne fun _ h => nomatch h

theorem bound_classRef (id : Nat) : x.Bound (.classRef id) :=
  bound_of_ne fun _ h => nomatch h

theorem Stands.mono {e : Nat} (h : x.Stands e d) (hx : Spaces ρ x) (hxy : Later x y) :
    y.Stands e d := by
  refine ⟨Nat.lt_of_lt_of_le h.1 hxy.size, fun j e' hwalk => ?_⟩
  rw [Forest.walk_congr (n := x.size) hxy.enclosing hx.links j h.1] at hwalk
  have he' : e' < x.size := Nat.lt_of_le_of_lt (Forest.walk_le hx.links j hwalk) h.1
  exact (hxy.marked he').trans (h.2 j e' hwalk)

theorem Coded.mono {id : Nat} (h : Coded ρ x id) (hx : Spaces ρ x) (hxy : Later x y)
    (hid : id < x.count) (hleft : y.machine.heap.closure id = x.machine.heap.closure id)
    (hright : y.other.heap.closure id = x.other.heap.closure id) : Coded ρ y id := by
  obtain ⟨hscope, hinit, d, hstands, hplain, hmethod⟩ := h
  refine ⟨?_, ?_, d, ?_, ?_, ?_⟩
  · rw [hleft, hright, hscope]
  · rw [hleft, hright, hinit]
  · rw [hleft]
    exact hstands.mono hx hxy
  · rw [hleft, hright, hxy.unbound hid]
    exact hplain
  · rw [hleft, hright, hxy.unbound hid]
    exact hmethod

/-! ### Names at a distance -/

theorem Spaces.reach (hx : Spaces ρ x) {e : Nat} (he : e < x.size) (n : Int) :
    x.environments.reach e n = x.machine.heap.environments.reach e n := by
  unfold Forest.reach Forest.ancestor
  rw [Forest.walk_congr (n := x.size) (fun _ => hx.enclosing _) hx.links n.toNat he]

/-- In the environment so many steps out, a name that is spelled in the way of that
environment has the same value. -/
theorem Spaces.get? (hx : Spaces ρ x) {e e' j : Nat} (hs : x.Stands e d)
    (hwalk : x.machine.heap.environments.walk j (some e) = .ok (some e')) {t : Token}
    (hf : ρ.Fresh d t) :
    (x.environments.env e').values.get? (ρ.tokenAt d (some j) t).lexeme =
      (x.env e').values.get? t.lexeme := by
  have hmarked := hs.2 j e' hwalk
  rw [Renaming.tokenAt_some]
  by_cases hd : d = some j
  · rw [if_pos hd, hx.renamed (hmarked.mpr hd)]
    exact Bindings.get?_rename (hx.fresh (hmarked.mpr hd)) (hf (by rw [hd]; rfl))
  · rw [if_neg hd, hx.plain (mt hmarked.mp hd)]

theorem Spaces.getAt (hx : Spaces ρ x) {e : Nat} (hs : x.Stands e d) (n : Int) {t : Token}
    (hf : ρ.Fresh d t) :
    x.environments.getAt e n (ρ.tokenAt d (some n.toNat) t).lexeme =
      x.machine.heap.environments.getAt e n t.lexeme := by
  unfold Forest.getAt
  rw [hx.reach hs.1]
  cases hreach : x.machine.heap.environments.reach e n with
  | error why => rfl
  | ok e' =>
    have hget := hx.get? hs (Forest.reach_ok.mp hreach) hf
    change (x.environments.env e').values.get? _ =
      (x.machine.heap.environments.env e').values.get? _ at hget
    simp only [bind, Except.bind, hget]

/-! ### Steps on the environments -/

/-- A name of an environment gets a value, in both spellings. -/
def define (x : Twins) (e : Nat) (name name' : String) (v : Value) : Twins where
  machine := x.machine.withEnvironments (x.machine.heap.environments.define e name v)
  environments := x.environments.define e name' v
  functions := x.functions
  marked := x.marked
  unbound := x.unbound

/-- One more environment, which is marked or not. -/
def enclose (x : Twins) (outer : Nat) (b b' : Bindings Value) (mark : Prop) : Twins where
  machine := x.machine.withEnvironments (x.machine.heap.environments.push ⟨some outer, b⟩)
  environments := x.environments.push ⟨some outer, b'⟩
  functions := x.functions
  marked e := if e = x.size then mark else x.marked e
  unbound := x.unbound

theorem define_later (e : Nat) (name name' : String) (v : Value) :
    Later x (x.define e name name' v) where
  size := Nat.le_of_eq (Forest.size_define _ e name v).symm
  enclosing _ := Forest.enclosing_define _ e name v _
  marked _ := Iff.rfl
  count := Nat.le_refl _
  unbound _ := Iff.rfl
  current := rfl

/-- The environments stay the same, but for the name. -/
theorem define_spaces (hs : Spaces ρ x) {e : Nat} (he : e < x.size) {name name' : String}
    {v : Value} (hplain : ¬x.marked e → name' = name)
    (hrenamed : x.marked e → name ≠ ρ.new ∧ name' = ρ.apply name) :
    Spaces ρ (x.define e name name' v) := by
  have he' : e < x.environments.size := hs.size ▸ he
  have hsize : (x.define e name name' v).size = x.size := Forest.size_define _ e name v
  have henv : ∀ e', (x.define e name name' v).env e' =
      if e = e' then { x.env e with values := (x.env e).values.set name v } else x.env e' :=
    Forest.env_define _ he name v
  have henv' : ∀ e', (x.define e name name' v).environments.env e' = if e = e' then
      { x.environments.env e with values := (x.environments.env e).values.set name' v }
      else x.environments.env e' :=
    Forest.env_define _ he' name' v
  -- A binding changes no link; its name matters only in a marked environment.
  refine ⟨hsize ▸ hs.root, ?_, fun e' => ?_, fun {e' p} hp => ?_, fun {e'} hm => ?_,
    fun {e'} hm => ?_, fun {e'} hm => ?_, fun hm => hsize ▸ hs.marked hm⟩
  · rw [hsize]
    exact (Forest.size_define _ e name' v).trans hs.size
  · refine (Forest.enclosing_define _ e name' v e').trans ((hs.enclosing e').trans ?_)
    exact (Forest.enclosing_define _ e name v e').symm
  · exact hs.links ((Forest.enclosing_define _ e name v e').symm.trans hp)
  · rw [henv, henv']
    by_cases hsame : e = e'
    · subst hsame
      rw [if_pos rfl, if_pos rfl, hplain hm]
      exact congrArg (Bindings.set · name v) (hs.plain hm)
    · rw [if_neg hsame, if_neg hsame]
      exact hs.plain hm
  · rw [henv, henv']
    by_cases hsame : e = e'
    · subst hsame
      rw [if_pos rfl, if_pos rfl, (hrenamed hm).2]
      -- The renamed name is set where the old one was, since the new name is not bound there.
      change Bindings.set _ _ v = Bindings.rename ρ (Bindings.set _ name v)
      rw [Bindings.set_rename v (hs.fresh hm) (hrenamed hm).1, hs.renamed hm]
    · rw [if_neg hsame, if_neg hsame]
      exact hs.renamed hm
  · rw [henv]
    by_cases hsame : e = e'
    · subst hsame
      rw [if_pos rfl]
      exact Bindings.get?_set_new v (hs.fresh hm) (hrenamed hm).1
    · rw [if_neg hsame]
      exact hs.fresh hm

theorem define_alike (hx : Alike ρ x) {e : Nat} (he : e < x.size) {name name' : String}
    {v : Value} (hv : x.Bound v) (hplain : ¬x.marked e → name' = name)
    (hrenamed : x.marked e → name ≠ ρ.new ∧ name' = ρ.apply name) :
    Alike ρ (x.define e name name' v) := by
  have hlater := define_later (x := x) e name name' v
  refine ⟨define_spaces hx.spaces he hplain hrenamed, hx.count,
    fun hid => (hx.codes hid).mono hx.spaces hlater hid rfl rfl, hx.methods, fun hu => ?_⟩
  rcases holds_define he hu with rfl | hu
  · exact hv.mono hlater
  · exact (hx.held hu).mono hlater

theorem env_enclose {outer : Nat} {b b' : Bindings Value} {mark : Prop} (e : Nat) :
    (x.enclose outer b b' mark).env e = if e = x.size then ⟨some outer, b⟩ else x.env e :=
  Forest.env_push _ _ e

theorem size_enclose {outer : Nat} {b b' : Bindings Value} {mark : Prop} :
    (x.enclose outer b b' mark).size = x.size + 1 :=
  Array.size_push _

theorem marked_enclose {outer : Nat} {b b' : Bindings Value} {mark : Prop} {e : Nat}
    (he : e < x.size) : (x.enclose outer b b' mark).marked e ↔ x.marked e := by
  change (if e = x.size then mark else x.marked e) ↔ _
  rw [if_neg (Nat.ne_of_lt he)]

theorem enclose_later (outer : Nat) (b b' : Bindings Value) (mark : Prop) :
    Later x (x.enclose outer b b' mark) where
  size := by
    rw [size_enclose]
    exact Nat.le_succ _
  enclosing he := by rw [env_enclose, if_neg (Nat.ne_of_lt he)]
  marked he := marked_enclose he
  count := Nat.le_refl _
  unbound _ := Iff.rfl
  current := rfl

/-- A new environment is the same on both sides, or the name is in it. -/
theorem enclose_spaces (hs : Spaces ρ x) {outer : Nat} (ho : outer < x.size)
    {b b' : Bindings Value} {mark : Prop} (hplain : ¬mark → b' = b)
    (hrenamed : mark → b.get? ρ.new = none ∧ b' = b.rename ρ) :
    Spaces ρ (x.enclose outer b b' mark) := by
  have henv' : ∀ e, (x.enclose outer b b' mark).environments.env e =
      if e = x.size then ⟨some outer, b'⟩ else x.environments.env e := by
    intro e
    rw [← hs.size]
    exact Forest.env_push _ _ e
  have hmark : ∀ e, (x.enclose outer b b' mark).marked e =
      if e = x.size then mark else x.marked e := fun _ => rfl
  -- Each of the conditions is that of the new environment, or that of one that was there.
  refine ⟨?_, ?_, fun e => ?_, fun {e p} hp => ?_, fun {e} hm => ?_, fun {e} hm => ?_,
    fun {e} hm => ?_, fun {e} hm => ?_⟩
  · rw [size_enclose]
    exact Nat.succ_pos _
  · rw [size_enclose, ← hs.size]
    exact Array.size_push _
  · rw [henv', env_enclose]
    by_cases he : e = x.size
    · rw [if_pos he, if_pos he]
    · rw [if_neg he, if_neg he]
      exact hs.enclosing e
  · rw [env_enclose] at hp
    by_cases he : e = x.size
    · rw [if_pos he] at hp
      cases hp
      exact he ▸ ho
    · rw [if_neg he] at hp
      exact hs.links hp
  · rw [hmark] at hm
    rw [henv', env_enclose]
    by_cases he : e = x.size
    · rw [if_pos he] at hm
      rw [if_pos he, if_pos he, hplain hm]
    · rw [if_neg he] at hm
      rw [if_neg he, if_neg he]
      exact hs.plain hm
  · rw [hmark] at hm
    rw [henv', env_enclose]
    by_cases he : e = x.size
    · rw [if_pos he] at hm
      rw [if_pos he, if_pos he, (hrenamed hm).2]
    · rw [if_neg he] at hm
      rw [if_neg he, if_neg he]
      exact hs.renamed hm
  · rw [hmark] at hm
    rw [env_enclose]
    by_cases he : e = x.size
    · rw [if_pos he] at hm
      rw [if_pos he]
      exact (hrenamed hm).1
    · rw [if_neg he] at hm
      rw [if_neg he]
      exact hs.fresh hm
  · rw [hmark] at hm
    rw [size_enclose]
    by_cases he : e = x.size
    · rw [he]
      exact ⟨hs.root, Nat.lt_succ_self _⟩
    · rw [if_neg he] at hm
      exact ⟨(hs.marked hm).1, Nat.lt_succ_of_lt (hs.marked hm).2⟩

theorem enclose_alike (hx : Alike ρ x) {outer : Nat} (ho : outer < x.size)
    {b b' : Bindings Value} {mark : Prop}
    (hb : ∀ {name v}, b.get? name = some v → x.Bound v) (hplain : ¬mark → b' = b)
    (hrenamed : mark → b.get? ρ.new = none ∧ b' = b.rename ρ) :
    Alike ρ (x.enclose outer b b' mark) := by
  have hlater := @enclose_later x outer b b' mark
  refine ⟨enclose_spaces hx.spaces ho hplain hrenamed, hx.count,
    fun hid => (hx.codes hid).mono hx.spaces hlater hid rfl rfl, hx.methods, fun hu => ?_⟩
  rcases holds_enclose hu with ⟨name, hname⟩ | hu
  · exact (hb hname).mono hlater
  · exact (hx.held hu).mono hlater

/-- The new environment stands where the scope is that it was made for. -/
theorem stands_enclose (hx : Spaces ρ x) {outer : Nat} {inside : Depth}
    {b b' : Bindings Value} {mark : Prop} (hs : x.Stands outer d) (ho : d.Opens inside)
    (hm : mark ↔ inside = some 0) : (x.enclose outer b b' mark).Stands x.size inside := by
  have hlater := @enclose_later x outer b b' mark
  refine ⟨?_, fun j e' hwalk => ?_⟩
  · rw [size_enclose]
    exact Nat.lt_succ_self _
  · cases j with
    | zero =>
      cases hwalk
      change (if x.size = x.size then mark else _) ↔ _
      rw [if_pos rfl]
      exact hm
    | succ j =>
      -- One step out is the enclosing environment, where the depth is known.
      rw [Forest.walk, show (Forest.env _ x.size).enclosing = some outer by
        rw [show Forest.env _ x.size = _ from env_enclose x.size, if_pos rfl],
        Forest.walk_congr (n := x.size) hlater.enclosing hx.links j hs.1] at hwalk
      have he' : e' < x.size := Nat.lt_of_le_of_lt (Forest.walk_le hx.links j hwalk) hs.1
      rw [marked_enclose he', hs.2 j e' hwalk]
      cases ho with
      | inner => cases d <;> simp [Depth.inner]
      | renamed => simp

/-! ### Functions and objects -/

/-- A function is made on both machines. -/
def addFunction (x : Twins) (c c' : Closure) (method : Prop) : Twins where
  machine := { x.machine with heap := { x.machine.heap with
    functions := x.machine.heap.functions.push c } }
  environments := x.environments
  functions := x.functions.push c'
  marked := x.marked
  unbound id := if id = x.count then method else x.unbound id

theorem unbound_addFunction {c c' : Closure} {method : Prop} {id : Nat} (hid : id < x.count) :
    (x.addFunction c c' method).unbound id ↔ x.unbound id := by
  change (if id = x.count then method else x.unbound id) ↔ _
  rw [if_neg (Nat.ne_of_lt hid)]

theorem addFunction_later (c c' : Closure) (method : Prop) :
    Later x (x.addFunction c c' method) where
  size := Nat.le_refl _
  enclosing _ := rfl
  marked _ := Iff.rfl
  count := by
    exact size_le_push _ _
  unbound hid := unbound_addFunction hid
  current := rfl

theorem addFunction_alike (hx : Alike ρ x) {c c' : Closure} {method : Prop}
    (hscope : c'.scope = c.scope) (hinit : c'.isInit = c.isInit) (hs : x.Stands c.scope d)
    (hplain : ¬method → FunctionRenamed ρ d c.declaration c'.declaration)
    (hmethod : method → FunctionRenamed ρ d.inner c.declaration c'.declaration) :
    Alike ρ (x.addFunction c c' method) := by
  have hlater := @addFunction_later x c c' method
  have hcount : (x.addFunction c c' method).count = x.count + 1 := Array.size_push _
  -- The environments are the same as before, and so is every function but the last.
  refine ⟨?_, ?_, ?_, ?_, ?_⟩
  · obtain ⟨hroot, hsize, henclosing, hlinks, hp, hr, hf, hm⟩ := hx.spaces
    exact ⟨hroot, hsize, henclosing, hlinks, hp, hr, hf, hm⟩
  · rw [hcount, ← hx.count]
    exact Array.size_push _
  · intro id hid
    rw [hcount] at hid
    rcases Nat.lt_succ_iff_lt_or_eq.mp hid with hid | rfl
    · exact (hx.codes hid).mono hx.spaces hlater hid (getD_push_lt hid)
        (getD_push_lt (hx.count ▸ hid))
    · -- The new function is the one that was declared.
      have hleft : (x.addFunction c c' method).machine.heap.closure x.count = c :=
        getD_push_size rfl
      have hright : (x.addFunction c c' method).other.heap.closure x.count = c' :=
        getD_push_size hx.count.symm
      have hunbound : (x.addFunction c c' method).unbound x.count = method := if_pos rfl
      refine ⟨?_, ?_, d, ?_, ?_, ?_⟩
      · rw [hleft, hright, hscope]
      · rw [hleft, hright, hinit]
      · rw [hleft]
        exact hs.mono hx.spaces hlater
      · rw [hleft, hright, hunbound]
        exact hplain
      · rw [hleft, hright, hunbound]
        exact hmethod
  · intro k name id hk
    obtain ⟨hid, hu⟩ := hx.methods hk
    exact ⟨Nat.lt_of_lt_of_le hid hlater.count, (hlater.unbound hid).mpr hu⟩
  · intro v hv
    exact (hx.held (hv.of_eq rfl rfl rfl)).mono hlater

/-- Objects that the two machines share are changed. -/
theorem share_later {m : Machine}
    (he : m.heap.environments = x.machine.heap.environments)
    (hf : m.heap.functions = x.machine.heap.functions)
    (hc : m.current = x.machine.current) : Later x { x with machine := m } where
  size := Nat.le_of_eq (by rw [size, size, he])
  enclosing _ := by rw [env, env, he]
  marked _ := Iff.rfl
  count := Nat.le_of_eq (by rw [count, count, hf])
  unbound _ := Iff.rfl
  current := hc

theorem share_alike (hx : Alike ρ x) {m : Machine}
    (he : m.heap.environments = x.machine.heap.environments)
    (hf : m.heap.functions = x.machine.heap.functions)
    (hc : m.current = x.machine.current)
    (hmethods : ∀ {k name id}, (m.heap.classInfo k).methods.get? name = some id →
      id < x.count ∧ x.unbound id)
    (hheld : ∀ {v}, m.Holds v → x.Bound v) : Alike ρ { x with machine := m } := by
  have hcount : Twins.count { x with machine := m } = x.count := by rw [count, count, hf]
  have hsize : Twins.size { x with machine := m } = x.size := by rw [size, size, he]
  have henv : ∀ e, Twins.env { x with machine := m } e = x.env e := fun e => by rw [env, env, he]
  have hclosure : ∀ id, m.heap.closure id = x.machine.heap.closure id := by
    intro id
    unfold Heap.closure
    rw [hf]
  obtain ⟨hroot, hother, henclosing, hlinks, hplain, hrenamed, hfresh, hmarked⟩ := hx.spaces
  -- The environments and the code are those of before, so only values and methods are new.
  refine ⟨⟨?_, ?_, ?_, ?_, ?_, ?_, ?_, ?_⟩, ?_, ?_, ?_, ?_⟩
  · rw [hsize]
    exact hroot
  · rw [hsize]
    exact hother
  · intro e
    rw [henv]
    exact henclosing e
  · intro e p hp
    rw [henv] at hp
    exact hlinks hp
  · intro e hm
    rw [henv]
    exact hplain hm
  · intro e hm
    rw [henv]
    exact hrenamed hm
  · intro e hm
    rw [henv]
    exact hfresh hm
  · intro e hm
    rw [hsize]
    exact hmarked hm
  · rw [hcount]
    exact hx.count
  · intro id hid
    rw [hcount] at hid
    exact (hx.codes hid).mono hx.spaces (share_later he hf hc) hid (hclosure id) rfl
  · intro k name id hk
    rw [hcount]
    exact hmethods hk
  · intro v hv id hid
    rw [hcount]
    exact hheld hv id hid

end

end Twins

end Lox
