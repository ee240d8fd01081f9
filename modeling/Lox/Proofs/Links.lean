/-
The links of a heap.

An environment is linked to the one around it, and a class to the one above it.  A link is
made together with the object it starts from, and leads to an object that is already there;
later it stays as it is.  So every chain of links is finite, and a loop along it ends.

* `Links.seek`, `Links.count` — loops along links that nothing bounds but the links;
* `Machine.Grounded` — links lead to earlier objects, and all environments outward to the
  globals;
* `Machine.Exploring` — the loops along links end, and find what chains are said to hold;
* `Machine.Keeps` — a later machine has the same links, and perhaps more;
* `Machine.Ordered` — what every step of a program preserves;
* `Ordered.grounded`, `Ordered.exploring` — what follows from it.
-/
import Lox.Proofs.Distances
import Lox.Proofs.Stages

namespace Lox

/-! ### Loops along links -/

namespace Links

variable {α : Type} {link : Nat → Option Nat}

/-- Goes from object to object up to one where something is found; none if that takes more
turns than allowed. -/
def seek (link : Nat → Option Nat) (found : Nat → Option α) :
    (turns : Nat) → Option Nat → Option (Option α)
  | _, none => some none
  | 0, some _ => none
  | turns + 1, some id =>
    match found id with
    | some a => some (some a)
    | none => seek link found turns (link id)

/-- Counts the objects from one on; none if that takes more turns than allowed. -/
def count (link : Nat → Option Nat) : (turns : Nat) → Option Nat → Option Nat
  | _, none => some 0
  | 0, some _ => none
  | turns + 1, some id => (count link turns (link id)).map (· + 1)

/-- Along links to earlier objects, a search ends with what the objects are said to lead
to. -/
theorem seek_eq (hlink : ∀ {id p}, link id = some p → p < id) {found r : Nat → Option α}
    (hr : ∀ id, r id = (found id).or ((link id).bind r)) (turns : Nat) :
    ∀ {id}, id < turns → seek link found turns (some id) = some (r id) := by
  induction turns with
  | zero => exact fun h => absurd h (Nat.not_lt_zero _)
  | succ turns ih =>
    intro id hid
    rw [seek, hr id]
    cases found id with
    | some a => rfl
    | none =>
      cases hp : link id with
      | none =>
        cases turns with
        | zero => rfl
        | succ turns => rfl
      | some p => exact ih (Nat.lt_of_lt_of_le (hlink hp) (Nat.le_of_lt_succ hid))

theorem count_eq (hlink : ∀ {id p}, link id = some p → p < id) {r : Nat → Nat}
    (hr : ∀ id, r id = (link id).elim 0 r + 1) (turns : Nat) :
    ∀ {id}, id < turns → count link turns (some id) = some (r id) := by
  induction turns with
  | zero => exact fun h => absurd h (Nat.not_lt_zero _)
  | succ turns ih =>
    intro id hid
    rw [count, hr id]
    cases hp : link id with
    | none =>
      cases turns with
      | zero => rfl
      | succ turns => rfl
    | some p =>
      rw [ih (Nat.lt_of_lt_of_le (hlink hp) (Nat.le_of_lt_succ hid))]
      rfl

end Links

/-! ### Chains -/

namespace Forest

variable {f : Forest} (hf : f.Linked)

include hf

/-- A chain is its first environment and the chain of the one around it. -/
theorem chain_eq (e : Nat) : f.chain e = e :: ((f.env e).enclosing.elim [] f.chain) := by
  cases hp : (f.env e).enclosing with
  | none => rw [chain_outermost hp, Option.elim_none]
  | some p => rw [chain_inner hp (hf hp), Option.elim_some]

theorem holder?_eq (name : String) (e : Nat) : f.holder? e name =
    (if (f.env e).values.binds name then some e else none).or
      ((f.env e).enclosing.bind fun p => f.holder? p name) := by
  unfold holder?
  rw [chain_eq hf, List.find?_cons]
  cases (f.env e).values.binds name with
  | true => rfl
  | false =>
    cases (f.env e).enclosing with
    | none => rfl
    | some p => rfl

theorem lookup?_eq (name : String) (e : Nat) : f.lookup? e name =
    ((f.env e).values.get? name).or ((f.env e).enclosing.bind fun p => f.lookup? p name) := by
  unfold lookup?
  rw [holder?_eq hf]
  unfold Bindings.binds
  cases hget : (f.env e).values.get? name with
  | some v => exact hget
  | none =>
    cases (f.env e).enclosing with
    | none => rfl
    | some p => rfl

/-- From every environment that is there, a walk leads to the outermost one. -/
theorem walk_outermost (houter : ∀ {e}, e < f.size → e ≠ 0 → (f.env e).enclosing ≠ none)
    (e : Nat) (he : e < f.size) : ∃ steps, f.walk steps (some e) = .ok (some 0) := by
  induction e using Nat.strongRecOn with
  | _ e ih =>
    by_cases hzero : e = 0
    · exact ⟨0, by rw [walk, hzero]⟩
    · obtain ⟨p, hp⟩ := Option.ne_none_iff_exists'.mp (houter he hzero)
      obtain ⟨steps, hsteps⟩ := ih p (hf hp) (Nat.lt_trans (hf hp) he)
      exact ⟨steps + 1, by rw [walk, hp, hsteps]⟩

end Forest

namespace Heap

variable {h : Heap} (horder : ∀ {k p}, (h.classInfo k).superclass = some p → p < k)

include horder

/-- A method is one of the class, or else one that is found in the class above. -/
theorem findMethod?_inherited (name : String) (id : Nat) : h.findMethod? id name =
    ((h.classInfo id).methods.get? name).or
      ((h.classInfo id).superclass.bind fun p => h.findMethod? p name) := by
  rw [findMethod?]
  cases (h.classInfo id).methods.get? name with
  | some m => rfl
  | none =>
    unfold superclass?
    cases hp : (h.classInfo id).superclass with
    | none => rfl
    | some p =>
      simp only [dif_pos (horder hp)]
      rfl

end Heap

namespace Machine

/-- The link from an environment to the one around it. -/
def enclosing (m : Machine) (e : Nat) : Option Nat :=
  (m.heap.environments.env e).enclosing

/-- The link from a class to the one above it. -/
def superclass (m : Machine) (k : Nat) : Option Nat :=
  (m.heap.classInfo k).superclass

/-- How many environments there are. -/
def scopes (m : Machine) : Nat :=
  m.heap.environments.size

/-- Links lead to objects that were made earlier, and the environments outward from any one,
among them the current one and those of all functions, end in the globals. -/
structure Grounded (m : Machine) : Prop where
  globals : globals < m.scopes ∧ m.enclosing globals = none
  enclosing : ∀ e < m.scopes, e ≠ Machine.globals → ∃ p < e, m.enclosing e = some p
  superclass : ∀ k < m.heap.classes.size, ∀ p, m.superclass k = some p → p < k
  outward : ∀ e < m.scopes, ∃ steps,
    m.heap.environments.walk steps (some e) = .ok (some Machine.globals)
  current : m.current < m.scopes
  closures : ∀ id < m.heap.functions.size, (m.heap.closure id).scope < m.scopes

/-- The loops along links end, whatever they look for and wherever they start, and find what
is at hand. -/
structure Exploring (m : Machine) : Prop where
  /-- The value of a name. -/
  value : ∀ e name, ∀ turns > e,
    Links.seek m.enclosing (fun e => (m.heap.environments.env e).values.get? name) turns (some e) =
      some (m.heap.environments.lookup? e name)
  /-- The environment where a name is assigned. -/
  target : ∀ e name, ∀ turns > e,
    Links.seek m.enclosing
        (fun e => if (m.heap.environments.env e).values.binds name then some e else none)
        turns (some e) =
      some (m.heap.environments.holder? e name)
  /-- The depth of an environment in its text. -/
  depth : ∀ e, ∀ turns ≥ e,
    Links.count m.enclosing turns (m.enclosing e) =
      some ((m.heap.environments.chain e).length - 1)
  method : ∀ k name, ∀ turns > k,
    Links.seek m.superclass (fun k => (m.heap.classInfo k).methods.get? name) turns (some k) =
      some (m.heap.findMethod? k name)
  /-- The number of arguments of a class, which are those of its initializer. -/
  arity : ∀ k, ∀ turns > k,
    (Links.seek m.superclass (fun k => (m.heap.classInfo k).methods.get? "init") turns
        (some k)).map (fun init => some (init.elim 0 m.heap.functionArity)) =
      some (m.heap.arity? (.classRef k))

/-- A later machine has the environments and the classes of an earlier one, with the same
links. -/
structure Keeps (m m' : Machine) : Prop where
  size : m.scopes ≤ m'.scopes
  enclosing : ∀ {e}, e < m.scopes → m'.enclosing e = m.enclosing e
  classes : m.heap.KeepsClasses m'.heap

theorem Keeps.refl (m : Machine) : m.Keeps m :=
  ⟨Nat.le_refl _, fun _ => rfl, Nat.le_refl _, fun _ => rfl⟩

theorem Keeps.trans {m m' m'' : Machine} (h : m.Keeps m') (h' : m'.Keeps m'') : m.Keeps m'' where
  size := Nat.le_trans h.size h'.size
  enclosing he := (h'.enclosing (Nat.lt_of_lt_of_le he h.size)).trans (h.enclosing he)
  classes := ⟨Nat.le_trans h.classes.1 h'.classes.1, fun hk =>
    (h'.classes.2 (Nat.lt_of_lt_of_le hk h.classes.1)).trans (h.classes.2 hk)⟩

/-- A class is there, if a value is one. -/
def Known (m : Machine) : Value → Prop
  | .classRef id => id < m.heap.classes.size
  | _ => True

theorem Known.mono {m m' : Machine} {v : Value} (h : m.Known v) (hk : m.Keeps m') :
    m'.Known v := by
  cases v with
  | classRef id => exact Nat.lt_of_lt_of_le h hk.classes.1
  | _ => trivial

theorem known_of_inert {m : Machine} {v : Value} (h : v.Inert) : m.Known v := by
  cases v with
  | classRef id => exact h.elim
  | _ => trivial

/-- Objects are linked to earlier ones, and only classes that are there are held. -/
structure Ordered (m : Machine) : Prop where
  root : 0 < m.scopes
  links : m.heap.environments.Linked
  outer : ∀ {e}, e < m.scopes → e ≠ 0 → m.enclosing e ≠ none
  current : m.current < m.scopes
  closures : ∀ id, (m.heap.closure id).scope < m.scopes
  order : ∀ {k p}, m.superclass k = some p → p < k
  held : ∀ {v}, m.Holds v → m.Known v

section

variable {m : Machine}

theorem Ordered.grounded (h : m.Ordered) : m.Grounded where
  globals := by
    refine ⟨h.root, ?_⟩
    cases hp : m.enclosing Machine.globals with
    | none => rfl
    | some p => exact absurd (h.links hp) (Nat.not_lt_zero p)
  enclosing e he hzero := by
    obtain ⟨p, hp⟩ := Option.ne_none_iff_exists'.mp (h.outer he hzero)
    exact ⟨p, h.links hp, hp⟩
  superclass _ _ _ hp := h.order hp
  outward e he := Forest.walk_outermost h.links h.outer e he
  current := h.current
  closures id _ := h.closures id

theorem Ordered.exploring (h : m.Ordered) : m.Exploring where
  value e name turns hturns :=
    Links.seek_eq (fun hp => h.links hp) (Forest.lookup?_eq h.links name) turns hturns
  target e name turns hturns :=
    Links.seek_eq (fun hp => h.links hp) (Forest.holder?_eq h.links name) turns hturns
  depth e turns hturns := by
    -- The depth counts the links of the chain, one less than its environments.
    have hlength : ∀ e, (m.heap.environments.chain e).length =
        (m.enclosing e).elim 0 (fun p => (m.heap.environments.chain p).length) + 1 := fun e => by
      rw [Forest.chain_eq h.links, List.length_cons]
      unfold enclosing
      cases (m.heap.environments.env e).enclosing with
      | none => rfl
      | some p => rfl
    rw [hlength e, Nat.add_sub_cancel]
    cases hp : m.enclosing e with
    | none =>
      cases turns with
      | zero => rfl
      | succ turns => rfl
    | some p =>
      exact Links.count_eq (fun hp => h.links hp) hlength turns
        (Nat.lt_of_lt_of_le (h.links hp) hturns)
  method k name turns hturns :=
    Links.seek_eq (fun hp => h.order hp) (Heap.findMethod?_inherited h.order name) turns hturns
  arity k turns hturns := by
    rw [Links.seek_eq (fun hp => h.order hp) (Heap.findMethod?_inherited h.order "init") turns
      hturns]
    rfl

end

end Machine

end Lox
