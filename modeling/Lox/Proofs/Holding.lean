/-
The values a machine holds.

Variables, fields and elements hold values.  A step of a program changes one of
them, or makes a new object, so afterwards a value that is held was held before or
is the new one.

* `Forest.walk_congr`, `Forest.walk_le` — walks outward, which lead to earlier environments;
* `Machine.Holds` — a value is held somewhere;
* `holds_define`, `holds_enclose` — variables and new environments;
* `lookup_cases`, `assign_cases` — reading and changing a variable;
* `holds_setField`, `holds_newInstance` — fields and new instances;
* `holds_storeElement`, `holds_newArray` — elements and new arrays;
* `holds_initial` — before any program has run;
* `Plain` — operators, which hold nothing and make no function.
-/
import Lox.Proofs.Objects

namespace Lox

/-! ### Walks outward -/

namespace Forest

/-- Walks are the same where environments are enclosed in the same way. -/
theorem walk_congr {f g : Forest} {n : Nat}
    (h : ∀ {e}, e < n → (g.env e).enclosing = (f.env e).enclosing)
    (hlinks : ∀ {e p}, (f.env e).enclosing = some p → p < e) (j : Nat) :
    ∀ {e}, e < n → g.walk j (some e) = f.walk j (some e) := by
  induction j with
  | zero => exact fun _ => rfl
  | succ j ih =>
    intro e he
    rw [walk, walk, h he]
    cases hp : (f.env e).enclosing with
    | none =>
      cases j with
      | zero => rfl
      | succ j => rfl
    | some p => exact ih (Nat.lt_trans (hlinks hp) he)

/-- A walk never leads to a later environment. -/
theorem walk_le {f : Forest} (hlinks : ∀ {e p}, (f.env e).enclosing = some p → p < e) (j : Nat) :
    ∀ {e e'}, f.walk j (some e) = .ok (some e') → e' ≤ e := by
  induction j with
  | zero =>
    rintro e e' ⟨⟩
    exact Nat.le_refl e
  | succ j ih =>
    intro e e' h
    rw [walk] at h
    cases hp : (f.env e).enclosing with
    | none =>
      rw [hp] at h
      cases j with
      | zero => cases h
      | succ j => cases h
    | some p =>
      rw [hp] at h
      exact Nat.le_of_lt (Nat.lt_of_le_of_lt (ih h) (hlinks hp))

theorem reach_ok {f : Forest} {e e' : Nat} {n : Int} :
    f.reach e n = .ok e' ↔ f.walk n.toNat (some e) = .ok (some e') := by
  unfold reach ancestor
  cases f.walk n.toNat (some e) with
  | error why => exact ⟨fun h => (nomatch h), fun h => (nomatch h)⟩
  | ok target =>
    cases target with
    | none => exact ⟨fun h => (nomatch h), fun h => (nomatch h)⟩
    | some e' => simp [bind, Except.bind, pure, Except.pure]

end Forest

/-! ### What is held -/

/-- A machine holds a value in a variable, a field or an element. -/
inductive Machine.Holds (m : Machine) : Value → Prop
  | binding {e : Nat} {name : String} {v : Value}
      (h : (m.heap.environments.env e).values.get? name = some v) : Holds m v
  | field {i : Nat} {name : String} {v : Value}
      (h : (m.heap.instanceInfo i).fields.get? name = some v) : Holds m v
  | element {a i : Nat} {v : Value} (h : (m.heap.elements a)[i]? = some v) : Holds m v

namespace Machine

/-- The machine with other environments. -/
def withEnvironments (m : Machine) (f : Forest) : Machine :=
  { m with heap := { m.heap with environments := f } }

/-- The machine with other instances. -/
def withInstances (m : Machine) (is : Array Instance) : Machine :=
  { m with heap := { m.heap with instances := is } }

/-- The machine with other arrays. -/
def withArrays (m : Machine) (as : Array (Array Value)) : Machine :=
  { m with heap := { m.heap with arrays := as } }

end Machine

section

variable {m : Machine} {u v : Value}

/-- Only variables, fields and elements matter. -/
theorem Machine.Holds.of_eq {m' : Machine} (h : m'.Holds v)
    (he : m'.heap.environments = m.heap.environments)
    (hi : m'.heap.instances = m.heap.instances) (ha : m'.heap.arrays = m.heap.arrays) :
    m.Holds v := by
  cases h with
  | binding h => exact .binding (he ▸ h)
  | field h =>
    unfold Heap.instanceInfo at h
    rw [hi] at h
    exact .field h
  | element h =>
    unfold Heap.elements at h
    rw [ha] at h
    exact .element h

/-- What is found at a distance is held. -/
theorem holds_of_getAt {e : Nat} {n : Int} {name : String}
    (h : m.heap.environments.getAt e n name = .ok v) : m.Holds v := by
  unfold Forest.getAt at h
  cases hreach : m.heap.environments.reach e n with
  | error why =>
    rw [hreach] at h
    cases h
  | ok e' =>
    rw [hreach] at h
    cases hget : (m.heap.environments.env e').values.get? name with
    | none =>
      simp only [bind, Except.bind, hget] at h
      cases h
    | some u =>
      simp only [bind, Except.bind, hget] at h
      cases h
      exact .binding hget

/-! ### Variables -/

theorem holds_define {e : Nat} {name : String} (he : e < m.heap.environments.size)
    (h : (m.withEnvironments (m.heap.environments.define e name v)).Holds u) :
    u = v ∨ m.Holds u := by
  cases h with
  | @binding e' name' _ h =>
    change ((m.heap.environments.define e name v).env e').values.get? name' = some u at h
    rw [Forest.get?_define _ he] at h
    by_cases hsame : e = e' ∧ name = name'
    · rw [if_pos hsame] at h
      exact .inl (Option.some.inj h).symm
    · rw [if_neg hsame] at h
      exact .inr (.binding h)
  | field h => exact .inr (.field h)
  | element h => exact .inr (.element h)

theorem holds_enclose {outer : Option Nat} {b : Bindings Value}
    (h : (m.withEnvironments (m.heap.environments.push ⟨outer, b⟩)).Holds u) :
    (∃ name, b.get? name = some u) ∨ m.Holds u := by
  cases h with
  | @binding e' name' _ h =>
    change (Forest.env (m.heap.environments.push ⟨outer, b⟩) e').values.get? name' = some u at h
    rw [Forest.env_push] at h
    by_cases hnew : e' = m.heap.environments.size
    · rw [if_pos hnew] at h
      exact .inl ⟨name', h⟩
    · rw [if_neg hnew] at h
      exact .inr (.binding h)
  | field h => exact .inr (.field h)
  | element h => exact .inr (.element h)

theorem Eval.lookup_global (t : Token) (m : Machine) :
    Eval.lookup ⟨t, none⟩ m = (match m.heap.environments.lookup? Machine.globals t.lexeme with
      | some v => pure v
      | none => Eval.fail (.undefinedVariable t.lexeme) t : Eval Value) m := rfl

theorem Eval.assign_global (t : Token) (v : Value) (m : Machine) :
    Eval.assign ⟨t, none⟩ v m = (match m.heap.environments.holder? Machine.globals t.lexeme with
      | some target => Eval.changeForest (·.define target t.lexeme v)
      | none => Eval.fail (.undefinedVariable t.lexeme) t : Eval Unit) m := rfl

/-- Reading a variable leaves the machine alone. -/
theorem lookup_cases (ref : Reference) (m : Machine) :
    (∃ v, Eval.lookup ref m = .ok v m ∧ m.Holds v) ∨ ∃ e, Eval.lookup ref m = .error e m := by
  obtain ⟨t, hops⟩ := ref
  cases hops with
  | some n =>
    change (∃ v, Eval.found (m.heap.environments.getAt m.current n t.lexeme) m = .ok v m ∧ _) ∨
      ∃ e, Eval.found (m.heap.environments.getAt m.current n t.lexeme) m = .error e m
    cases hget : m.heap.environments.getAt m.current n t.lexeme with
    | ok v => exact .inl ⟨v, rfl, holds_of_getAt hget⟩
    | error why => exact .inr ⟨_, rfl⟩
  | none =>
    rw [Eval.lookup_global, Lexical.lookup?_globals]
    cases hget : (m.heap.environments.env 0).values.get? t.lexeme with
    | some v => exact .inl ⟨v, rfl, .binding hget⟩
    | none => exact .inr ⟨_, rfl⟩

/-- Assigning to a variable changes one that is there. -/
theorem assign_cases (ref : Reference) (v : Value) {m : Machine}
    (hlinks : ∀ {e p}, (m.heap.environments.env e).enclosing = some p → p < e)
    (hroot : 0 < m.heap.environments.size) (hcurrent : m.current < m.heap.environments.size) :
    (∃ e, e < m.heap.environments.size ∧ Eval.assign ref v m =
      .ok () (m.withEnvironments (m.heap.environments.define e ref.name v))) ∨
    ∃ stop, Eval.assign ref v m = .error stop m := by
  obtain ⟨t, hops⟩ := ref
  cases hops with
  | some n =>
    change (∃ e, _ ∧ (Eval.found (m.heap.environments.reach m.current n) >>= fun target =>
        Eval.changeForest (·.define target t.lexeme v)) m = _) ∨
      ∃ stop, (Eval.found (m.heap.environments.reach m.current n) >>= fun target =>
        Eval.changeForest (·.define target t.lexeme v)) m = _
    cases hreach : m.heap.environments.reach m.current n with
    | ok e =>
      -- Links point backwards, so the environment that is reached is one that is there.
      have hle := Forest.walk_le hlinks _ (Forest.reach_ok.mp hreach)
      exact .inl ⟨e, Nat.lt_of_le_of_lt hle hcurrent, rfl⟩
    | error why => exact .inr ⟨_, rfl⟩
  | none =>
    rw [Eval.assign_global, Lexical.holder?_globals]
    by_cases hb : (m.heap.environments.env 0).values.binds t.lexeme
    · rw [if_pos hb]
      exact .inl ⟨0, hroot, rfl⟩
    · rw [if_neg hb]
      exact .inr ⟨_, rfl⟩

/-! ### Fields -/

theorem holds_setField {id : Nat} {name : String}
    (h : (m.withInstances (m.heap.instances.modify id fun i =>
      { i with fields := i.fields.set name v })).Holds u) :
    u = v ∨ m.Holds u := by
  cases h with
  | binding h => exact .inr (.binding h)
  | field h => exact (Heap.get?_of_setField h).imp_right .field
  | element h => exact .inr (.element h)

theorem holds_newInstance {classId : Nat}
    (h : (m.withInstances (m.heap.instances.push { classId })).Holds u) : m.Holds u := by
  cases h with
  | binding h => exact .binding h
  | field h => exact .field (Heap.get?_of_newInstance h)
  | element h => exact .element h

/-! ### Elements -/

theorem holds_storeElement {id i : Nat}
    (h : (m.withArrays (m.heap.arrays.modify id fun a => a.setIfInBounds i v)).Holds u) :
    u = v ∨ m.Holds u := by
  cases h with
  | binding h => exact .inr (.binding h)
  | field h => exact .inr (.field h)
  | element h => exact (Heap.getElem?_of_store h).imp_right .element

theorem holds_newArray {size : Value} {elements : Array Value}
    (hmake : Elements.make size = .ok elements)
    (h : (m.withArrays (m.heap.arrays.push elements)).Holds u) : u = .nil ∨ m.Holds u := by
  cases h with
  | binding h => exact .inr (.binding h)
  | field h => exact .inr (.field h)
  | element h =>
    exact (Heap.getElem?_of_newArray h).imp (Elements.eq_nil_of_make hmake) .element

end

/-- What is bound in a list of native functions is one of them. -/
theorem native_of_find? {name : String} {v : Value} (entries : List (String × Native))
    (h : Bindings.find? name (entries.map fun e => (e.1, Value.native e.2)) = some v) :
    ∃ f, v = .native f := by
  induction entries with
  | nil => cases h
  | cons entry rest ih =>
    rw [List.map_cons, Bindings.find?] at h
    split at h
    · exact ⟨entry.2, (Option.some.inj h).symm⟩
    · exact ih h

/-- Before any program has run, only native functions are held. -/
theorem holds_initial {v : Value} (h : Machine.initial.Holds v) : ∃ f, v = .native f := by
  cases h with
  | @binding e name _ h =>
    cases e with
    | zero => exact native_of_find? Native.registry h
    | succ e => cases h
  | field h => cases h
  | element h => cases h

/-- Parameters are bound to arguments. -/
theorem mem_of_bindParams {params : List Token} {arguments : List Value} {name : String}
    {v : Value} (h : (bindParams params arguments).get? name = some v) : v ∈ arguments := by
  -- By induction on the parameters, for any bindings made before them.
  have hfrom : ∀ {params : List Token} {arguments : List Value} {b : Bindings Value},
      ((params.zip arguments).foldl (fun b e => b.set e.1.lexeme e.2) b).get? name = some v →
        v ∈ arguments ∨ b.get? name = some v := by
    intro params
    induction params with
    | nil => exact fun h => .inr h
    | cons p params ih =>
      intro arguments b h
      cases arguments with
      | nil => exact .inr h
      | cons u arguments =>
        rw [List.zip_cons_cons, List.foldl_cons] at h
        rcases ih h with h | h
        · exact .inl (List.mem_cons_of_mem u h)
        · rw [Bindings.get?_set] at h
          by_cases hname : p.lexeme = name
          · rw [if_pos hname] at h
            cases h
            exact .inl List.mem_cons_self
          · rw [if_neg hname] at h
            exact .inr h
  rcases hfrom h with h | h
  · exact h
  · cases h

/-! ### Operators -/

/-- A value that stands for no function, no class and no instance. -/
def Value.Inert : Value → Prop
  | .function _ | .classRef _ | .object _ => False
  | _ => True

/-- A computation that leaves the machine alone and gives an inert value, or
stops. -/
def Plain (p : Eval Value) : Prop :=
  (∃ v : Value, v.Inert ∧ p = pure v) ∨ ∃ e, p = throw e

section Operators

theorem plain_pure {v : Value} (h : v.Inert) : Plain (pure v) :=
  .inl ⟨v, h, rfl⟩

theorem plain_throw (e : Stop) : Plain (throw e) :=
  .inr ⟨e, rfl⟩

theorem plain_unary (op : Token) (v : Value) : Plain (applyUnary op v) := by
  unfold applyUnary
  split
  · split
    · exact plain_pure trivial
    · exact plain_throw _
  · exact plain_pure trivial
  · exact plain_throw _

theorem plain_arithmetic (op : Token) (a b : Float) : Plain (arithmetic op a b) := by
  unfold arithmetic
  split
  case h_8 => exact plain_throw _
  all_goals exact plain_pure trivial

theorem plain_binary (op : Token) (a b : Value) : Plain (applyBinary op a b) := by
  unfold applyBinary
  split
  · unfold add
    split
    · exact plain_pure trivial
    · exact plain_pure trivial
    · exact plain_pure trivial
    · exact plain_throw _
  · exact plain_pure trivial
  · exact plain_pure trivial
  · split
    · exact plain_arithmetic op _ _
    · exact plain_throw _

end Operators

end Lox
