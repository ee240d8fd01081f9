/-
What is stored after a change.

Objects are kept in arrays that grow at the end, and a number without an object stands for
an object with nothing in it.  After a step of a program an object is a new one, one that is
changed in a single place, or one that is as it was.

* `getD_push`, `getD_modify`, `getD_of_size_le` — what a number stands for;
* `Forest.env_push`, `Forest.env_define` — environments, when one is made or a name is bound;
* `Heap.closure_newFunction`, `Heap.classInfo_newClass` — functions and classes, when one is
  made;
* `Heap.get?_of_setField`, `Heap.getElem?_of_store` — a field or an element that is changed
  is as it was, or has the new value.
-/
import Lox.Heap

namespace Lox

/-! ### Numbers of objects -/

section

variable {α : Type} {as : Array α} {a d : α} {i : Nat}

theorem size_le_push (as : Array α) (a : α) : as.size ≤ (as.push a).size := by
  rw [Array.size_push]
  exact Nat.le_succ _

theorem size_lt_push (as : Array α) (a : α) : as.size < (as.push a).size := by
  rw [Array.size_push]
  exact Nat.lt_succ_self _

theorem getD_of_size_le (h : as.size ≤ i) : as.getD i d = d := by
  rw [Array.getD_eq_getD_getElem?, Array.getElem?_eq_none h, Option.getD_none]

theorem getD_push (as : Array α) (a d : α) (i : Nat) :
    (as.push a).getD i d = if i = as.size then a else as.getD i d := by
  rw [Array.getD_eq_getD_getElem?, Array.getD_eq_getD_getElem?, Array.getElem?_push]
  by_cases h : i = as.size
  · rw [if_pos h, if_pos h, Option.getD_some]
  · rw [if_neg h, if_neg h]

theorem getD_push_lt (h : i < as.size) : (as.push a).getD i d = as.getD i d := by
  rw [getD_push, if_neg (Nat.ne_of_lt h)]

theorem getD_push_size (h : i = as.size) : (as.push a).getD i d = a := by
  rw [getD_push, if_pos h]

theorem getD_setIfInBounds (h : i < as.size) (a d : α) (j : Nat) :
    (as.setIfInBounds i a).getD j d = if i = j then a else as.getD j d := by
  rw [Array.getD_eq_getD_getElem?, Array.getD_eq_getD_getElem?, Array.getElem?_setIfInBounds]
  by_cases hi : i = j
  · rw [if_pos hi, if_pos hi, if_pos (hi ▸ h), Option.getD_some]
  · rw [if_neg hi, if_neg hi]

/-- A change of an object that is not there is none. -/
theorem getD_modify (as : Array α) (f : α → α) (d : α) (i j : Nat) :
    (as.modify i f).getD j d = if i = j ∧ j < as.size then f (as.getD j d) else as.getD j d := by
  rw [Array.getD_eq_getD_getElem?, Array.getD_eq_getD_getElem?, Array.getElem?_modify]
  by_cases hi : i = j
  · rw [if_pos hi]
    by_cases hj : j < as.size
    · rw [if_pos ⟨hi, hj⟩, Array.getElem?_eq_getElem hj]
      rfl
    · rw [if_neg fun h => hj h.2, Array.getElem?_eq_none (Nat.not_lt.mp hj)]
      rfl
  · rw [if_neg hi, if_neg fun h => hi h.1]

end

/-! ### Environments -/

/-- Of two values that a name gets, the second remains. -/
theorem Bindings.set_set {α : Type} (b : Bindings α) (name : String) (u v : α) :
    (b.set name u).set name v = b.set name v := by
  have hinsert : ∀ entries : List (String × α),
      Bindings.insert name v (Bindings.insert name u entries) = Bindings.insert name v entries := by
    intro entries
    induction entries with
    | nil => simp [Bindings.insert]
    | cons entry rest ih =>
      obtain ⟨key, old⟩ := entry
      by_cases hk : key = name
      · simp [Bindings.insert, hk]
      · simp [Bindings.insert, hk, ih]
  exact congrArg Bindings.mk (hinsert b.entries)

namespace Forest

theorem env_of_size_le {f : Forest} {e : Nat} (h : f.size ≤ e) : f.env e = {} :=
  getD_of_size_le h

theorem env_push (f : Forest) (a : Environment) (e : Nat) :
    Forest.env (f.push a) e = if e = f.size then a else f.env e :=
  getD_push f a {} e

theorem env_define (f : Forest) {e : Nat} (he : e < f.size) (name : String) (v : Value)
    (e' : Nat) : (f.define e name v).env e' =
      if e = e' then { f.env e with values := (f.env e).values.set name v } else f.env e' := by
  unfold Forest.env Forest.define
  rw [getD_modify]
  by_cases h : e = e'
  · subst h
    rw [if_pos ⟨rfl, he⟩, if_pos rfl]
  · rw [if_neg fun hand => h hand.1, if_neg h]

theorem size_define (f : Forest) (e : Nat) (name : String) (v : Value) :
    (f.define e name v).size = f.size :=
  Array.size_modify

theorem enclosing_define (f : Forest) (e : Nat) (name : String) (v : Value) (e' : Nat) :
    ((f.define e name v).env e').enclosing = (f.env e').enclosing := by
  unfold Forest.env Forest.define
  rw [getD_modify]
  split
  · rfl
  · rfl

theorem get?_define (f : Forest) {e : Nat} (he : e < f.size) (name other : String) (v : Value)
    (e' : Nat) : ((f.define e name v).env e').values.get? other =
      if e = e' ∧ name = other then some v else (f.env e').values.get? other := by
  rw [env_define f he]
  by_cases h : e = e'
  · subst h
    rw [if_pos rfl, Bindings.get?_set]
    simp
  · rw [if_neg h, if_neg fun hand => h hand.1]

theorem define_define (f : Forest) (e : Nat) (name : String) (u v : Value) :
    (f.define e name u).define e name v = f.define e name v := by
  unfold Forest.define
  apply Array.ext
  · simp
  · intro i hi hi'
    rw [Array.getElem_modify, Array.getElem_modify, Array.getElem_modify]
    by_cases h : e = i
    · simp [h, Bindings.set_set]
    · simp [h]

/-- A new environment that binds a name is one that is given the name. -/
theorem push_set (f : Forest) (outer : Option Nat) (b : Bindings Value) (name : String)
    (v : Value) : Array.push f ⟨outer, b.set name v⟩ =
      Forest.define (f.push ⟨outer, b⟩) f.size name v := by
  unfold Forest.define
  apply Array.ext
  · simp
  · intro i hi hi'
    rw [Array.getElem_modify]
    by_cases h : f.size = i
    · subst h
      simp
    · have hlt : i < f.size := by
        rw [Array.size_push] at hi
        omega
      rw [if_neg h, Array.getElem_push_lt hlt, Array.getElem_push_lt hlt]

end Forest

/-! ### Functions and classes -/

namespace Heap

variable {h : Heap} {id i : Nat} {name : String}

theorem closure_of_size_le (hid : h.functions.size ≤ id) : h.closure id = default :=
  getD_of_size_le hid

theorem closure_newFunction (h : Heap) (c : Closure) (id : Nat) :
    (h.newFunction c).2.closure id = if id = h.functions.size then c else h.closure id :=
  getD_push h.functions c default id

theorem classInfo_of_size_le (hid : h.classes.size ≤ id) : h.classInfo id = default :=
  getD_of_size_le hid

theorem classInfo_newClass (h : Heap) (info : ClassInfo) (id : Nat) :
    (h.newClass info).2.classInfo id = if id = h.classes.size then info else h.classInfo id :=
  getD_push h.classes info default id

/-- A method is one of the new class or one of a class that was there. -/
theorem get?_of_newClass {info : ClassInfo} {m : Nat}
    (hm : ((h.newClass info).2.classInfo id).methods.get? name = some m) :
    info.methods.get? name = some m ∨ (h.classInfo id).methods.get? name = some m := by
  rw [classInfo_newClass] at hm
  split at hm
  · exact .inl hm
  · exact .inr hm

/-! ### Fields and elements -/

variable {u v : Value}

/-- A new instance has no fields. -/
theorem get?_of_newInstance {classId : Nat}
    (hu : ((h.newInstance classId).2.instanceInfo id).fields.get? name = some u) :
    (h.instanceInfo id).fields.get? name = some u := by
  change ((h.instances.push { classId }).getD id default).fields.get? name = some u at hu
  rw [getD_push] at hu
  split at hu
  · cases hu
  · exact hu

/-- When a field is set, a field has the new value or is as it was. -/
theorem get?_of_setField {i : Nat} {other : String}
    (hu : (Heap.instanceInfo
      { h with instances := h.instances.modify i fun o =>
        { o with fields := o.fields.set name v } } id).fields.get? other = some u) :
    u = v ∨ (h.instanceInfo id).fields.get? other = some u := by
  change ((h.instances.modify i _).getD id default).fields.get? other = some u at hu
  rw [getD_modify] at hu
  split at hu
  · change (((h.instanceInfo id).fields.set name v).get? other) = some u at hu
    rw [Bindings.get?_set] at hu
    split at hu
    · exact .inl (Option.some.inj hu).symm
    · exact .inr hu
  · exact .inr hu

theorem elements_of_size_le (hid : h.arrays.size ≤ id) : h.elements id = #[] :=
  getD_of_size_le hid

theorem getElem?_of_newArray {elements : Array Value}
    (hu : ((h.newArray elements).2.elements id)[i]? = some u) :
    elements[i]? = some u ∨ (h.elements id)[i]? = some u := by
  change ((h.arrays.push elements).getD id #[])[i]? = some u at hu
  rw [getD_push] at hu
  split at hu
  · exact .inl hu
  · exact .inr hu

/-- When an element is stored, an element has the new value or is as it was. -/
theorem getElem?_of_store {a j : Nat}
    (hu : (Heap.elements
      { h with arrays := h.arrays.modify a fun b => b.setIfInBounds j v } id)[i]? = some u) :
    u = v ∨ (h.elements id)[i]? = some u := by
  change ((h.arrays.modify a _).getD id #[])[i]? = some u at hu
  rw [getD_modify] at hu
  split at hu
  · change ((h.elements id).setIfInBounds j v)[i]? = some u at hu
    rw [Array.getElem?_setIfInBounds] at hu
    split at hu
    · split at hu
      · exact .inl (Option.some.inj hu).symm
      · cases hu
    · exact .inr hu
  · exact .inr hu

end Heap

end Lox
