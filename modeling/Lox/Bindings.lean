/-
Names bound to values, in the order they were first bound.

Binding a name again changes its value and keeps its place.

* `Bindings.get?` — the value of a name;
* `Bindings.set` — the bindings after binding a name;
* `get?_set` — what a name is bound to afterwards.
-/
namespace Lox

/-- Names bound to values. -/
structure Bindings (α : Type) where
  entries : List (String × α) := []
  deriving Inhabited

namespace Bindings

variable {α : Type}

/-- No bindings. -/
def empty : Bindings α := ⟨[]⟩

/-- The value of a name in a list of entries. -/
def find? (name : String) : List (String × α) → Option α
  | [] => none
  | (key, value) :: rest => if key = name then some value else find? name rest

/-- A list of entries after binding a name. -/
def insert (name : String) (value : α) : List (String × α) → List (String × α)
  | [] => [(name, value)]
  | (key, old) :: rest =>
    if key = name then (key, value) :: rest
    else (key, old) :: insert name value rest

/-- The value of a name. -/
def get? (b : Bindings α) (name : String) : Option α :=
  find? name b.entries

/-- Whether a name is bound. -/
def binds (b : Bindings α) (name : String) : Bool :=
  (b.get? name).isSome

/-- The bindings after binding a name to a value. -/
def set (b : Bindings α) (name : String) (value : α) : Bindings α :=
  ⟨insert name value b.entries⟩

/-- The bound names, in order. -/
def names (b : Bindings α) : List String :=
  b.entries.map Prod.fst

theorem find?_insert (name other : String) (value : α) (entries : List (String × α)) :
    find? other (insert name value entries)
      = if name = other then some value else find? other entries := by
  induction entries with
  | nil => simp [insert, find?]
  | cons entry rest ih =>
    obtain ⟨key, old⟩ := entry
    by_cases hk : key = name
    · subst hk
      by_cases ho : key = other <;> simp [insert, find?, ho]
    · by_cases ho : key = other
      · subst ho
        simp [insert, find?, hk, Ne.symm hk]
      · simp [insert, find?, hk, ho, ih]

/-- After binding a name, it has the new value and every other name its old
one. -/
theorem get?_set (b : Bindings α) (name other : String) (value : α) :
    (b.set name value).get? other = if name = other then some value else b.get? other :=
  find?_insert name other value b.entries

end Bindings

end Lox
