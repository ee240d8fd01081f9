/-
The elements of an array.

An array has a fixed number of elements, all nil at first.  A size is any
finite number from zero to `maxSize`, rounded down; an index is any whole
number below the size.

* `Elements.make` — the elements of a new array;
* `Elements.get`, `Elements.set` — one element;
* `Refusal` — why an operation is refused.
-/
import Lox.Value

namespace Lox

/-- Why an operation on an array is refused. -/
inductive Refusal where
  | sizeNotFinite
  | sizeNegative
  | sizeTooLarge
  | indexNotWhole
  | indexOutOfRange (index : Int) (length : Nat)
  deriving DecidableEq, Repr

namespace Elements

/-- The greatest size of an array. -/
def maxSize : Nat := Nat.pow 2 24

/-- Whether the magnitude `m * 2 ^ q` is greater than `bound`. -/
def exceeds (m : Nat) (q : Int) (bound : Nat) : Bool :=
  if 0 ≤ q then bound < m * Nat.pow 2 q.toNat else bound * Nat.pow 2 q.natAbs < m

/-- The number of elements that a size asks for. -/
def sizeOf? : Value → Except Refusal Nat
  | .number x =>
    match Binary64.ofFloat x with
    | .finite negative m q =>
      if negative && m != 0 then .error .sizeNegative
      else if exceeds m q maxSize then .error .sizeTooLarge
      else .ok (Binary64.truncateMagnitude m q)
    | _ => .error .sizeNotFinite
  | _ => .error .sizeNotFinite

/-- The elements of a new array. -/
def make (size : Value) : Except Refusal (Array Value) :=
  (sizeOf? size).map fun n => Array.replicate n .nil

/-- The place of an index in an array of some length. -/
def place (length : Nat) : Value → Except Refusal Nat
  | .number x =>
    let view := Binary64.ofFloat x
    match view.isWhole, view.truncate? with
    | true, some i =>
      if 0 ≤ i ∧ i < (length : Int) then .ok i.toNat
      else .error (.indexOutOfRange i length)
    | _, _ => .error .indexNotWhole
  | _ => .error .indexNotWhole

/-- The element at an index. -/
def get (elements : Array Value) (index : Value) : Except Refusal Value :=
  (place elements.size index).map fun i => elements.getD i .nil

/-- The elements after changing the one at an index. -/
def set (elements : Array Value) (index value : Value) : Except Refusal (Array Value) :=
  (place elements.size index).map fun i => elements.setIfInBounds i value

/-- A new array holds nothing but nil. -/
theorem eq_nil_of_make {size : Value} {elements : Array Value} (h : make size = .ok elements)
    {i : Nat} {v : Value} (hv : elements[i]? = some v) : v = .nil := by
  unfold make at h
  cases hsize : sizeOf? size with
  | error why =>
    rw [hsize] at h
    cases h
  | ok n =>
    rw [hsize] at h
    cases h
    rw [Array.getElem?_replicate] at hv
    split at hv
    · exact (Option.some.inj hv).symm
    · cases hv

/-- What is read from an array is one of its elements, or nil. -/
theorem eq_nil_or_getElem?_of_get {elements : Array Value} {index v : Value}
    (h : get elements index = .ok v) : v = .nil ∨ ∃ i : Nat, elements[i]? = some v := by
  unfold get at h
  cases hplace : place elements.size index with
  | error why =>
    rw [hplace] at h
    cases h
  | ok i =>
    rw [hplace] at h
    cases h
    change elements.getD i .nil = .nil ∨ ∃ k : Nat, elements[k]? = some (elements.getD i .nil)
    rw [Array.getD_eq_getD_getElem?]
    cases hi : elements[i]? with
    | none => exact .inl rfl
    | some v => exact .inr ⟨i, hi⟩

end Elements

/-- The text of a refusal. -/
def Refusal.message : Refusal → String
  | sizeNotFinite => "Array size must be a finite number."
  | sizeNegative => "Array size must not be negative."
  | sizeTooLarge => "Array size must be at most " ++ toString Elements.maxSize ++ "."
  | indexNotWhole => "Array index must be an integer."
  | indexOutOfRange index length =>
    "Array index " ++ toString index ++ " out of range for length "
      ++ toString length ++ "."

end Lox
