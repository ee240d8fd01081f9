/-
The equality of the language is an equality, and shows itself.

Values are the same to a program only if they are one value: not-a-number is the same as
itself, the two zeros are not the same, and objects are the same as themselves only.  What is
printed of a value without an object goes by another way, over its shortest decimal; still it
tells the value among those of its kind.

* `same_iff` — the same value, and nothing else;
* `same_number_iff` — for numbers, in terms of the comparison of doubles and of signs;
* `Value.Kind`, `Value.kind` — the kinds of values;
* `shown_inj` — the text of a value without an object, and its kind, tell the value;
* `same_is_equality` — an equivalence that keeps kinds apart and is seen in what is printed.
-/
import Lox.Proofs.Cycles
import Lox.Proofs.Numerals
import Mathlib

namespace Lox

namespace Value

/-- The kinds of values. -/
inductive Kind where
  | nil
  | boolean
  | number
  | string
  | native
  | function
  | classRef
  | object
  | array
  deriving DecidableEq, Repr

/-- The kind of a value. -/
def kind : Value → Kind
  | nil => .nil
  | bool _ => .boolean
  | number _ => .number
  | text _ => .string
  | native _ => .native
  | function _ => .function
  | classRef _ => .classRef
  | object _ => .object
  | array _ => .array

variable {v w : Value}

/-- The equality of the language is that of values. -/
theorem same_iff : same v w = true ↔ v = w := by
  cases v <;> cases w <;>
    simp only [same, beq_iff_eq, reduceCtorEq, Bool.false_eq_true, bool.injEq, number.injEq,
      text.injEq, native.injEq, function.injEq, classRef.injEq, object.injEq, array.injEq,
      Binary64.ofFloat_injective.eq_iff]

/-- Numbers are the same if both are not-a-number, or else if they compare equal and have the
same sign. -/
theorem same_number_iff {x y : Float} : same (number x) (number y) = true ↔
    x.isNaN = true ∧ y.isNaN = true ∨ (x == y) = true ∧
      Number.signed (Binary64.ofFloat x) = Number.signed (Binary64.ofFloat y) := by
  have hpositive : Number.signed (Binary64.ofFloat 0) = false := by decide +kernel
  have hnegative : Number.signed (Binary64.ofFloat (-0)) = true := by decide +kernel
  rw [same_iff, number.injEq, Float.isNaN_eq_decide_eq_nan, Float.isNaN_eq_decide_eq_nan,
    decide_eq_true_iff, decide_eq_true_iff, Float.beq_iff_ne_nan_and_eq]
  constructor
  · rintro rfl
    by_cases hx : x = Float.nan
    · exact .inl ⟨hx, hx⟩
    · exact .inr ⟨⟨hx, hx, .inl rfl⟩, rfl⟩
  · rintro (⟨rfl, rfl⟩ | ⟨⟨-, -, rfl | ⟨rfl, rfl⟩ | ⟨rfl, rfl⟩⟩, hsign⟩)
    · rfl
    · rfl
    · rw [hpositive, hnegative] at hsign
      cases hsign
    · rw [hpositive, hnegative] at hsign
      cases hsign

end Value

open Value

variable {h : Heap}

/-- What is printed of the value of a literal. -/
def Literal.shown : Literal → String
  | .nil => "nil"
  | .bool b => if b then "true" else "false"
  | .number x => Number.write .display x
  | .text s => s

theorem hasText_ofLiteral (l : Literal) : h.HasText (ofLiteral l) l.shown := by
  refine ⟨1, ?_⟩
  cases l with
  | nil => rfl
  | bool b => rfl
  | number x => rfl
  | text s => rfl

/-- Among the values of its kind, a value without an object can be told from its text. -/
theorem shown_inj {l l' : Literal} (hkind : (ofLiteral l).kind = (ofLiteral l').kind)
    (htext : l.shown = l'.shown) : l = l' := by
  cases l with
  | nil =>
    cases l' <;> cases hkind
    rfl
  | bool b =>
    cases l' <;> cases hkind
    rename_i b'
    cases b <;> cases b'
    · rfl
    · exact absurd htext (by decide)
    · exact absurd htext (by decide)
    · rfl
  | number x =>
    cases l' <;> cases hkind
    exact congrArg Literal.number (Number.write_injective Number.display_legible htext)
  | text s =>
    cases l' <;> cases hkind
    exact congrArg Literal.text htext

theorem ofLiteral_injective : Function.Injective ofLiteral := by
  intro l l' heq
  cases l <;> cases l' <;> cases heq <;> rfl

/-- The equality of the language is an equivalence on all values, which relates values of one
kind only; and values without an object are the same exactly when they are of one kind and
have one text. -/
theorem same_is_equality (h : Heap) :
    Equivalence (fun v w => same v w = true) ∧
      (∀ v w, same v w = true → v.kind = w.kind) ∧
      ∀ l l' : Literal, same (ofLiteral l) (ofLiteral l') = true ↔
        (ofLiteral l).kind = (ofLiteral l').kind ∧
          ∃ text, h.HasText (ofLiteral l) text ∧ h.HasText (ofLiteral l') text := by
  refine ⟨⟨fun v => same_iff.mpr rfl, ?_, ?_⟩, fun v w hsame => ?_, fun l l' => ⟨?_, ?_⟩⟩
  · intro v w hsame
    exact same_iff.mpr (same_iff.mp hsame).symm
  · intro u v w hsame hsame'
    exact same_iff.mpr ((same_iff.mp hsame).trans (same_iff.mp hsame'))
  · rw [same_iff.mp hsame]
  · intro hsame
    obtain rfl := ofLiteral_injective (same_iff.mp hsame)
    exact ⟨rfl, l.shown, hasText_ofLiteral l, hasText_ofLiteral l⟩
  · rintro ⟨hkind, text, htext, htext'⟩
    have hl := (hasText_ofLiteral l).unique htext
    have hl' := (hasText_ofLiteral l').unique htext'
    rw [shown_inj hkind (hl.trans hl'.symm), same_iff]

end Lox
