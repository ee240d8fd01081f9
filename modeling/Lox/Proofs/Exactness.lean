/-
The numbers that values stand for.

A finite number stands for a sign and `mantissa * 2 ^ exponent`, which is a rational number.
The tests for sizes and indices are made on the parts; here they are what they say about
the number.

* `Binary64.magnitude`, `Binary64.rational?`, `Value.rational?` — the number that is meant;
* `isWholeMagnitude_iff`, `truncateMagnitude_eq_floor`, `exceeds_iff` — the tests on the parts;
* `Elements.sizeOf?_eq_ok_iff` — which sizes are accepted;
* `Elements.place_eq_ok_iff` — which indices are accepted.
-/
import Lox.Elements
import Mathlib.Algebra.Order.Floor.Semifield
import Mathlib.Data.Rat.Floor

namespace Lox

namespace Binary64

/-- The rational number `mantissa * 2 ^ exponent`. -/
def magnitude (mantissa : Nat) (exponent : Int) : ℚ :=
  mantissa * 2 ^ exponent

/-- The rational number that a finite number stands for; both zeros stand for zero. -/
def rational? : Binary64 → Option ℚ
  | .finite negative m q => some (if negative then -magnitude m q else magnitude m q)
  | _ => none

variable {m : Nat} {q : Int}

theorem magnitude_of_nonneg (hq : 0 ≤ q) : magnitude m q = (m * Nat.pow 2 q.toNat : Nat) := by
  obtain ⟨k, rfl⟩ := Int.eq_ofNat_of_zero_le hq
  rw [magnitude, zpow_natCast, Int.toNat_natCast, Nat.pow_eq, Nat.cast_mul, Nat.cast_pow]
  rfl

theorem magnitude_of_neg (hq : ¬0 ≤ q) : magnitude m q = m / (Nat.pow 2 q.natAbs : Nat) := by
  have hneg : q = -(q.natAbs : Int) := by omega
  rw [magnitude, hneg, zpow_neg, zpow_natCast, ← hneg, Nat.pow_eq, Nat.cast_pow, div_eq_mul_inv]
  rfl

theorem magnitude_nonneg : 0 ≤ magnitude m q :=
  mul_nonneg (Nat.cast_nonneg m) (zpow_nonneg (by norm_num) q)

theorem magnitude_eq_zero_iff : magnitude m q = 0 ↔ m = 0 := by
  rw [magnitude, mul_eq_zero_iff_right (zpow_ne_zero q two_ne_zero), Nat.cast_eq_zero]

theorem twoPow_pos (k : Nat) : (0 : ℚ) < (Nat.pow 2 k : Nat) :=
  Nat.cast_pos.mpr (Nat.pow_pos two_pos)

theorem isWholeMagnitude_iff : isWholeMagnitude m q = true ↔ ∃ n : Nat, magnitude m q = n := by
  unfold isWholeMagnitude
  by_cases hq : 0 ≤ q
  · rw [magnitude_of_nonneg hq, decide_eq_true hq, Bool.true_or]
    exact iff_of_true rfl ⟨_, rfl⟩
  · rw [magnitude_of_neg hq, decide_eq_false hq, Bool.false_or, beq_iff_eq,
      ← Nat.dvd_iff_mod_eq_zero]
    constructor
    · rintro ⟨n, rfl⟩
      exact ⟨n, by rw [Nat.cast_mul, mul_div_cancel_left₀ _ (twoPow_pos _).ne']⟩
    · rintro ⟨n, hn⟩
      rw [div_eq_iff (twoPow_pos _).ne', ← Nat.cast_mul, Nat.cast_inj] at hn
      exact ⟨n, hn.trans (Nat.mul_comm ..)⟩

theorem truncateMagnitude_eq_floor : truncateMagnitude m q = ⌊magnitude m q⌋₊ := by
  unfold truncateMagnitude
  by_cases hq : 0 ≤ q
  · rw [if_pos hq, magnitude_of_nonneg hq, Nat.floor_natCast]
  · rw [if_neg hq, magnitude_of_neg hq, Nat.floor_div_eq_div]

/-- The sign does not matter unless it makes a number negative. -/
theorem rational?_of_not_negative {negative : Bool} (h : (negative && m != 0) = false) :
    rational? (.finite negative m q) = some (magnitude m q) := by
  rw [rational?]
  cases negative with
  | false => rfl
  | true =>
    have hm : m = 0 := by simpa using h
    rw [if_pos rfl, magnitude_eq_zero_iff.mpr hm, neg_zero]

theorem rational?_of_negative {negative : Bool} (h : (negative && m != 0) = true) :
    ∃ r < 0, rational? (.finite negative m q) = some r := by
  obtain ⟨rfl, hm⟩ : negative = true ∧ m ≠ 0 := by simpa using h
  refine ⟨-magnitude m q, neg_neg_of_pos ?_, rfl⟩
  exact lt_of_le_of_ne magnitude_nonneg fun h0 => hm (magnitude_eq_zero_iff.mp h0.symm)

/-- A number is whole, with a whole part, if that is the number that it stands for. -/
theorem isWhole_and_truncate?_iff {x : Binary64} {z : Int} :
    (x.isWhole = true ∧ x.truncate? = some z) ↔ x.rational? = some (z : ℚ) := by
  cases x with
  | finite negative m q =>
    simp only [isWhole, truncate?, rational?, isWholeMagnitude_iff, truncateMagnitude_eq_floor,
      Option.some.injEq]
    constructor
    · rintro ⟨⟨n, hn⟩, rfl⟩
      rw [hn, Nat.floor_natCast]
      cases negative with
      | _ => norm_num
    · intro hz
      -- The sign is kept apart, so a whole number is told by its absolute value.
      have hn : magnitude m q = z.natAbs := by
        rw [Nat.cast_natAbs, Int.cast_abs, ← hz]
        cases negative with
        | false => exact (abs_of_nonneg magnitude_nonneg).symm
        | true => exact ((abs_neg _).trans (abs_of_nonneg magnitude_nonneg)).symm
      refine ⟨⟨_, hn⟩, ?_⟩
      rw [← Int.cast_inj (α := ℚ), ← hz, hn, Nat.floor_natCast]
      cases negative with
      | _ => norm_num
  | _ => simp [isWhole, rational?]

end Binary64

/-- The rational number that a value stands for, if it is a finite number. -/
def Value.rational? : Value → Option ℚ
  | .number x => (Binary64.ofFloat x).rational?
  | _ => none

namespace Elements

open Binary64

theorem exceeds_iff {m : Nat} {q : Int} {bound : Nat} :
    exceeds m q bound = true ↔ (bound : ℚ) < magnitude m q := by
  unfold exceeds
  by_cases hq : 0 ≤ q
  · rw [if_pos hq, magnitude_of_nonneg hq, decide_eq_true_iff, Nat.cast_lt]
  · rw [if_neg hq, magnitude_of_neg hq, decide_eq_true_iff, lt_div_iff₀ (twoPow_pos _),
      ← Nat.cast_mul, Nat.cast_lt]

/-- The sizes that are accepted are the finite numbers from zero to the greatest size; they
are rounded down. -/
theorem sizeOf?_eq_ok_iff {size : Value} {n : Nat} : sizeOf? size = .ok n ↔
    ∃ r, size.rational? = some r ∧ 0 ≤ r ∧ r ≤ (maxSize : ℚ) ∧ n = ⌊r⌋₊ := by
  cases size with
  | number x =>
    rw [sizeOf?, Value.rational?]
    cases Binary64.ofFloat x with
    | finite negative m q =>
      dsimp only
      -- Minus zero counts as zero, so only a magnitude that is not zero makes a size negative.
      cases hneg : negative && m != 0 with
      | true =>
        obtain ⟨r, hr, hexact⟩ := rational?_of_negative (q := q) hneg
        rw [if_pos rfl, hexact]
        refine iff_of_false (fun h => by cases h) ?_
        rintro ⟨r', ⟨⟩, hr', -⟩
        exact absurd hr' hr.not_ge
      | false =>
        rw [if_neg Bool.false_ne_true, rational?_of_not_negative hneg, truncateMagnitude_eq_floor]
        by_cases hlarge : exceeds m q maxSize = true
        · rw [if_pos hlarge]
          refine iff_of_false (fun h => by cases h) ?_
          rintro ⟨r, ⟨⟩, -, hr, -⟩
          exact absurd hr (exceeds_iff.mp hlarge).not_ge
        · rw [if_neg hlarge]
          have hr := not_lt.mp (mt exceeds_iff.mpr hlarge)
          constructor
          · rintro ⟨⟩
            exact ⟨_, rfl, magnitude_nonneg, hr, rfl⟩
          · rintro ⟨r, ⟨⟩, -, -, rfl⟩
            rfl
    | _ => simp [rational?]
  | _ => simp [sizeOf?, Value.rational?]

example : (sizeOf? (.number (-0.0))).toOption = some 0 := by decide +kernel

/-- The indices that are accepted are the whole numbers from zero up to the length. -/
theorem place_eq_ok_iff {length i : Nat} {index : Value} :
    place length index = .ok i ↔ i < length ∧ index.rational? = some (i : ℚ) := by
  cases index with
  | number x =>
    have hexact := isWhole_and_truncate?_iff (x := Binary64.ofFloat x) (z := i)
    rw [Int.cast_natCast] at hexact
    rw [place, Value.rational?, ← hexact]
    split
    · rename_i z hwhole hz
      rw [hwhole, hz, Option.some.injEq, eq_self, true_and]
      split
      · rw [Except.ok.injEq]
        omega
      · refine iff_of_false (fun h => by cases h) ?_
        omega
    · rename_i hnot
      refine iff_of_false (fun h => by cases h) ?_
      rintro ⟨-, hwhole, hz⟩
      exact hnot _ hwhole hz
  | _ => simp [place, Value.rational?]

example : place 3 (.number 2.0) = .ok 2 := by rfl

end Elements

end Lox
