/-
The shortest decimal of a double is no decimal of another one.

The reals that round to a double fill an interval around it.  Intervals of different doubles
lie beside each other: an end that two of them share belongs to the one with the even
mantissa only.  The search for the shortest decimal tests exactly whether a decimal is in the
interval, and ends at the latest where the double itself is on the grid.

* `Binary64.Canonical`, `Binary64.ofFloat_injective` — the view of a double, and that it tells
  doubles apart;
* `Rounding.Contains`, `contains_scale` — the interval as a set of rational numbers;
* `contains_search`, `contains_shortest` — what the search finds lies in the interval;
* `lt_of_contains` — intervals of different doubles are apart;
* `shortest_value_inj` — so the shortest decimal tells the double.
-/
import Lox.Number.Shortest
import Lox.Proofs.Exactness
import Mathlib.Data.Nat.Cast.Field

namespace Lox

/-! ### The view of a double -/

namespace Binary64

/-- A mantissa and an exponent as the bits of a finite double give them. -/
structure Canonical (m : Nat) (q : Int) : Prop where
  bounded : m < 2 ^ 53
  least : -1074 ≤ q
  full : q ≠ -1074 → 2 ^ 52 ≤ m

theorem canonical_of_ofFloat {x : Float} {negative : Bool} {m : Nat} {q : Int}
    (h : ofFloat x = .finite negative m q) : Canonical m q := by
  have hfraction : x.toBits.toNat % 2 ^ 52 < 2 ^ 52 := Nat.mod_lt _ (Nat.pow_pos two_pos)
  unfold ofFloat ofBits ofFields at h
  dsimp only at h
  rw [Nat.pow_eq] at h
  split_ifs at h <;> cases h
  · exact ⟨hfraction.trans (by decide), le_rfl, fun hq => absurd rfl hq⟩
  · exact ⟨by omega, by omega, fun _ => Nat.le_add_right _ _⟩

/-- The fields of a double can be told from its view, unless it is no number. -/
theorem ofFields_inj {negative negative' : Bool} {field field' fraction fraction' : Nat}
    (hfraction : fraction < 2 ^ 52) (hfraction' : fraction' < 2 ^ 52)
    (h : ofFields negative field fraction = ofFields negative' field' fraction')
    (hnan : ofFields negative field fraction ≠ .nan) :
    negative = negative' ∧ field = field' ∧ fraction = fraction' := by
  unfold ofFields at h hnan
  rw [Nat.pow_eq] at h hnan
  split_ifs at h hnan
  · exact ⟨infinite.inj h, by omega, by omega⟩
  · exact absurd rfl hnan
  all_goals
    obtain ⟨hsign, hm, hq⟩ := finite.inj h
    exact ⟨hsign, by omega, by omega⟩

open Float.Model Float.Model.UnpackedFloat in
/-- Only one double is no number. -/
theorem toBits_of_nan {x : Float} (h : ofFloat x = .nan) :
    x.toBits.toBitVec = packedNaN .binary64 := by
  have hexponent : (@unpackExponent .binary64 x.toBits.toBitVec).toNat =
      x.toBits.toNat / 2 ^ 52 % 2 ^ 11 := by
    rw [unpackExponent, BitVec.toNat_cast, BitVec.extractLsb_toNat, Nat.shiftRight_eq_div_pow]
    rfl
  have hmantissa : (@unpackMantissa .binary64 x.toBits.toBitVec).toNat =
      x.toBits.toNat % 2 ^ 52 := by
    rw [unpackMantissa, BitVec.toNat_cast, BitVec.extractLsb_toNat, Nat.shiftRight_zero]
    rfl
  have hfields : x.toBits.toNat / 2 ^ 52 % 2 ^ 11 = 2047 ∧ x.toBits.toNat % 2 ^ 52 ≠ 0 := by
    unfold ofFloat ofBits ofFields at h
    dsimp only at h
    rw [Nat.pow_eq] at h
    split_ifs at h with hfield hfraction
    exact ⟨hfield, hfraction⟩
  refine x.toModel.valid.eq_packedNaN ?_ ?_
  · rw [← BitVec.toNat_inj]
    exact hexponent.trans hfields.1
  · rw [ne_eq, ← BitVec.toNat_inj]
    exact fun hzero => hfields.2 (hmantissa.symm.trans hzero)

theorem toBits_injective : Function.Injective Float.toBits := by
  rintro ⟨⟨bits⟩⟩ ⟨⟨bits'⟩⟩ h
  obtain rfl : bits = bits' := h
  rfl

/-- Different doubles have different views. -/
theorem ofFloat_injective : Function.Injective ofFloat := by
  intro x y h
  apply toBits_injective
  by_cases hnan : ofFloat x = .nan
  · rw [← UInt64.toBitVec_inj, toBits_of_nan hnan, toBits_of_nan (h ▸ hnan)]
  · have hlt : ∀ n : Nat, n % Nat.pow 2 52 < 2 ^ 52 := fun n => Nat.mod_lt _ (Nat.pow_pos two_pos)
    obtain ⟨hsign, hfield, hfraction⟩ := ofFields_inj (hlt _) (hlt _) h hnan
    have hx := x.toBits.toNat_lt
    have hy := y.toBits.toNat_lt
    rw [← UInt64.toNat_inj]
    simp only [decide_eq_decide, Nat.pow_eq] at hsign hfield hfraction
    omega

end Binary64

open Binary64

/-! ### Intervals -/

/-- The rational number that a decimal stands for. -/
def Decimal.value (d : Decimal) : ℚ :=
  d.digits * 10 ^ d.exponent

namespace Rounding

/-- A number lies in an interval. -/
def Contains (r : Rounding) (x : ℚ) : Prop :=
  if r.closed then (r.low : ℚ) ≤ x * r.den ∧ x * r.den ≤ r.high
  else (r.low : ℚ) < x * r.den ∧ x * r.den < r.high

variable {r : Rounding}

theorem holds_iff {k : Nat} : r.holds k = true ↔ r.Contains k := by
  unfold holds Contains
  split
  · rw [Bool.and_eq_true, decide_eq_true_iff, decide_eq_true_iff, ← Nat.cast_mul, Nat.cast_le,
      Nat.cast_le]
  · rw [Bool.and_eq_true, decide_eq_true_iff, decide_eq_true_iff, ← Nat.cast_mul, Nat.cast_lt,
      Nat.cast_lt]

theorem contains_of_pick {k : Nat} (h : r.pick = some k) : r.Contains k := by
  rw [← holds_iff]
  unfold pick at h
  dsimp only at h
  split at h
  · cases h
  · rename_i hk _
    cases h
    exact hk
  · rename_i hnext
    cases h
    exact hnext
  · rename_i hk hnext
    split_ifs at h <;> cases h
    · exact hk
    · exact hnext
    · exact hk
    · exact hnext

theorem tenPow_ne_zero (k : Nat) : ((Nat.pow 10 k : Nat) : ℚ) ≠ 0 :=
  Nat.cast_ne_zero.mpr (Nat.pow_pos (by decide)).ne'

theorem ten_zpow_eq (e : Int) :
    (10 : ℚ) ^ e = (Nat.pow 10 e.toNat : Nat) / (Nat.pow 10 (-e).toNat : Nat) := by
  rw [Nat.pow_eq, Nat.pow_eq, Nat.cast_pow, Nat.cast_pow, Nat.cast_ofNat, ← zpow_natCast,
    ← zpow_natCast, ← zpow_sub₀ (by norm_num)]
  congr 1
  omega

/-- A number lies in the interval that is measured in units of `10 ^ e` if so many units lie
in the interval. -/
theorem contains_scale {e : Int} {x : ℚ} : (r.scale e).Contains x ↔ r.Contains (x * 10 ^ e) := by
  have hup : (0 : ℚ) < (Nat.pow 10 (-e).toNat : Nat) := Nat.cast_pos.mpr (Nat.pow_pos (by decide))
  have hvalue : x * (r.den * Nat.pow 10 e.toNat : Nat) =
      x * 10 ^ e * r.den * (Nat.pow 10 (-e).toNat : Nat) := by
    rw [ten_zpow_eq, Nat.cast_mul]
    field_simp
  unfold Contains scale
  dsimp only
  rw [hvalue, Nat.cast_mul, Nat.cast_mul, mul_le_mul_iff_left₀ hup, mul_le_mul_iff_left₀ hup,
    mul_lt_mul_iff_left₀ hup, mul_lt_mul_iff_left₀ hup]

/-! ### The search -/

/-- The middle of an interval is a whole number of units of `10 ^ e`. -/
def Meets (r : Rounding) (e : Int) : Prop :=
  (r.scale e).den ∣ (r.scale e).mid

theorem value_of_meets {e : Int} (hr : r.den ≠ 0) (h : r.Meets e) :
    (⟨(r.scale e).mid / (r.scale e).den, e⟩ : Decimal).value = r.mid / r.den := by
  have hup := tenPow_ne_zero (-e).toNat
  have hdown := tenPow_ne_zero e.toNat
  have hden : (r.den : ℚ) ≠ 0 := Nat.cast_ne_zero.mpr hr
  have hscale : ((r.scale e).den : ℚ) ≠ 0 := by
    rw [scale, Nat.cast_mul]
    exact mul_ne_zero hden hdown
  rw [Decimal.value, Nat.cast_div h hscale, ten_zpow_eq]
  simp only [scale, Nat.cast_mul]
  field_simp

/-- The search ends with a decimal in the interval, at the latest on a grid that the middle
is on. -/
theorem contains_search (hr : r.den ≠ 0) (hmid : r.Contains (r.mid / r.den)) :
    ∀ (steps : Nat) (e : Int), r.Meets (e - steps) → r.Contains (r.search e steps).value := by
  intro steps
  induction steps with
  | zero =>
    intro e he
    rw [Nat.cast_zero, sub_zero] at he
    rw [search, value_of_meets hr he]
    exact hmid
  | succ steps ih =>
    intro e he
    rw [search]
    split
    · rename_i k hk
      exact contains_scale.mp (contains_of_pick hk)
    · refine ih (e - 1) ?_
      rwa [sub_sub, add_comm, ← Nat.cast_succ]

/-! ### The interval of a double -/

variable {m m' : Nat} {q q' : Int} {x x' : ℚ}

/-- How far the interval of a double reaches down, in quarters of its last place. -/
def below (m : Nat) (q : Int) : Nat :=
  if m = 2 ^ 52 ∧ q ≠ -1074 then 1 else 2

theorem below_le (m : Nat) (q : Int) : below m q ≤ 2 := by
  unfold below
  split
  · exact one_le_two
  · exact le_rfl

theorem two_zpow_eq (q : Int) :
    (2 : ℚ) ^ (2 - q) = (Nat.pow 2 (2 - q).toNat : Nat) / (Nat.pow 2 (q - 2).toNat : Nat) := by
  rw [Nat.pow_eq, Nat.pow_eq, Nat.cast_pow, Nat.cast_pow, Nat.cast_ofNat, ← zpow_natCast,
    ← zpow_natCast, ← zpow_sub₀ (by norm_num)]
  congr 1
  omega

/-- The interval of a double, in quarters of its last place. -/
theorem contains_ofDouble : (ofDouble m q).Contains x ↔
    if m % 2 = 0 then ((4 * m - below m q : Nat) : ℚ) ≤ x * 2 ^ (2 - q) ∧
      x * 2 ^ (2 - q) ≤ (4 * m + 2 : Nat)
    else ((4 * m - below m q : Nat) : ℚ) < x * 2 ^ (2 - q) ∧
      x * 2 ^ (2 - q) < (4 * m + 2 : Nat) := by
  have hunit := twoPow_pos (q - 2).toNat
  have hvalue : x * (Nat.pow 2 (2 - q).toNat : Nat) =
      x * 2 ^ (2 - q) * (Nat.pow 2 (q - 2).toNat : Nat) := by
    rw [two_zpow_eq]
    field_simp
  unfold Contains ofDouble
  dsimp only
  rw [hvalue, Nat.cast_mul, Nat.cast_mul, mul_le_mul_iff_left₀ hunit, mul_le_mul_iff_left₀ hunit,
    mul_lt_mul_iff_left₀ hunit, mul_lt_mul_iff_left₀ hunit]
  simp only [beq_iff_eq]
  rfl

theorem Contains.bounds (h : (ofDouble m q).Contains x) :
    ((4 * m - below m q : Nat) : ℚ) ≤ x * 2 ^ (2 - q) ∧ x * 2 ^ (2 - q) ≤ (4 * m + 2 : Nat) := by
  rw [contains_ofDouble] at h
  split at h
  · exact h
  · exact ⟨h.1.le, h.2.le⟩

theorem Contains.bounds_of_odd (h : (ofDouble m q).Contains x) (hm : m % 2 = 1) :
    ((4 * m - below m q : Nat) : ℚ) < x * 2 ^ (2 - q) ∧ x * 2 ^ (2 - q) < (4 * m + 2 : Nat) := by
  rw [contains_ofDouble, if_neg (by omega)] at h
  exact h

theorem Contains.pos (h : (ofDouble m q).Contains x) (hm : 0 < m) : 0 < x := by
  have hbelow := below_le m q
  have hlow : (0 : ℚ) < (4 * m - below m q : Nat) := Nat.cast_pos.mpr (by omega)
  exact pos_of_mul_pos_left (hlow.trans_le h.bounds.1) (zpow_pos two_pos _).le

/-- A double lies in its own interval. -/
theorem contains_mid (hm : 0 < m) :
    (ofDouble m q).Contains ((ofDouble m q).mid / (ofDouble m q).den) := by
  have hden : ((ofDouble m q).den : ℚ) ≠ 0 := (twoPow_pos _).ne'
  have hunit : 0 < Nat.pow 2 (q - 2).toNat := Nat.pow_pos two_pos
  have hlow : (ofDouble m q).low < (ofDouble m q).mid := by
    refine Nat.mul_lt_mul_of_pos_right ?_ hunit
    split_ifs <;> omega
  have hhigh : (ofDouble m q).mid < (ofDouble m q).high :=
    Nat.mul_lt_mul_of_pos_right (by omega) hunit
  unfold Contains
  rw [div_mul_cancel₀ _ hden]
  split
  · exact ⟨Nat.cast_le.mpr hlow.le, Nat.cast_le.mpr hhigh.le⟩
  · exact ⟨Nat.cast_lt.mpr hlow, Nat.cast_lt.mpr hhigh⟩

/-- Two fractional digits more than the last place has are enough for quarters of it. -/
theorem meets_ofDouble {e : Int} (he : e ≤ min q 0 - 2) : (ofDouble m q).Meets e := by
  have hdown : Nat.pow 10 e.toNat = 1 := by
    rw [Int.toNat_of_nonpos (by omega)]
  have hup : Nat.pow 2 (2 - q).toNat ∣ Nat.pow 10 (-e).toNat :=
    (Nat.pow_dvd_pow 2 (by omega)).trans (pow_dvd_pow_of_dvd (by decide) _)
  unfold Meets scale ofDouble
  dsimp only
  rw [hdown, Nat.mul_one]
  exact hup.mul_left _

/-- The shortest decimal of a double rounds to it. -/
theorem contains_shortest (hm : 0 < m) : (ofDouble m q).Contains (shortest m q).value := by
  refine contains_search (Nat.pow_pos two_pos).ne' (contains_mid hm) _ _ (meets_ofDouble ?_)
  omega

/-! ### Different doubles -/

theorem lt_of_bounds {y y' : ℚ} {a b : Nat} (hy : y ≤ a) (hy' : (b : ℚ) ≤ y') (hab : a ≤ b)
    (h : a = b → y < a ∨ (b : ℚ) < y') : y < y' := by
  have hcast : (a : ℚ) ≤ b := Nat.cast_le.mpr hab
  rcases hab.eq_or_lt with heq | hlt
  · rcases h heq with h | h
    · exact h.trans_le (hcast.trans hy')
    · exact (hy.trans hcast).trans_lt h
  · exact (hy.trans_lt (Nat.cast_lt.mpr hlt)).trans_le hy'

/-- The numbers that round to two doubles are in the order of the doubles. -/
theorem lt_of_contains (h : Canonical m q) (h' : Canonical m' q') (hx : (ofDouble m q).Contains x)
    (hx' : (ofDouble m' q').Contains x') (hlt : q < q' ∨ q = q' ∧ m < m') : x < x' := by
  have hpos : ∀ e : Int, (0 : ℚ) < 2 ^ e := fun e => zpow_pos two_pos e
  -- Where the ends of the intervals meet, one of the mantissas is odd.
  rcases hlt with hq | ⟨rfl, hm⟩
  · have hleast := h.least
    have hbounded := h.bounded
    have hfull := h'.full (by omega)
    have hbelow : 2 ^ 54 - 1 ≤ 4 * m' - below m' q' := by
      unfold below
      split_ifs <;> omega
    have hy : x * 2 ^ (2 - q) < 2 * (x' * 2 ^ (2 - q')) := by
      refine lt_of_bounds (b := 2 * (4 * m' - below m' q')) hx.bounds.2 ?_ (by omega) fun heq => ?_
      · rw [Nat.cast_mul, Nat.cast_ofNat]
        exact mul_le_mul_of_nonneg_left hx'.bounds.1 two_pos.le
      · exact .inl (hx.bounds_of_odd (by omega)).2
    have hx'_pos : 0 < x' := hx'.pos (by omega)
    have hstep : (2 : ℚ) * 2 ^ (2 - q') ≤ 2 ^ (2 - q) := by
      rw [← zpow_one_add₀ two_ne_zero]
      exact zpow_le_zpow_right₀ one_le_two (by omega)
    refine lt_of_mul_lt_mul_right ?_ (hpos (2 - q)).le
    calc x * 2 ^ (2 - q) < 2 * (x' * 2 ^ (2 - q')) := hy
      _ = x' * (2 * 2 ^ (2 - q')) := mul_left_comm ..
      _ ≤ x' * 2 ^ (2 - q) := mul_le_mul_of_nonneg_left hstep hx'_pos.le
  · have hbelow := below_le m' q
    have hodd : 4 * m + 2 = 4 * m' - below m' q → m % 2 = 1 ∨ m' % 2 = 1 := by omega
    refine lt_of_mul_lt_mul_right ?_ (hpos (2 - q)).le
    refine lt_of_bounds hx.bounds.2 hx'.bounds.1 (by omega) fun heq => ?_
    rcases hodd heq with hodd | hodd
    · exact .inl (hx.bounds_of_odd hodd).2
    · exact .inr (hx'.bounds_of_odd hodd).1

end Rounding

/-- Different doubles have different shortest decimals. -/
theorem shortest_value_inj {m m' : Nat} {q q' : Int} (h : Canonical m q) (h' : Canonical m' q')
    (hm : 0 < m) (hm' : 0 < m') (hvalue : (shortest m q).value = (shortest m' q').value) :
    m = m' ∧ q = q' := by
  have hx := Rounding.contains_shortest (q := q) hm
  have hx' := Rounding.contains_shortest (q := q') hm'
  rcases lt_trichotomy q q' with hq | rfl | hq
  · exact absurd hvalue (Rounding.lt_of_contains h h' hx hx' (.inl hq)).ne
  · rcases lt_trichotomy m m' with hlt | rfl | hlt
    · exact absurd hvalue (Rounding.lt_of_contains h h' hx hx' (.inr ⟨rfl, hlt⟩)).ne
    · exact ⟨rfl, rfl⟩
    · exact absurd hvalue (Rounding.lt_of_contains h' h hx' hx (.inr ⟨rfl, hlt⟩)).ne'
  · exact absurd hvalue (Rounding.lt_of_contains h' h hx' hx (.inl hq)).ne'

end Lox
