/-
Natural numbers as doubles.

A natural number below `2 ^ 53` is made into a double by shifting it until its mantissa has
full length, by packing that, and by a multiplication by one.  None of this loses anything.

* `Full` — a mantissa of full length, with an exponent that a double has room for;
* `Full.round_eq`, `Full.unpack_pack`, `Full.ofFloat_pack` — rounding, packing and the view of
  the bits keep it;
* `exists_full` — every natural number in range has one;
* `Value.rational?_ofNat` — what a natural number stands for as a double is the number.
-/
import Lox.Proofs.Exactness

namespace Lox

namespace Binary64

open Float.Model Float.Model.UnpackedFloat

/-- A mantissa of full length, and an exponent that a double has room for. -/
structure Full (m : Nat) (e : Int) : Prop where
  log2 : m.log2 = 52
  least : -1074 ≤ e
  greatest : e ≤ 971

variable {m : Nat} {e : Int}

theorem Full.pos (h : Full m e) : 0 < m := by
  rcases Nat.eq_zero_or_pos m with rfl | hpos
  · cases h.log2
  · exact hpos

/-- The double with a mantissa of full length. -/
def Full.unpacked (h : Full m e) : UnpackedFloat :=
  .finite .positive m e h.pos

/-! ### Rounding -/

/-- Zeros at the end of a mantissa are shifted out. -/
theorem shiftRight_mul_two_pow (m k : Nat) :
    ExtendedMantissa.ofMantissaAndAccuracy (m * 2 ^ k) .exact >>> k =
      .ofMantissaAndAccuracy m .exact := by
  change k.repeat ExtendedMantissa.shiftRightOne _ = _
  induction k generalizing m with
  | zero =>
    rw [Nat.pow_zero, Nat.mul_one]
    rfl
  | succ k ih =>
    rw [Nat.pow_succ', ← Nat.mul_assoc, Nat.repeat, ih]
    simp [ExtendedMantissa.ofMantissaAndAccuracy, ExtendedMantissa.shiftRightOne]

theorem log2_mul_two_pow (hm : m ≠ 0) (k : Nat) : (m * 2 ^ k).log2 = m.log2 + k := by
  obtain ⟨hlow, hhigh⟩ := (Nat.log2_eq_iff hm).mp rfl
  rw [Nat.log2_eq_iff (Nat.mul_ne_zero hm (Nat.pow_pos two_pos).ne'), Nat.pow_add,
    Nat.add_right_comm, Nat.pow_add]
  exact ⟨Nat.mul_le_mul_right _ hlow, Nat.mul_lt_mul_of_pos_right hhigh (Nat.pow_pos two_pos)⟩

/-- A mantissa of full length is found again behind zeros. -/
theorem Full.shift_eq (h : Full m e) (k : Nat) :
    shiftToTargetExponent .binary64 (m * 2 ^ k) (e - k) .exact =
      (.ofMantissaAndAccuracy m .exact, e) := by
  have htarget : Format.binary64.targetExponent (totalExponent (m * 2 ^ k) (e - k)) = e := by
    have hleast := h.least
    unfold Format.targetExponent totalExponent Format.minExponent Format.mantissaBits
    rw [log2_mul_two_pow h.pos.ne', h.log2]
    norm_num
    omega
  have hshift : (e - (e - k)).toNat = k := by omega
  unfold shiftToTargetExponent shiftToExponent
  rw [htarget]
  dsimp only
  rw [hshift, shiftRight_mul_two_pow, sub_add_cancel]

theorem Full.round_eq (h : Full m e) (k : Nat) :
    roundWithAccuracy .binary64 .positive (m * 2 ^ k) (e - k) .exact = h.unpacked := by
  -- What is left after the shift is exact, and is not shifted again.
  have hround : (ExtendedMantissa.ofMantissaAndAccuracy m .exact).roundedMantissa = m := rfl
  have hagain := h.shift_eq 0
  rw [Nat.pow_zero, Nat.mul_one, Nat.cast_zero, sub_zero] at hagain
  unfold roundWithAccuracy
  rw [h.shift_eq]
  dsimp only
  rw [hround, hagain]
  exact dif_neg h.pos.ne'

/-- A natural number has a mantissa of full length. -/
theorem exists_full {n : Nat} (hpos : 0 < n) (hn : n < 2 ^ 53) :
    ∃ m e, ∃ h : Full m e, magnitude m e = n ∧
      UnpackedFloat.normalize .binary64 n 0 .positive = h.unpacked := by
  have hlog : n.log2 ≤ 52 := Nat.lt_succ_iff.mp ((Nat.log2_lt hpos.ne').mpr hn)
  obtain ⟨k, hk⟩ := Nat.exists_eq_add_of_le hlog
  -- Shifting by the bits that are missing gives the mantissa its length and keeps the value.
  have hfull : Full (n * 2 ^ k) (-k) :=
    ⟨(log2_mul_two_pow hpos.ne' k).trans hk.symm, by omega, by omega⟩
  refine ⟨n * 2 ^ k, -k, hfull, ?_, ?_⟩
  · rw [magnitude, Nat.cast_mul, Nat.cast_pow, zpow_neg, zpow_natCast]
    exact mul_inv_cancel_right₀ (pow_ne_zero k two_ne_zero) (n : ℚ)
  · have htarget : Format.binary64.targetExponent (totalExponent n 0) = -k := by
      unfold Format.targetExponent totalExponent Format.minExponent Format.mantissaBits
      norm_num
      omega
    have hshift : (0 - -(k : Int)).toNat = k := by omega
    have hround := hfull.round_eq 0
    rw [Nat.pow_zero, Nat.mul_one, Nat.cast_zero, sub_zero] at hround
    unfold UnpackedFloat.normalize
    rw [show compare (n : Int) 0 = .gt from Int.compare_eq_gt.mpr (by omega)]
    dsimp only
    unfold UnpackedFloat.round decreaseExponent
    rw [Int.toNat_natCast, htarget]
    dsimp only
    rw [hshift, Nat.shiftLeft_eq, Int.zero_sub]
    exact hround

/-! ### Packing -/

/-- The two fields of a packed mantissa of full length. -/
theorem Full.fields (h : Full m e) :
    (BitVec.ofNat 11 (e + 1075).toNat).toNat = (e + 1075).toNat ∧
      2 ^ 52 + (BitVec.ofNat 52 m).toNat = m := by
  obtain ⟨hlow, hhigh⟩ := (Nat.log2_eq_iff h.pos.ne').mp h.log2
  have hgreatest := h.greatest
  rw [BitVec.toNat_ofNat, BitVec.toNat_ofNat]
  omega

theorem Full.pack_eq (h : Full m e) : UnpackedFloat.pack .binary64 h.unpacked =
    packComponents .binary64 .positive (BitVec.ofNat 11 (e + 1075).toNat)
      (BitVec.ofNat 52 m) := by
  have hgreatest := h.greatest
  have hfield : (e + Format.binary64.exponentBias + (52 : Nat)).toNat = (e + 1075).toNat :=
    congrArg Int.toNat (Int.add_assoc e 1023 52)
  have hlength : m.log2 + 1 = Format.binary64.mantissaBits := by
    rw [h.log2]
    rfl
  unfold Full.unpacked UnpackedFloat.pack
  dsimp only
  rw [hfield, if_neg (by norm_num; omega), if_pos hlength]

theorem unpackSign_packComponents (exponent : BitVec 11) (mantissa : BitVec 52) :
    unpackSign (packComponents .binary64 .positive exponent mantissa) = 0#1 := by
  unfold unpackSign packComponents BitVec.extractLsb
  rw [BitVec.extractLsb'_append_eq_of_le (by decide),
    BitVec.extractLsb'_append_eq_of_le (by decide)]
  rfl

theorem finite_congr {s s' : Sign} {m m' : Nat} {e e' : Int} {hm : 0 < m} {hm' : 0 < m'}
    (hs : s = s') (h : m = m') (he : e = e') :
    UnpackedFloat.finite s m e hm = .finite s' m' e' hm' := by
  subst hs h he
  rfl

theorem Full.unpack_pack (h : Full m e) :
    UnpackedFloat.unpack .binary64 (UnpackedFloat.pack .binary64 h.unpacked) = h.unpacked := by
  obtain ⟨hexponent, hmantissa⟩ := h.fields
  have hleast := h.least
  have hgreatest := h.greatest
  -- The exponent field is neither of the two that are not read as a normal number.
  have hinfinite : BitVec.ofNat 11 (e + 1075).toNat ≠ -1#11 := by
    rw [ne_eq, ← BitVec.toNat_inj, hexponent, show (-1#11).toNat = 2047 from rfl]
    omega
  have hsubnormal : BitVec.ofNat 11 (e + 1075).toNat ≠ 0#11 := by
    rw [ne_eq, ← BitVec.toNat_inj, hexponent, show (0#11).toNat = 0 from rfl]
    omega
  rw [h.pack_eq]
  generalize hresult : h.unpacked = result
  unfold UnpackedFloat.unpack
  dsimp only
  rw [if_neg (by rwa [unpackExponent_packComponents]),
    if_neg (by rwa [unpackExponent_packComponents]), ← hresult]
  refine finite_congr ?_ ?_ ?_
  · rw [unpackSign_packComponents]
    rfl
  · rw [unpackMantissa_packComponents, BitVec.toNat_append,
      ← Nat.shiftLeft_add_eq_or_of_lt (BitVec.isLt _)]
    exact hmantissa
  · rw [unpackExponent_packComponents, hexponent]
    change ((e + 1075).toNat : Int) - (1023 + 52) = e
    omega

theorem toNat_packComponents (exponent : BitVec 11) (mantissa : BitVec 52) :
    (packComponents .binary64 .positive exponent mantissa).toNat =
      exponent.toNat * 2 ^ 52 + mantissa.toNat := by
  unfold packComponents
  rw [BitVec.toNat_append, BitVec.toNat_append, ← Nat.shiftLeft_add_eq_or_of_lt mantissa.isLt,
    ← Nat.shiftLeft_add_eq_or_of_lt exponent.isLt, Nat.shiftLeft_eq, Nat.shiftLeft_eq]
  simp [Sign.toBitVec]

/-- The view of bits without a sign. -/
theorem ofBits_of_toNat {bits : UInt64} {field fraction : Nat}
    (hbits : bits.toNat = field * 2 ^ 52 + fraction) (hfield : field < 2 ^ 11)
    (hfraction : fraction < 2 ^ 52) : ofBits bits = ofFields false field fraction := by
  have hsign : bits.toNat / Nat.pow 2 63 = 0 := by
    rw [hbits, Nat.pow_eq]
    omega
  have hupper : bits.toNat / Nat.pow 2 52 % Nat.pow 2 11 = field := by
    rw [hbits, Nat.pow_eq, Nat.pow_eq]
    omega
  have hlower : bits.toNat % Nat.pow 2 52 = fraction := by
    rw [hbits, Nat.pow_eq]
    omega
  unfold ofBits
  dsimp only
  rw [hsign, hupper, hlower]
  rfl

theorem Full.ofFloat_pack (h : Full m e) :
    ofFloat (.ofModel (.pack h.unpacked)) = .finite false m e := by
  obtain ⟨hexponent, hmantissa⟩ := h.fields
  have hleast := h.least
  have hgreatest := h.greatest
  have hbits : (Float.ofModel (.pack h.unpacked)).toBits.toNat =
      (e + 1075).toNat * 2 ^ 52 + (BitVec.ofNat 52 m).toNat := by
    change (UnpackedFloat.pack .binary64 h.unpacked).toNat = _
    rw [h.pack_eq, toNat_packComponents, hexponent]
  unfold ofFloat
  rw [ofBits_of_toNat hbits (by omega) (BitVec.isLt _), ofFields, if_neg (by omega),
    if_neg (by omega), Nat.pow_eq, hmantissa]
  congr 1
  omega

/-! ### Natural numbers -/

/-- A multiplication by one changes nothing. -/
theorem Full.mul_one (h : Full m e) :
    (Float.ofModel (.pack h.unpacked)) * Float.ofBits 0x3FF0000000000000 =
      .ofModel (.pack h.unpacked) := by
  have hone : (Float.ofBits 0x3FF0000000000000).toModel.unpack =
      .finite .positive (2 ^ 52) (-52) (Nat.pow_pos two_pos) :=
    rfl
  have hunpack : (Float.ofModel (.pack h.unpacked)).toModel.unpack = h.unpacked := h.unpack_pack
  change Float.ofModel (.pack (UnpackedFloat.mul .binary64
    (Float.ofModel (.pack h.unpacked)).toModel.unpack
    (Float.ofBits 0x3FF0000000000000).toModel.unpack)) = _
  rw [hunpack, hone]
  exact congrArg (Float.ofModel <| .pack ·) (h.round_eq 52)

theorem ofNat_eq_mul_one {n : Nat} (hn : n < 2 ^ 53) :
    Float.ofNat n = n.toUInt64.toFloat * Float.ofBits 0x3FF0000000000000 := by
  change Float.ofScientific n false 0 = _
  unfold Float.ofScientific
  rw [dif_pos ⟨hn, Nat.zero_le 22⟩]
  rfl

end Binary64

open Binary64 in
/-- A natural number that is not too large stands for itself as a double. -/
theorem Value.rational?_ofNat {n : Nat} (hn : n < 2 ^ 53) :
    Value.rational? (.number (Float.ofNat n)) = some (n : ℚ) := by
  rw [Value.rational?]
  rcases Nat.eq_zero_or_pos n with rfl | hpos
  · have hzero : Binary64.ofFloat (Float.ofNat 0) = .finite false 0 (-1074) := by decide +kernel
    rw [hzero, Binary64.rational?, if_neg Bool.false_ne_true, magnitude_eq_zero_iff.mpr rfl,
      Nat.cast_zero]
  · obtain ⟨m, e, hfull, hmagnitude, hnormal⟩ := exists_full hpos hn
    have htoNat : n.toUInt64.toNat = n := UInt64.toNat_ofNat_of_lt' (hn.trans (by decide))
    have hfloat : n.toUInt64.toFloat = .ofModel (.pack hfull.unpacked) := by
      rw [← hnormal]
      conv_rhs => rw [← htoNat]
      rfl
    rw [ofNat_eq_mul_one hn, hfloat, hfull.mul_one, hfull.ofFloat_pack, Binary64.rational?,
      if_neg Bool.false_ne_true, hmagnitude]

end Lox
