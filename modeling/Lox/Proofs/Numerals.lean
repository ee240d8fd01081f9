/-
The text of a number tells the number.

A numeral is read back as a rational number: its digits without the point, times the power of
ten that the point and the exponent mark tell.  What is written of a double stands for its
shortest decimal, in positional form and with an exponent alike, so two doubles with the same
text have the same shortest decimal.

* `numeralValue`, `numeralValue_writeDecimal` — the number that a numeral stands for;
* `writeMagnitude_inj` — the text of a magnitude tells it;
* `Manner.Legible` — a manner of writing whose words are no numerals;
* `write_injective` — in such a manner different doubles have different texts.
-/
import Lox.Proofs.Layout
import Lox.Proofs.Roundings

namespace Lox.Number

open Binary64

/-! ### What a numeral stands for -/

/-- The exponent that an exponent mark tells. -/
def markedExponent : List Char → Int
  | 'e' :: '-' :: digits => -digitsToNat digits
  | 'e' :: _ :: digits => digitsToNat digits
  | _ => 0

/-- The rational number that digits, with a point among them and an exponent mark behind them,
stand for. -/
def numeralValue (s : List Char) : ℚ :=
  let mantissa := s.takeWhile (· ≠ 'e')
  let whole := mantissa.takeWhile (· ≠ '.')
  let places := mantissa.drop (whole.length + 1)
  digitsToNat (whole ++ places) *
    10 ^ (markedExponent (s.drop mantissa.length) - places.length)

/-- A text of decimal digits. -/
def Digits (s : List Char) : Prop :=
  ∀ c ∈ s, c.isDigit = true

/-- What may stand behind the digits of a number: an exponent mark, or nothing. -/
def Mark (s : List Char) : Prop :=
  ∀ c ∈ s.head?, c = 'e'

variable {whole places mark digits : List Char}

theorem mark_nil : Mark [] :=
  fun _ hc => nomatch hc

theorem mark_exponentMark (e : Int) : Mark (exponentMark e) :=
  fun _ hc => (Option.some.inj hc).symm

theorem Digits.append {a b : List Char} (ha : Digits a) (hb : Digits b) : Digits (a ++ b) :=
  fun c hc => (List.mem_append.mp hc).elim (ha c) (hb c)

theorem Digits.ne (h : Digits digits) {d : Char} (hd : d.isDigit = false) :
    ∀ c ∈ digits, c ≠ d := by
  rintro c hc rfl
  rw [h c hc] at hd
  cases hd

theorem digits_toDigits (n : Nat) : Digits (Nat.toDigits 10 n) :=
  fun _ hc => Nat.isDigit_of_mem_toDigits (by decide) le_rfl hc

theorem digits_zeros (n : Nat) : Digits (List.replicate n '0') := by
  intro c hc
  rw [List.eq_of_mem_replicate hc]
  rfl

/-- The characters before the first `c`, if nothing else stands behind them than what begins
with `c`. -/
theorem takeWhile_ne {c : Char} {s : List Char} (hs : ∀ d ∈ s, d ≠ c) (rest : List Char)
    (hrest : ∀ d ∈ rest.head?, d = c) : (s ++ rest).takeWhile (· ≠ c) = s :=
  Token.takeWhile_append_stop (fun d hd => decide_eq_true (hs d hd))
    fun d hd => decide_eq_false (not_not_intro (hrest d hd))

theorem numeralValue_whole (hw : Digits whole) (hm : Mark mark) :
    numeralValue (whole ++ mark) = digitsToNat whole * 10 ^ markedExponent mark := by
  have hmantissa := takeWhile_ne (hw.ne rfl) mark hm
  have hwhole := takeWhile_ne (c := '.') (hw.ne rfl) [] fun _ hc => nomatch hc
  rw [List.append_nil] at hwhole
  unfold numeralValue
  dsimp only
  rw [hmantissa, hwhole, List.drop_left, List.drop_of_length_le (Nat.le_succ _), List.append_nil,
    List.length_nil, Nat.cast_zero, sub_zero]

theorem numeralValue_point (hw : Digits whole) (hp : Digits places) (hm : Mark mark) :
    numeralValue (whole ++ '.' :: (places ++ mark)) =
      digitsToNat (whole ++ places) * 10 ^ (markedExponent mark - places.length) := by
  -- The text is cut first at the mark of the exponent and then at the point.
  have hne : ∀ c ∈ whole ++ '.' :: places, c ≠ 'e' := by
    intro c hc
    rw [List.mem_append, List.mem_cons] at hc
    rcases hc with hc | rfl | hc
    · exact hw.ne rfl c hc
    · decide
    · exact hp.ne rfl c hc
  have hmantissa := takeWhile_ne hne mark hm
  have hwhole := takeWhile_ne (c := '.') (hw.ne rfl) ('.' :: places)
    fun _ hc => (Option.some.inj hc).symm
  rw [List.append_assoc, List.cons_append] at hmantissa
  have hdrop : (whole ++ '.' :: places).drop (whole.length + 1) = places := by
    rw [List.append_cons]
    exact List.drop_left' List.length_append
  have hmark : (whole ++ '.' :: (places ++ mark)).drop (whole ++ '.' :: places).length = mark := by
    rw [← List.cons_append, ← List.append_assoc]
    exact List.drop_left
  unfold numeralValue
  dsimp only
  rw [hmantissa, hwhole, hdrop, hmark]

/-! ### The digits of a decimal -/

theorem digitsToNat_append (a b : List Char) :
    digitsToNat (a ++ b) = digitsToNat a * 10 ^ b.length + digitsToNat b := by
  change Nat.ofDigitChars 10 (a ++ b) 0 = _
  rw [Nat.ofDigitChars_append, Nat.ofDigitChars_eq_ofDigitChars_zero, Nat.mul_comm]
  rfl

theorem digitsToNat_zeros (n : Nat) : digitsToNat (List.replicate n '0') = 0 := by
  change Nat.ofDigitChars 10 (List.replicate n '0') 0 = 0
  rw [Nat.ofDigitChars_replicate_zero, Nat.mul_zero]

theorem digitsToNat_zeros_append (n : Nat) (s : List Char) :
    digitsToNat (List.replicate n '0' ++ s) = digitsToNat s := by
  rw [digitsToNat_append, digitsToNat_zeros, Nat.zero_mul, Nat.zero_add]

theorem digitsToNat_toDigits (n : Nat) : digitsToNat (Nat.toDigits 10 n) = n :=
  Nat.ofDigitChars_ten_toDigits

theorem markedExponent_exponentMark (e : Int) : markedExponent (exponentMark e) = e := by
  have hdigits : ∀ digits : List Char,
      digitsToNat (if digits.length < 2 then '0' :: digits else digits) = digitsToNat digits := by
    intro digits
    split
    · exact digitsToNat_zeros_append 1 digits
    · rfl
  unfold exponentMark
  dsimp only
  split
  · rw [markedExponent, hdigits, digitsToNat_toDigits]
    omega
  · rw [markedExponent, hdigits, digitsToNat_toDigits]
    · omega
    · decide

/-! ### Both forms of a decimal -/

variable {man : Manner}

theorem numeralValue_positional (hman : man.whole = [] ∨ man.whole = ['.', '0'])
    (hd : Digits digits) (point : Int) :
    numeralValue (positional man digits point) =
      digitsToNat digits * 10 ^ (point - digits.length) := by
  have hzero : Digits ['0'] := digits_zeros 1
  unfold positional
  -- The point stands before all digits, behind all of them, or among them.
  split_ifs with hpoint hlength
  · have hvalue := numeralValue_point hzero ((digits_zeros (-point).toNat).append hd) mark_nil
    rw [List.append_nil, List.length_append, List.length_replicate] at hvalue
    refine hvalue.trans ?_
    rw [← List.append_assoc, digitsToNat_append, show ['0'] = List.replicate 1 '0' from rfl,
      digitsToNat_zeros_append, digitsToNat_zeros, Nat.zero_mul, Nat.zero_add]
    congr 2
    rw [markedExponent, Nat.cast_add]
    · omega
    · exact nofun
    · exact nofun
  · have hw := hd.append (digits_zeros (point.toNat - digits.length))
    have hten : (10 : ℚ) ^ (point - digits.length) = 10 ^ (point.toNat - digits.length) := by
      rw [← zpow_natCast]
      congr 1
      omega
    have hvalue : (digitsToNat (digits ++ List.replicate (point.toNat - digits.length) '0') : ℚ) =
        digitsToNat digits * 10 ^ (point - digits.length) := by
      rw [digitsToNat_append, digitsToNat_zeros, List.length_replicate, hten, Nat.add_zero,
        Nat.cast_mul, Nat.cast_pow, Nat.cast_ofNat]
    rcases hman with hman | hman
    · rw [hman, numeralValue_whole hw mark_nil, hvalue]
      simp [markedExponent]
    · have hpointed := numeralValue_point hw hzero mark_nil
      rw [List.append_nil] at hpointed
      rw [hman, hpointed, digitsToNat_append, Nat.cast_add, Nat.cast_mul, hvalue]
      simp [markedExponent, digitsToNat]
  · have htake : Digits (digits.take point.toNat) := fun c hc => hd c (List.mem_of_mem_take hc)
    have hdrop : Digits (digits.drop point.toNat) := fun c hc => hd c (List.mem_of_mem_drop hc)
    have hpointed := numeralValue_point htake hdrop mark_nil
    rw [List.append_nil] at hpointed
    rw [hpointed, List.take_append_drop, List.length_drop]
    simp only [markedExponent]
    congr 2
    omega

theorem numeralValue_scientific (hd : Digits digits) (hne : digits ≠ []) (e : Int) :
    numeralValue (scientific digits e) =
      digitsToNat digits * 10 ^ (e + 1 - digits.length) := by
  have hm := mark_exponentMark e
  match digits with
  | [d] =>
    refine (numeralValue_whole hd hm).trans ?_
    rw [markedExponent_exponentMark, List.length_singleton, Nat.cast_one, add_sub_cancel_right]
  | d :: d' :: ds =>
    have hw : Digits [d] := fun c hc => hd c (List.mem_cons.mpr (.inl (List.mem_singleton.mp hc)))
    have hp : Digits (d' :: ds) := fun c hc => hd c (List.mem_cons_of_mem d hc)
    refine (numeralValue_point hw hp hm).trans ?_
    rw [markedExponent_exponentMark, List.singleton_append, List.length_cons (a := d),
      Nat.cast_succ, add_sub_add_right_eq_sub]

/-- A decimal is written as a numeral for its value. -/
theorem numeralValue_writeDecimal (hman : man.whole = [] ∨ man.whole = ['.', '0'])
    (d : Decimal) : numeralValue (writeDecimal man d) = d.value := by
  have hdigits := digits_toDigits d.digits
  unfold writeDecimal Decimal.value
  dsimp only
  split_ifs
  · rw [numeralValue_positional hman hdigits, digitsToNat_toDigits, add_sub_cancel_right]
  · rw [numeralValue_scientific hdigits Nat.toDigits_ne_nil, digitsToNat_toDigits, sub_add_cancel,
      add_sub_cancel_right]

/-! ### Magnitudes -/

theorem numeralValue_zero (hman : man.whole = [] ∨ man.whole = ['.', '0']) :
    numeralValue ('0' :: man.whole) = 0 := by
  have hpositional : '0' :: man.whole = positional man (List.replicate 1 '0') 1 := rfl
  rw [hpositional, numeralValue_positional hman (digits_zeros 1), digitsToNat_zeros, Nat.cast_zero,
    zero_mul]

theorem numeralValue_writeMagnitude (hman : man.whole = [] ∨ man.whole = ['.', '0']) (m : Nat)
    (q : Int) :
    numeralValue (writeMagnitude man m q) = if m = 0 then 0 else (shortest m q).value := by
  unfold writeMagnitude
  split_ifs
  · exact numeralValue_zero hman
  · exact numeralValue_writeDecimal hman _

/-- The magnitude of a double can be told from its text. -/
theorem writeMagnitude_inj (hman : man.whole = [] ∨ man.whole = ['.', '0']) {m m' : Nat}
    {q q' : Int} (hc : Canonical m q) (hc' : Canonical m' q')
    (h : writeMagnitude man m q = writeMagnitude man m' q') : m = m' ∧ q = q' := by
  have hvalue := congrArg numeralValue h
  have hpos : ∀ {m : Nat} {q : Int}, m ≠ 0 → 0 < (shortest m q).value := fun hm =>
    (Rounding.contains_shortest (Nat.pos_of_ne_zero hm)).pos (Nat.pos_of_ne_zero hm)
  rw [numeralValue_writeMagnitude hman, numeralValue_writeMagnitude hman] at hvalue
  split_ifs at hvalue with hm hm' hm'
  · -- The only zero has the least exponent.
    have hfull := hc.full
    have hfull' := hc'.full
    exact ⟨hm.trans hm'.symm, by omega⟩
  · exact absurd hvalue (hpos hm').ne
  · exact absurd hvalue (hpos hm).ne'
  · exact shortest_value_inj hc hc' (Nat.pos_of_ne_zero hm) (Nat.pos_of_ne_zero hm') hvalue

/-- A text that begins with a digit. -/
def BeginsWithDigit (s : List Char) : Prop :=
  ∃ c rest, s = c :: rest ∧ c.isDigit = true

theorem Digits.begins (hd : Digits digits) (hne : digits ≠ []) (rest : List Char) :
    BeginsWithDigit (digits ++ rest) := by
  cases digits with
  | nil => exact absurd rfl hne
  | cons c cs => exact ⟨c, cs ++ rest, rfl, hd c List.mem_cons_self⟩

theorem positional_begins (hd : Digits digits) (hne : digits ≠ []) (point : Int) :
    BeginsWithDigit (positional man digits point) := by
  unfold positional
  split_ifs with hpoint
  · exact ⟨'0', _, rfl, rfl⟩
  · rw [List.append_assoc]
    exact hd.begins hne _
  · refine Digits.begins (fun c hc => hd c (List.mem_of_mem_take hc)) ?_ _
    rw [ne_eq, List.take_eq_nil_iff]
    rintro (h | h)
    · omega
    · exact hne h

theorem scientific_begins (hd : Digits digits) (hne : digits ≠ []) (e : Int) :
    BeginsWithDigit (scientific digits e) := by
  match digits with
  | [d] => exact ⟨d, _, rfl, hd d List.mem_cons_self⟩
  | d :: _ :: _ => exact ⟨d, _, rfl, hd d List.mem_cons_self⟩

theorem writeMagnitude_begins (man : Manner) (m : Nat) (q : Int) :
    BeginsWithDigit (writeMagnitude man m q) := by
  have hd := digits_toDigits (shortest m q).digits
  unfold writeMagnitude writeDecimal
  dsimp only
  split_ifs
  · exact ⟨'0', _, rfl, rfl⟩
  · exact positional_begins hd Nat.toDigits_ne_nil _
  · exact scientific_begins hd Nat.toDigits_ne_nil _

/-! ### Signs and words -/

/-- A text that begins like a word, neither with a digit nor with a sign. -/
def BeginsWithLetter (s : List Char) : Prop :=
  ∃ c rest, s = c :: rest ∧ c.isDigit = false ∧ c ≠ '-'

/-- A manner of writing whose words are no numerals and differ from each other, and whose whole
numbers have a zero as fraction, if they have one. -/
structure Manner.Legible (man : Manner) : Prop where
  whole : man.whole = [] ∨ man.whole = ['.', '0']
  nan : BeginsWithLetter man.nan
  infinity : BeginsWithLetter man.infinity
  differ : man.nan ≠ man.infinity

theorem display_legible : Manner.display.Legible where
  whole := .inl rfl
  nan := ⟨'N', ['a', 'N'], rfl, rfl, by decide⟩
  infinity := ⟨'I', "nfinity".toList, rfl, rfl, by decide⟩
  differ := by decide

theorem literal_legible : Manner.literal.Legible where
  whole := .inr rfl
  nan := ⟨'n', ['a', 'n'], rfl, rfl, by decide⟩
  infinity := ⟨'i', ['n', 'f'], rfl, rfl, by decide⟩
  differ := by decide

theorem BeginsWithLetter.ne_writeMagnitude {word : List Char} (h : BeginsWithLetter word)
    (m : Nat) (q : Int) : word ≠ writeMagnitude man m q := by
  obtain ⟨c, rest, rfl, hc, -⟩ := h
  obtain ⟨c', rest', hs, hc'⟩ := writeMagnitude_begins man m q
  rw [hs]
  rintro heq
  rw [(List.cons.inj heq).1, hc'] at hc
  cases hc

/-- What is written of a number behind its sign. -/
def writeUnsigned (man : Manner) : Binary64 → List Char
  | .nan => man.nan
  | .infinite _ => man.infinity
  | .finite _ mantissa exponent => writeMagnitude man mantissa exponent

/-- The sign of a number; not-a-number has none. -/
def signed : Binary64 → Bool
  | .nan => false
  | .infinite negative => negative
  | .finite negative _ _ => negative

theorem writeView_eq (man : Manner) (v : Binary64) :
    writeView man v = if signed v then '-' :: writeUnsigned man v else writeUnsigned man v := by
  cases v with
  | nan => rfl
  | infinite negative => rfl
  | finite negative m q => rfl

theorem writeUnsigned_head (h : man.Legible) (v : Binary64) :
    ∃ c rest, writeUnsigned man v = c :: rest ∧ c ≠ '-' := by
  cases v with
  | nan =>
    obtain ⟨c, rest, hs, -, hc⟩ := h.nan
    exact ⟨c, rest, hs, hc⟩
  | infinite _ =>
    obtain ⟨c, rest, hs, -, hc⟩ := h.infinity
    exact ⟨c, rest, hs, hc⟩
  | finite _ m q =>
    obtain ⟨c, rest, hs, hc⟩ := writeMagnitude_begins man m q
    refine ⟨c, rest, hs, ?_⟩
    rintro rfl
    cases hc

/-- The sign and what stands behind it can be told from the text of a number. -/
theorem writeView_split (h : man.Legible) {v v' : Binary64}
    (heq : writeView man v = writeView man v') :
    signed v = signed v' ∧ writeUnsigned man v = writeUnsigned man v' := by
  obtain ⟨c, rest, hs, hc⟩ := writeUnsigned_head h v
  obtain ⟨c', rest', hs', hc'⟩ := writeUnsigned_head h v'
  rw [writeView_eq, writeView_eq, hs, hs'] at heq
  rw [hs, hs']
  split_ifs at heq with hsign hsign' hsign'
  · exact ⟨hsign.trans hsign'.symm, (List.cons.inj heq).2⟩
  · exact absurd (List.cons.inj heq).1.symm hc'
  · exact absurd (List.cons.inj heq).1 hc
  · exact ⟨(Bool.eq_false_iff.mpr hsign).trans (Bool.eq_false_iff.mpr hsign').symm, heq⟩

/-- In a legible manner different doubles have different texts. -/
theorem write_injective (h : man.Legible) : Function.Injective (write man) := by
  intro x y heq
  -- Sign and the rest of the text can be told apart, and the texts of infinity and of what is no
  -- number are no numerals.
  apply ofFloat_injective
  obtain ⟨hsign, hunsigned⟩ := writeView_split h (String.ofList_injective heq)
  cases hx : ofFloat x with
  | nan =>
    cases hy : ofFloat y with
    | nan => rfl
    | infinite _ =>
      rw [hx, hy] at hunsigned
      exact absurd hunsigned h.differ
    | finite _ m q =>
      rw [hx, hy] at hunsigned
      exact absurd hunsigned (h.nan.ne_writeMagnitude m q)
  | infinite _ =>
    cases hy : ofFloat y with
    | nan =>
      rw [hx, hy] at hunsigned
      exact absurd hunsigned.symm h.differ
    | infinite _ =>
      rw [hx, hy] at hsign
      exact congrArg infinite hsign
    | finite _ m q =>
      rw [hx, hy] at hunsigned
      exact absurd hunsigned (h.infinity.ne_writeMagnitude m q)
  | finite _ m q =>
    cases hy : ofFloat y with
    | nan =>
      rw [hx, hy] at hunsigned
      exact absurd hunsigned.symm (h.nan.ne_writeMagnitude m q)
    | infinite _ =>
      rw [hx, hy] at hunsigned
      exact absurd hunsigned.symm (h.infinity.ne_writeMagnitude m q)
    | finite _ m' q' =>
      rw [hx, hy] at hsign hunsigned
      obtain ⟨rfl, rfl⟩ := writeMagnitude_inj h.whole (canonical_of_ofFloat hx)
        (canonical_of_ofFloat hy) hunsigned
      exact congrArg (finite · m q) hsign

/-! ### Characters -/

/-- A character of a numeral. -/
def inNumeral (c : Char) : Bool :=
  c.isDigit || c == '.' || c == 'e' || c == '+' || c == '-'

theorem Digits.inNumeral (hd : Digits digits) : ∀ c ∈ digits, inNumeral c = true := by
  intro c hc
  rw [Number.inNumeral, hd c hc]
  rfl

theorem inNumeral_exponentMark (e : Int) : ∀ c ∈ exponentMark e, inNumeral c = true := by
  have hd := digits_toDigits e.natAbs
  have hpadded : ∀ c ∈ (if (Nat.toDigits 10 e.natAbs).length < 2 then
      '0' :: Nat.toDigits 10 e.natAbs else Nat.toDigits 10 e.natAbs), inNumeral c = true := by
    split
    · exact List.forall_mem_cons.mpr ⟨rfl, hd.inNumeral⟩
    · exact hd.inNumeral
  refine List.forall_mem_cons.mpr ⟨rfl, List.forall_mem_cons.mpr ⟨?_, hpadded⟩⟩
  split <;> rfl

theorem inNumeral_positional (hman : ∀ c ∈ man.whole, inNumeral c = true) (hd : Digits digits)
    (point : Int) : ∀ c ∈ positional man digits point, inNumeral c = true := by
  have hdigits := hd.inNumeral
  unfold positional
  split_ifs
  · exact List.forall_mem_cons.mpr ⟨rfl, List.forall_mem_cons.mpr
      ⟨rfl, List.forall_mem_append.mpr ⟨(digits_zeros _).inNumeral, hdigits⟩⟩⟩
  · exact List.forall_mem_append.mpr
      ⟨List.forall_mem_append.mpr ⟨hdigits, (digits_zeros _).inNumeral⟩, hman⟩
  · exact List.forall_mem_append.mpr ⟨fun c hc => hdigits c (List.mem_of_mem_take hc),
      List.forall_mem_cons.mpr ⟨rfl, fun c hc => hdigits c (List.mem_of_mem_drop hc)⟩⟩

theorem inNumeral_scientific (hd : Digits digits) (e : Int) :
    ∀ c ∈ scientific digits e, inNumeral c = true := by
  have hdigits := hd.inNumeral
  have hmark := inNumeral_exponentMark e
  match digits with
  | [] => exact hmark
  | [d] => exact List.forall_mem_cons.mpr ⟨hdigits d List.mem_cons_self, hmark⟩
  | d :: d' :: ds =>
    rw [List.forall_mem_cons] at hdigits
    exact List.forall_mem_cons.mpr ⟨hdigits.1, List.forall_mem_cons.mpr
      ⟨rfl, List.forall_mem_append.mpr ⟨hdigits.2, hmark⟩⟩⟩

theorem inNumeral_writeMagnitude (hman : ∀ c ∈ man.whole, inNumeral c = true) (m : Nat) (q : Int) :
    ∀ c ∈ writeMagnitude man m q, inNumeral c = true := by
  have hd := digits_toDigits (shortest m q).digits
  unfold writeMagnitude writeDecimal
  dsimp only
  split_ifs
  · exact List.forall_mem_cons.mpr ⟨rfl, hman⟩
  · exact inNumeral_positional hman hd _
  · exact inNumeral_scientific hd _

/-- A finite number is written as a numeral, perhaps with a sign in front. -/
theorem write_finite (hman : ∀ c ∈ man.whole, inNumeral c = true) {x : Float} {negative : Bool}
    {m : Nat} {q : Int} (hx : ofFloat x = .finite negative m q) :
    (∃ c rest, (write man x).toList = c :: rest ∧ (c.isDigit = true ∨ c = '-')) ∧
      ∀ c ∈ (write man x).toList, inNumeral c = true := by
  have hnumeral := inNumeral_writeMagnitude hman m q
  rw [write, String.toList_ofList, hx, writeView]
  split_ifs
  · exact ⟨⟨'-', _, rfl, .inr rfl⟩, List.forall_mem_cons.mpr ⟨rfl, hnumeral⟩⟩
  · obtain ⟨c, rest, hs, hc⟩ := writeMagnitude_begins man m q
    exact ⟨⟨c, rest, hs, .inl hc⟩, hnumeral⟩

end Lox.Number
