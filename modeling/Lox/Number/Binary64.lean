/-
Double-precision numbers, taken apart.

A number of the language is an IEEE-754 double.  `Binary64` shows what the bits
of a double say: it is not a number, or an infinity, or a sign and a magnitude
`mantissa * 2 ^ exponent`.  Two numbers are the same exactly when their views
are: not-a-number is the same as itself, and the two zeros differ.

* `Binary64.ofFloat` — the view of a number;
* `isWhole`, `truncate?` — the test for a whole number, and the whole part.
-/
namespace Lox

/-- What the bits of a double-precision number say. -/
inductive Binary64 where
  | nan
  | infinite (negative : Bool)
  | finite (negative : Bool) (mantissa : Nat) (exponent : Int)
  deriving DecidableEq, Repr

namespace Binary64

/-- Takes a sign bit, an 11-bit exponent field and a 52-bit fraction apart.
Subnormal numbers (field 0) lack the leading one. -/
def ofFields (negative : Bool) (field fraction : Nat) : Binary64 :=
  if field = 2047 then
    if fraction = 0 then .infinite negative else .nan
  else if field = 0 then .finite negative fraction (-1074)
  else .finite negative (Nat.pow 2 52 + fraction) ((field : Int) - 1075)

/-- The view of a bit pattern. -/
def ofBits (bits : UInt64) : Binary64 :=
  let n := bits.toNat
  ofFields (n / Nat.pow 2 63 = 1) (n / Nat.pow 2 52 % Nat.pow 2 11) (n % Nat.pow 2 52)

/-- The view of a number. -/
def ofFloat (x : Float) : Binary64 :=
  ofBits x.toBits

/-- Whether a magnitude `mantissa * 2 ^ exponent` is a whole number. -/
def isWholeMagnitude (mantissa : Nat) (exponent : Int) : Bool :=
  0 ≤ exponent || mantissa % Nat.pow 2 exponent.natAbs == 0

/-- The whole part of the magnitude `mantissa * 2 ^ exponent`. -/
def truncateMagnitude (mantissa : Nat) (exponent : Int) : Nat :=
  if 0 ≤ exponent then mantissa * Nat.pow 2 exponent.toNat
  else mantissa / Nat.pow 2 exponent.natAbs

/-- Whether a number is finite and whole. -/
def isWhole : Binary64 → Bool
  | .finite _ m q => isWholeMagnitude m q
  | _ => false

/-- The whole part of a finite number, rounded toward zero. -/
def truncate? : Binary64 → Option Int
  | .finite negative m q =>
    let n := (truncateMagnitude m q : Int)
    some (if negative then -n else n)
  | _ => none

end Binary64

end Lox
