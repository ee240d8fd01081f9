/-
Numbers as text.

A number is written with the fewest digits that read back.  Positional form is
used from `0.0001` up to (and not including) `10 ^ 16`; outside that range the
digits are followed by `e`, a sign and at least two digits of exponent.  Two
manners of writing differ in what surrounds the digits:

* `Manner.display` — what a program prints: whole numbers have no fraction,
  and the special values are `NaN`, `Infinity` and `-Infinity`;
* `Manner.literal` — what tokens and trees show: whole numbers keep a `.0`,
  and the special values are `nan`, `inf` and `-inf`.

* `write` — the text of a number in a manner;
* `ofDigits` — the number that a literal denotes.
-/
import Lox.Number.Binary64
import Lox.Number.Shortest

namespace Lox.Number

/-- What surrounds the digits of a number. -/
structure Manner where
  /-- What follows the digits of a whole number in positional form. -/
  whole : List Char
  /-- The text of not-a-number. -/
  nan : List Char
  /-- The text of the positive infinity. -/
  infinity : List Char

/-- How a program prints its numbers. -/
def Manner.display : Manner :=
  ⟨[], "NaN".toList, "Infinity".toList⟩

/-- How tokens and trees show their numbers. -/
def Manner.literal : Manner :=
  ⟨".0".toList, "nan".toList, "inf".toList⟩

/-- The least exponent of the leading digit that is written positionally. -/
def leastPositional : Int := -4

/-- The exponents of the leading digit from this one on are written out. -/
def firstScientific : Int := 16

/-- Digits in positional form, with the point after the first `point` of
them (before all of them, and zeros, when `point` is not positive). -/
def positional (m : Manner) (digits : List Char) (point : Int) : List Char :=
  if point ≤ 0 then
    '0' :: '.' :: (List.replicate (-point).toNat '0' ++ digits)
  else if digits.length ≤ point.toNat then
    digits ++ List.replicate (point.toNat - digits.length) '0' ++ m.whole
  else digits.take point.toNat ++ '.' :: digits.drop point.toNat

/-- The exponent mark: its sign, and at least two digits. -/
def exponentMark (e : Int) : List Char :=
  let digits := Nat.toDigits 10 e.natAbs
  'e' :: (if e < 0 then '-' else '+')
    :: (if digits.length < 2 then '0' :: digits else digits)

/-- Digits with one digit before the point, and an exponent. -/
def scientific (digits : List Char) (e : Int) : List Char :=
  match digits with
  | [] => exponentMark e
  | [d] => d :: exponentMark e
  | d :: ds => d :: '.' :: (ds ++ exponentMark e)

/-- A decimal without its sign. -/
def writeDecimal (m : Manner) (d : Decimal) : List Char :=
  let digits := Nat.toDigits 10 d.digits
  let point := d.exponent + digits.length
  if leastPositional ≤ point - 1 ∧ point - 1 < firstScientific then
    positional m digits point
  else scientific digits (point - 1)

/-- The magnitude of a finite number. -/
def writeMagnitude (m : Manner) (mantissa : Nat) (exponent : Int) : List Char :=
  if mantissa = 0 then '0' :: m.whole
  else writeDecimal m (shortest mantissa exponent)

/-- The text of a number, taken apart. -/
def writeView (m : Manner) : Binary64 → List Char
  | .nan => m.nan
  | .infinite negative => if negative then '-' :: m.infinity else m.infinity
  | .finite negative mantissa exponent =>
    if negative then '-' :: writeMagnitude m mantissa exponent
    else writeMagnitude m mantissa exponent

/-- The text of a number. -/
def write (m : Manner) (x : Float) : String :=
  String.ofList (writeView m (Binary64.ofFloat x))

/-- The natural number that a list of ASCII digits denotes. -/
def digitsToNat (digits : List Char) : Nat :=
  digits.foldl (fun n c => 10 * n + (c.toNat - '0'.toNat)) 0

/-- The number that the digits before and after a point denote. -/
def ofDigits (whole fraction : List Char) : Float :=
  Float.ofScientific (digitsToNat (whole ++ fraction)) true fraction.length

end Lox.Number
