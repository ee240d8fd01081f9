/-
The shortest decimal that reads back.

The reals that round to the double `m * 2 ^ q` fill an interval around it, with
its ends included when `m` is even.  The decimals with exponent `e`, that is
the multiples of `10 ^ e`, form a grid.  The shortest decimal for a double
lies on the coarsest grid that has a point in the interval; of two such points
the nearer one is taken, and of two equally near ones the even one.  All tests
are done exactly, in natural numbers.

* `Rounding` — the interval of a double, over a common denominator;
* `Rounding.pick` — the best point of one grid, if it has one;
* `shortest` — the digits and the exponent of the shortest decimal.
-/
namespace Lox

/-- A decimal `digits * 10 ^ exponent`. -/
structure Decimal where
  digits : Nat
  exponent : Int
  deriving DecidableEq, Repr, Inhabited

/-- The reals that round to a value: those from `low / den` to `high / den`,
around the value `mid / den`. -/
structure Rounding where
  low : Nat
  mid : Nat
  high : Nat
  den : Nat
  /-- Whether the two ends themselves round to the value. -/
  closed : Bool

namespace Rounding

/-- The interval of the double `m * 2 ^ q`.  The next smaller double is only
half as far away when `m` is the least mantissa of its binade. -/
def ofDouble (m : Nat) (q : Int) : Rounding :=
  let unit := Nat.pow 2 (q - 2).toNat
  let below := if m = Nat.pow 2 52 ∧ q ≠ -1074 then 1 else 2
  { low := (4 * m - below) * unit
    mid := 4 * m * unit
    high := (4 * m + 2) * unit
    den := Nat.pow 2 (2 - q).toNat
    closed := m % 2 == 0 }

/-- The interval, measured in units of `10 ^ e`. -/
def scale (r : Rounding) (e : Int) : Rounding :=
  let up := Nat.pow 10 (-e).toNat
  { low := r.low * up
    mid := r.mid * up
    high := r.high * up
    den := r.den * Nat.pow 10 e.toNat
    closed := r.closed }

/-- Whether the whole number `k` lies in the interval. -/
def holds (r : Rounding) (k : Nat) : Bool :=
  if r.closed then r.low ≤ k * r.den && k * r.den ≤ r.high
  else r.low < k * r.den && k * r.den < r.high

/-- The whole number in the interval that is nearest to the value, an even one
before an odd one, if there is any. -/
def pick (r : Rounding) : Option Nat :=
  let k := r.mid / r.den
  let rest := r.mid - k * r.den
  match r.holds k, r.holds (k + 1) with
  | false, false => none
  | true, false => some k
  | false, true => some (k + 1)
  | true, true =>
    if 2 * rest < r.den then some k
    else if r.den < 2 * rest then some (k + 1)
    else if k % 2 = 0 then some k else some (k + 1)

/-- Searches the grids of exponent `e`, `e - 1`, … for the first that has a
point in the interval. -/
def search (r : Rounding) (e : Int) : (steps : Nat) → Decimal
  | 0 => ⟨(r.scale e).mid / (r.scale e).den, e⟩
  | steps + 1 =>
    match (r.scale e).pick with
    | some k => ⟨k, e⟩
    | none => search r (e - 1) steps

end Rounding

/-- An exponent `e` with `m * 2 ^ q < 10 ^ e`: the binary logarithm times an
upper bound of `log 2`, rounded up. -/
def coarsestExponent (m : Nat) (q : Int) : Int :=
  (((m.log2 : Int) + 1 + q) * 30103).fdiv 100000 + 1

/-- The shortest decimal that reads back as `m * 2 ^ q`.  On the grid of
exponent `min q 0 - 2` the value itself is a point, so the search ends. -/
def shortest (m : Nat) (q : Int) : Decimal :=
  let start := coarsestExponent m q
  (Rounding.ofDouble m q).search start (start - (min q 0 - 2)).toNat

end Lox
