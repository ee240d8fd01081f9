/-
Numbers written by people.

A number may have blanks around it, a sign, digits of any script with a point
among or around them, and an exponent; the infinities and not-a-number have
names.

* `scaled` — digits and a power of ten as a number;
* `readSpelled?` — the number that a text denotes.
-/
import Lox.Number.Written
import Lox.Text.Integer

namespace Lox.Number

/-- The leading digit of a finite number stands below this power of ten. -/
def greatestPower : Int := 310

/-- A number whose leading digit stands below this power of ten is zero. -/
def leastPower : Int := -330

/-- The number `digits * 10 ^ e`, rounded. -/
def scaled (digits : Nat) (e : Int) : Float :=
  let power := e + (Nat.toDigits 10 digits).length
  if digits = 0 ∨ power < leastPower then 0
  else if greatestPower < power then 1.0 / 0.0
  else Float.ofScientific digits (e < 0) e.natAbs

/-- The exponent at the end of a number, of which the sign may be left out;
nothing stands for zero. -/
def spelledExponent? (s : List Char) : Option Int :=
  match s with
  | [] => some 0
  | mark :: rest =>
    if mark ≠ 'e' ∧ mark ≠ 'E' then none
    else
      let (negative, digits) := match rest with
        | '-' :: digits => (true, digits)
        | '+' :: digits => (false, digits)
        | digits => (false, digits)
      if digits.isEmpty then none
      else (digits.mapM Text.digitValue).map fun values =>
        let n := (Text.ofDigitValues 10 values : Int)
        if negative then -n else n

/-- The number with some digits, a point and an exponent. -/
def spelledMagnitude? (s : List Char) : Option Float := do
  let isDigit (c : Char) : Bool := (Text.digitValue c).isSome
  let whole := s.takeWhile isDigit
  let rest := s.drop whole.length
  let fraction := match rest with
    | '.' :: places => places.takeWhile isDigit
    | _ => []
  let rest := match rest with
    | '.' :: places => places.drop fraction.length
    | _ => rest
  let digits := (whole ++ fraction).filterMap Text.digitValue
  let e ← spelledExponent? rest
  if digits.isEmpty then none
  else return scaled (Text.ofDigitValues 10 digits) (e - fraction.length)

/-- The number that a text without a sign denotes. -/
def spelledUnsigned? (s : List Char) : Option Float :=
  let word := String.ofList (s.map Char.toLower)
  if word = "inf" ∨ word = "infinity" then some (1.0 / 0.0)
  else if word = "nan" then some (0.0 / 0.0)
  else spelledMagnitude? s

/-- The number that a text denotes. -/
def readSpelled? (s : List Char) : Option Float :=
  match Text.trimWhere Text.isPadding s with
  | '-' :: rest => (spelledUnsigned? rest).map fun x => -x
  | '+' :: rest => spelledUnsigned? rest
  | rest => spelledUnsigned? rest

end Lox.Number
