/-
Whole numbers written by people.

A whole number may have blanks around it, a sign, the mark of its base, digits
of any script, and single underscores between digits.  The separators of ASCII
do not count as blanks here.  Decimal numbers have a greatest length.

* `readInteger` — the number that a text denotes in a base;
* `readDecimal?` — the number that a text denotes in base ten.
-/
import Lox.Text.Blank
import Lox.Text.Digit

namespace Lox.Text

/-- More decimal digits than this are refused. -/
def maxDigits : Nat := 4300

/-- Why a text denotes no whole number. -/
inductive IntegerError where
  | notNumber
  | tooLong (digits : Nat)
  deriving DecidableEq, Repr

/-- The value of a digit below a base up to sixteen. -/
def digitIn? (base : Nat) (c : Char) : Option Nat :=
  let value :=
    if 'a' ≤ c && c ≤ 'f' then some (c.toNat - 'a'.toNat + 10)
    else if 'A' ≤ c && c ≤ 'F' then some (c.toNat - 'A'.toNat + 10)
    else digitValue c
  value.filter (· < base)

/-- The values of digits with single underscores between them. -/
def digitRun? (base : Nat) : List Char → Option (List Nat)
  | [] => none
  | [c] => (digitIn? base c).map ([·])
  | c :: '_' :: rest => do
    let d ← digitIn? base c
    return d :: (← digitRun? base rest)
  | c :: rest => do
    let d ← digitIn? base c
    return d :: (← digitRun? base rest)

/-- The natural number with some digits in a base. -/
def ofDigitValues (base : Nat) (digits : List Nat) : Nat :=
  digits.foldl (fun n d => base * n + d) 0

/-- The letters after a zero that mark a base. -/
def baseMarks : Nat → List Char
  | 2 => ['b', 'B']
  | 8 => ['o', 'O']
  | 16 => ['x', 'X']
  | _ => []

/-- A text without the mark of a base, after which one underscore may stand. -/
def dropBaseMark (base : Nat) (s : List Char) : List Char :=
  match s with
  | '0' :: mark :: rest =>
    if (baseMarks base).contains mark then
      if rest.head? = some '_' then rest.tail else rest
    else s
  | _ => s

/-- The natural number that digits denote. -/
def readNatural (base : Nat) (s : List Char) : Except IntegerError Nat :=
  match digitRun? base (dropBaseMark base s) with
  | none => .error .notNumber
  | some digits =>
    if base = 10 ∧ maxDigits < digits.length then .error (.tooLong digits.length)
    else .ok (ofDigitValues base digits)

/-- Whether a character may stand around a number. -/
def isPadding (c : Char) : Bool :=
  isBlank c && !(0x1c ≤ c.toNat && c.toNat ≤ 0x1f)

/-- The whole number that a text denotes in a base. -/
def readInteger (base : Nat) (s : List Char) : Except IntegerError Int :=
  match trimWhere isPadding s with
  | '-' :: rest => (readNatural base rest).map fun n => -(n : Int)
  | '+' :: rest => (readNatural base rest).map (↑·)
  | rest => (readNatural base rest).map (↑·)

/-- The whole number that a text denotes in base ten. -/
def readDecimal? (s : String) : Option Int :=
  (readInteger 10 s.toList).toOption

end Lox.Text
