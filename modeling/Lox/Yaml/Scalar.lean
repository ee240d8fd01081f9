/-
Values of scalars.

* `Scalar.readInt`, `Scalar.readFloat`, `Scalar.readBinary?` — numbers and
  bytes;
* `Scalar.value` — the value of a text of some kind.
-/
import Lox.Number.Spelled
import Lox.Yaml
import Lox.Yaml.Stop
import Lox.Yaml.Tag

namespace Lox.Yaml.Scalar

open Text (Point Points)

/-! ### Numbers -/

/-- The parts of a text between colons. -/
def parts : Points → List Points
  | [] => [[]]
  | p :: rest =>
    if p = .char ':' then [] :: parts rest
    else match parts rest with
      | [] => [[p]]
      | part :: others => (p :: part) :: others

/-- A text without underscores. -/
def withoutBars (s : Points) : Points :=
  s.filter (· ≠ .char '_')

/-- The whole number that a text denotes in a base. -/
def readBase (base : Nat) (s : Points) : Except Fault Int :=
  match s.chars? with
  | none => .error (.badInteger base s)
  | some chars =>
    match Text.readInteger base chars with
    | .ok n => .ok n
    | .error .notNumber => .error (.badInteger base s)
    | .error (.tooLong digits) => .error (.longInteger digits)

/-- A sign, if there is one, and what follows it. -/
def splitMinus : Points → Bool × Points
  | .char '-' :: rest => (true, rest)
  | .char '+' :: rest => (false, rest)
  | rest => (false, rest)

/-- The whole number that a text without its sign denotes: binary, hexadecimal,
octal after a zero, decimal, or decimal with further parts counted by
sixties. -/
def readWhole (s : Points) : Except Fault Int :=
  match s with
  | [] => .error .noDigits
  | [.char '0'] => .ok 0
  | .char '0' :: .char 'b' :: digits => readBase 2 digits
  | .char '0' :: .char 'x' :: digits => readBase 16 digits
  | .char '0' :: _ => readBase 8 s
  | _ =>
    if s.contains (.char ':') then do
      let numbers ← (parts s).mapM (readBase 10)
      return numbers.foldl (fun n d => 60 * n + d) 0
    else readBase 10 s

/-- The whole number that a text denotes. -/
def readInt (s : Points) : Except Fault Int := do
  let (negative, rest) := splitMinus (withoutBars s)
  let n ← readWhole rest
  return if negative then -n else n

/-- The number that a text denotes. -/
def readDecimal (s : Points) : Except Fault Float :=
  match s.chars?.bind Number.readSpelled? with
  | some x => .ok x
  | none => .error (.badFloat s)

/-- Parts counted by sixties, the last one first, `weight` times. -/
def sumSixties : (weight : Nat) → List Float → (sum : Float) → Except Fault Float
  | _, [], sum => .ok sum
  | weight, x :: rest, sum =>
    let factor := Float.ofNat weight
    if factor.isInf then .error .sixtiesOverflow
    else sumSixties (60 * weight) rest (sum + x * factor)

/-- The number that a text without its sign denotes; tells also whether the
sign counts. -/
def readMagnitude (s : Points) : Except Fault (Float × Bool) :=
  if s = Text.points ".inf" then .ok (1.0 / 0.0, true)
  else if s = Text.points ".nan" then .ok (0.0 / 0.0, false)
  else if s.contains (.char ':') then do
    let numbers ← (parts s).mapM readDecimal
    return (← sumSixties 1 numbers.reverse 0, true)
  else do return (← readDecimal s, true)

/-- The number with a point that a text denotes. -/
def readFloat (s : Points) : Except Fault Float := do
  let word := (withoutBars s).lower
  if word.isEmpty then throw .noDigits
  let (negative, rest) := splitMinus word
  let (x, signCounts) ← readMagnitude rest
  return if negative && signCounts then -x else x

/-! ### Bytes -/

/-- The six bits that a character stands for. -/
def sextet? (c : Char) : Option Nat :=
  if 'A' ≤ c && c ≤ 'Z' then some (c.toNat - 'A'.toNat)
  else if 'a' ≤ c && c ≤ 'z' then some (c.toNat - 'a'.toNat + 26)
  else if isDigit c then some (c.toNat - '0'.toNat + 52)
  else if c = '+' then some 62
  else if c = '/' then some 63
  else none

/-- The bytes of characters in base sixty-four.  Characters that stand for
nothing are skipped; `seen` characters of a group of four were read, which left
the bits of `carry` over, and `pads` fillers followed them.  Enough fillers end
the text. -/
def sextets (seen carry pads : Nat) : List Char → Option (List UInt8)
  | [] => if seen = 0 then some [] else none
  | c :: rest =>
    if c = '=' then
      if 2 ≤ seen ∧ 4 ≤ seen + pads + 1 then some []
      else sextets seen carry (if 2 ≤ seen then pads + 1 else pads) rest
    else match sextet? c with
      | none => sextets seen carry pads rest
      | some n =>
        match seen with
        | 0 => sextets 1 n 0 rest
        | 1 => (sextets 2 (n % 16) 0 rest).map ((4 * carry + n / 16).toUInt8 :: ·)
        | 2 => (sextets 3 (n % 4) 0 rest).map ((16 * carry + n / 4).toUInt8 :: ·)
        | _ => (sextets 0 0 0 rest).map ((64 * carry + n).toUInt8 :: ·)

/-- The bytes that a text in base sixty-four stands for. -/
def readBinary? (s : Points) : Option (List UInt8) := do
  let chars ← s.chars?
  if chars.all (·.toNat < 0x80) then sextets 0 0 0 chars else none

/-! ### Values -/

/-- The truth value that a word stands for. -/
def readBool (s : Points) : Except Fault Bool :=
  match s.chars?.map fun chars => String.ofList (chars.map Char.toLower) with
  | some "yes" | some "true" | some "on" => .ok true
  | some "no" | some "false" | some "off" => .ok false
  | _ => .error .noTruthValue

/-- The day or the moment that a text writes. -/
def readStamp (s : Points) : Except Fault Yaml :=
  match s.chars?.bind fun chars => Stamp.read? (Text.dropFinalBreak chars) with
  | none => .error .noStamp
  | some stamp =>
    match stamp.check with
    | .ok (.inl d) => .ok (.day d)
    | .ok (.inr m) => .ok (.moment m)
    | .error e => .error (.badStamp e)

/-- A fault as what ends the reading of a document. -/
def orStop : Except Fault α → Except Stop α
  | .ok a => .ok a
  | .error f => .error (.faulty f)

/-- The value of a text of some kind. -/
def value (tag : Tag) (s : Points) : Except Stop Yaml :=
  match tag with
  | .null => .ok .null
  | .bool => orStop (Yaml.bool <$> readBool s)
  | .int => orStop (Yaml.int <$> readInt s)
  | .float => orStop (Yaml.float <$> readFloat s)
  | .stamp => orStop (readStamp s)
  | .text => .ok (.text s)
  | .binary =>
    match readBinary? s with
    | some b => .ok (.bytes b)
    | none => .error .malformed
  | .list | .pairs | .set | .map | .merge | .standIn | .strange => .error .malformed

end Lox.Yaml.Scalar
