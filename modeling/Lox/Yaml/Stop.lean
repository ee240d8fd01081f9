/-
Why a document has no value.

* `Fault` — what is written for a value gives none;
* `Stop` — what ends the reading of a document.
-/
import Lox.Text.Points
import Lox.Yaml.Moment

namespace Lox.Yaml

open Text (Points)

/-- What is written for a value gives none. -/
inductive Fault where
  | badInteger (base : Nat) (given : Points)
  | longInteger (digits : Nat)
  | badFloat (given : Points)
  | badStamp (e : StampError)
  /-- The number of a character lies beyond the last one. -/
  | pointTooLarge
  /-- The number of a character does not fit in a machine word. -/
  | pointOverflow
  /-- The parts of a number are counted by more sixties than a number holds. -/
  | sixtiesOverflow
  /-- A number without any digit. -/
  | noDigits
  /-- A word for no truth value. -/
  | noTruthValue
  /-- A word for no day and no moment. -/
  | noStamp
  deriving DecidableEq, Repr

/-- No more than this of a text is shown when it is no whole number. -/
def shownLength : Nat := 200

/-- What is said about whole numbers that are too long. -/
def tooLongMessage (detail : String) : String :=
  "Exceeds the limit (4300 digits) for integer string conversion" ++ detail
    ++ "; use sys.set_int_max_str_digits() to increase the limit"

/-- The text of a fault, for those that have one. -/
def Fault.message? : Fault → Option String
  | badInteger base given =>
    some ("invalid literal for int() with base " ++ toString base ++ ": "
      ++ String.ofList (given.quoted.toList.take shownLength))
  | longInteger digits => some (tooLongMessage (": value has " ++ toString digits ++ " digits"))
  | badFloat given => some ("could not convert string to float: " ++ given.quoted)
  | badStamp e => some e.message
  | pointTooLarge => some "chr() arg not in range(0x110000)"
  | pointOverflow | sixtiesOverflow | noDigits | noTruthValue | noStamp => none

/-- What ends the reading of a document. -/
inductive Stop where
  /-- It is no document. -/
  | malformed
  /-- Its value cannot be made. -/
  | faulty (f : Fault)
  /-- More text is needed than could be read. -/
  | starved
  deriving DecidableEq, Repr

end Lox.Yaml
