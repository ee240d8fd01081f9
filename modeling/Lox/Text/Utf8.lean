/-
Bytes read as UTF-8.

A text is accepted only if every character is encoded in the one shortest way
and is no surrogate.  A refusal tells which bytes could not be read: a byte
that begins no character, the beginning of a character that goes on wrongly,
or one that the end of the text cuts off.

* `decode` — the text of some bytes, or the first refusal;
* `DecodeError.message` — the text of a refusal.
-/
import Lox.Text.Quoted

namespace Lox.Text

/-- What is wrong with some bytes. -/
inductive DecodeFault where
  | badStart
  | badContinuation
  | cutOff
  deriving DecidableEq, Repr

/-- Bytes that could not be read: the first of them, its position, and how many
there are. -/
structure DecodeError where
  byte : UInt8
  position : Nat
  length : Nat
  fault : DecodeFault
  deriving DecidableEq, Repr

/-- The words for what is wrong. -/
def DecodeFault.reason : DecodeFault → String
  | badStart => "invalid start byte"
  | badContinuation => "invalid continuation byte"
  | cutOff => "unexpected end of data"

/-- The text of a refusal. -/
def DecodeError.message (e : DecodeError) : String :=
  "'utf-8' codec can't decode "
    ++ (if e.length = 1 then
          "byte 0x" ++ String.ofList (hexDigits 2 e.byte.toNat)
            ++ " in position " ++ toString e.position
        else "bytes in position " ++ toString e.position ++ "-"
          ++ toString (e.position + e.length - 1))
    ++ ": " ++ e.fault.reason

/-- What a first byte announces: the bits of the character that it holds, the
range of the second byte, and the number of bytes after the first. -/
structure Lead where
  bits : Nat
  low : Nat := 0x80
  high : Nat := 0xbf
  more : Nat

/-- The announcement of a first byte above ASCII.  The narrower ranges leave
out longer encodings of small characters, surrogates, and what lies beyond the
last character. -/
def lead? (b : Nat) : Option Lead :=
  if b < 0xc2 then none
  else if b < 0xe0 then some { bits := b - 0xc0, more := 1 }
  else if b = 0xe0 then some { bits := 0, low := 0xa0, more := 2 }
  else if b = 0xed then some { bits := 0xd, high := 0x9f, more := 2 }
  else if b < 0xf0 then some { bits := b - 0xe0, more := 2 }
  else if b = 0xf0 then some { bits := 0, low := 0x90, more := 3 }
  else if b < 0xf4 then some { bits := b - 0xf0, more := 3 }
  else if b = 0xf4 then some { bits := 4, high := 0x8f, more := 3 }
  else none

/-- Reads the bytes that follow a first byte; `seen` bytes of the character are
read.  Gives the character's number, or what is wrong and after how many
bytes. -/
def continuation (seen value low high : Nat) : (more : Nat) → List UInt8 →
    Except (DecodeFault × Nat) Nat
  | 0, _ => .ok value
  | _ + 1, [] => .error (.cutOff, seen)
  | more + 1, b :: rest =>
    if low ≤ b.toNat ∧ b.toNat ≤ high then
      continuation (seen + 1) (value * 0x40 + (b.toNat - 0x80)) 0x80 0xbf more rest
    else .error (.badContinuation, seen)

/-- Reads bytes from a position on, after the characters of `done`, last one
first. -/
def decodeFrom (done : List Char) (position : Nat) :
    (bytes : List UInt8) → Except DecodeError (List Char)
  | [] => .ok done.reverse
  | b :: rest =>
    if b.toNat < 0x80 then decodeFrom (Char.ofNat b.toNat :: done) (position + 1) rest
    else match lead? b.toNat with
    | none => .error ⟨b, position, 1, .badStart⟩
    | some l =>
      match continuation 1 l.bits l.low l.high l.more rest with
      | .ok value =>
        decodeFrom (Char.ofNat value :: done) (position + 1 + l.more) (rest.drop l.more)
      | .error (fault, length) => .error ⟨b, position, length, fault⟩
termination_by bytes => bytes.length
decreasing_by all_goals simp only [List.length_cons, List.length_drop]; omega

/-- The characters that some bytes encode. -/
def decode (bytes : List UInt8) : Except DecodeError (List Char) :=
  decodeFrom [] 0 bytes

end Lox.Text
