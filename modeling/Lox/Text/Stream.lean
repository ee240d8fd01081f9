/-
Text files read piece by piece.

The bytes of a file are fetched in portions, and what they encode is handed
out in pieces of equal length.  A portion has at least `minFetch` bytes, and
more if the last portion suggests that its characters would not fill a piece.
A character that lies across two portions is decoded with the second, and so
is a carriage return that ends a portion, since a line feed may follow it.
Bytes that cannot be decoded are counted from the beginning of their portion,
or of the character that was left over from the portion before.

* `Stream` — how far the reading has come;
* `Stream.fetch` — one more portion;
* `Stream.read` — one more piece;
* `pieces` — all pieces, and what stopped the reading early.
-/
import Lox.Text.Lines
import Lox.Text.Utf8

namespace Lox.Text

/-- How far the reading of a file has come. -/
structure Stream where
  /-- What was not fetched yet. -/
  rest : List UInt8
  /-- The beginning of a character that the last portion cut off. -/
  started : List UInt8 := []
  /-- Whether a carriage return waits for what follows it. -/
  holdsReturn : Bool := false
  /-- What was decoded and not handed out yet. -/
  ready : List Char := []
  /-- How many bytes the last portion had. -/
  byteCount : Nat := 0
  /-- How many characters the last portion gave. -/
  charCount : Nat := 0

/-- The least size of a portion. -/
def minFetch : Nat := 8192

/-- The length of a piece. -/
def pieceLength : Nat := 4096

namespace Stream

/-- The size of the next portion, of which `wanted` characters are needed. -/
def fetchSize (s : Stream) (wanted : Nat) : Nat :=
  if s.charCount = 0 then max minFetch wanted
  else max minFetch (max wanted (wanted * s.byteCount / s.charCount))

/-- Whether some bytes are the first two of an encoded surrogate. -/
def startsSurrogate : List UInt8 → Bool
  | [b, c] => b == 0xed && 0xa0 ≤ c && c ≤ 0xbf
  | _ => false

/-- The characters of a portion, and the beginning of one that is cut off,
which is an error in the last portion only.  Of a surrogate too, the end is
waited for. -/
def decodePortion (isLast : Bool) (bytes : List UInt8) :
    Except DecodeError (List Char × List UInt8) :=
  match decode bytes with
  | .ok chars => .ok (chars, [])
  | .error e =>
    let left := bytes.drop e.position
    if !isLast && (e.fault == .cutOff || startsSurrogate left) then
      (decode (bytes.take e.position)).map (·, left)
    else .error e

/-- One more portion; tells also whether there was none left. -/
def fetch (s : Stream) (wanted : Nat) : Except DecodeError (Stream × Bool) := do
  let size := s.fetchSize wanted
  let bytes := s.rest.take size
  let isLast := bytes.isEmpty
  let (chars, started) ← decodePortion isLast (s.started ++ bytes)
  let chars := if s.holdsReturn then '\r' :: chars else chars
  let holdsReturn := !isLast && chars.getLast? = some '\r'
  let chars := unifyBreaks (if holdsReturn then chars.dropLast else chars)
  return ({ rest := s.rest.drop size, started, holdsReturn, ready := s.ready ++ chars
            byteCount := bytes.length, charCount := chars.length },
          isLast && chars.isEmpty)

/-- One more piece; it is shorter only at the end of the file.  At most `fuel`
portions are fetched for it. -/
def read : (fuel : Nat) → Stream → Except DecodeError (List Char × Stream)
  | 0, s => .ok (s.ready, { s with ready := [] })
  | fuel + 1, s =>
    let count := s.ready.length
    if pieceLength ≤ count then
      .ok (s.ready.take pieceLength, { s with ready := s.ready.drop pieceLength })
    else do
      let (next, isOver) ← s.fetch (pieceLength - count)
      if isOver then return (next.ready, { next with ready := [] }) else read fuel next

/-- The pieces from here on, at most `fuel` of them. -/
def pieces : (fuel : Nat) → Stream → List (List Char) × Option DecodeError
  | 0, _ => ([], none)
  | fuel + 1, s =>
    match s.read (s.rest.length + 2) with
    | .error e => ([], some e)
    | .ok ([], _) => ([], none)
    | .ok (piece, next) =>
      let (others, error?) := pieces fuel next
      (piece :: others, error?)

end Stream

/-- The pieces of a file, and what stopped the reading early. -/
def pieces (bytes : List UInt8) : List (List Char) × Option DecodeError :=
  Stream.pieces (bytes.length + 1) { rest := bytes }

end Lox.Text
