/-
From text to tokens.

A source is cut into segments from left to right, without a gap: each segment
is blank (white space or a comment), a token, or a mistake.  What a segment is
depends only on the text from its first character on; its place follows from
the text before it.

* `readPiece` — what the segment at the front of a text is, and its length;
* `segments` — the segments of a text;
* `scan` — the tokens of a text, closed by the end of input, and a report of
  the mistakes.
-/
import Lox.Diagnostic
import Lox.Token

namespace Lox.Token

/-- What can be wrong with a stretch of text. -/
inductive Mistake where
  | unexpected (c : Char)
  | unterminatedString
  | unterminatedComment
  deriving DecidableEq, Repr

namespace Mistake

/-- The code of a mistake. -/
def code : Mistake → String
  | unexpected _ => "E001"
  | unterminatedString => "E002"
  | unterminatedComment => "E004"

/-- The text of a mistake. -/
def message : Mistake → String
  | unexpected c => "Unexpected character '" ++ String.singleton c ++ "'."
  | unterminatedString => "Unterminated string."
  | unterminatedComment => "Unterminated block comment (expected closing */)."

/-- The hints that go with a mistake. -/
def hints : Mistake → List String
  | unterminatedString => ["string literals must be closed with '\"' on the same line"]
  | _ => []

/-- The diagnostic for a mistake at a place. -/
def diagnose (m : Mistake) (span : Span) (sourceLine : Option String) : Diagnostic :=
  { code := m.code, message := m.message, span, sourceLine, hints := m.hints }

end Mistake

/-- What a stretch of text is. -/
inductive Piece where
  | blank
  | token (kind : Kind) (literal : Literal)
  | mistake (m : Mistake)

/-! ### Character classes -/

/-- Whether a character is an ASCII digit. -/
def isDigit (c : Char) : Bool :=
  '0' ≤ c && c ≤ '9'

/-- Whether a character can begin a word. -/
def isWordStart (c : Char) : Bool :=
  ('a' ≤ c && c ≤ 'z') || ('A' ≤ c && c ≤ 'Z') || c == '_'

/-- Whether a character can continue a word. -/
def isWordPart (c : Char) : Bool :=
  isWordStart c || isDigit c

/-- Whether a character is white space between tokens. -/
def isSpace (c : Char) : Bool :=
  c == ' ' || c == '\r' || c == '\t' || c == '\n'

/-- The kinds that one character makes, whatever follows it. -/
def single? : Char → Option Kind
  | '(' => some .leftParen
  | ')' => some .rightParen
  | '\x7b' => some .leftBrace
  | '\x7d' => some .rightBrace
  | ',' => some .comma
  | '.' => some .dot
  | '-' => some .minus
  | '+' => some .plus
  | ';' => some .semicolon
  | '*' => some .star
  | _ => none

/-- The kinds that a character makes alone, and together with a following
equals sign. -/
def pair? : Char → Option (Kind × Kind)
  | '!' => some (.bang, .bangEqual)
  | '=' => some (.equal, .equalEqual)
  | '<' => some (.less, .lessEqual)
  | '>' => some (.greater, .greaterEqual)
  | _ => none

/-! ### One segment

Each reader takes the text after the first character of a segment, and tells
what the segment is and how many more characters belong to it. -/

/-- The length of a text up to the end of a block comment, if it has one, with
`before` characters already counted. -/
def commentLength (before : Nat) : List Char → Option Nat
  | '*' :: '/' :: _ => some (before + 2)
  | _ :: rest => commentLength (before + 1) rest
  | [] => none

/-- After a slash: a comment to the end of the line, a block comment, or the
slash alone. -/
def readSlash : List Char → Piece × Nat
  | '/' :: rest => (.blank, 1 + (rest.takeWhile (· != '\n')).length)
  | '*' :: rest =>
    match commentLength 1 rest with
    | some n => (.blank, n)
    | none => (.mistake .unterminatedComment, 1 + rest.length)
  | _ => (.token .slash .nil, 0)

/-- After a quote: the text up to the next quote.  A line feed before it
abandons the string, and is not part of it. -/
def readString (rest : List Char) : Piece × Nat :=
  let body := rest.takeWhile fun c => c != '"' && c != '\n'
  match rest.drop body.length with
  | '"' :: _ => (.token .string (.text (String.ofList body)), body.length + 1)
  | _ => (.mistake .unterminatedString, body.length)

/-- After the digit `c`: more digits, and a fraction if a digit follows the
point. -/
def readNumber (c : Char) (rest : List Char) : Piece × Nat :=
  let whole := rest.takeWhile isDigit
  match rest.drop whole.length with
  | '.' :: after =>
    let fraction := after.takeWhile isDigit
    if fraction.isEmpty then
      (.token .number (.number (Number.ofDigits (c :: whole) [])), whole.length)
    else
      (.token .number (.number (Number.ofDigits (c :: whole) fraction)),
        whole.length + 1 + fraction.length)
  | _ => (.token .number (.number (Number.ofDigits (c :: whole) [])), whole.length)

/-- After the letter `c`: the rest of a word. -/
def readWord (c : Char) (rest : List Char) : Piece × Nat :=
  let tail := rest.takeWhile isWordPart
  let kind := Kind.ofWord (String.ofList (c :: tail))
  (.token kind kind.literal, tail.length)

/-- What the segment that begins with `c` is, and how many characters of
`rest` belong to it. -/
def readPiece (c : Char) (rest : List Char) : Piece × Nat :=
  if isSpace c then (.blank, 0)
  else match single? c with
  | some kind => (.token kind .nil, 0)
  | none =>
    match pair? c with
    | some (alone, withEqual) =>
      if rest.head? = some '=' then (.token withEqual .nil, 1)
      else (.token alone .nil, 0)
    | none =>
      if c = '/' then readSlash rest
      else if c = '"' then readString rest
      else if isDigit c then readNumber c rest
      else if isWordStart c then readWord c rest
      else (.mistake (.unexpected c), 0)

/-! ### The whole text -/

/-- A stretch of text with what it is. -/
structure Segment where
  piece : Piece
  text : List Char

/-- The segments of a text, after those already `found`. -/
def segmentsFrom (found : Array Segment) : (text : List Char) → Array Segment
  | [] => found
  | c :: rest =>
    let (piece, more) := readPiece c rest
    segmentsFrom (found.push ⟨piece, c :: rest.take more⟩) (rest.drop more)
termination_by text => text.length
decreasing_by simp only [List.length_drop, List.length_cons]; omega

/-- The segments of a text. -/
def segments (text : List Char) : Array Segment :=
  segmentsFrom #[] text

/-- How far scanning has come: the place, and what was found before it. -/
structure Progress where
  place : Location
  tokens : Array Token := #[]
  report : Report

/-- Scanning goes on over one segment. -/
def Progress.step (listing : Listing) (p : Progress) (s : Segment) : Progress :=
  let next := p.place.advanceOver s.text
  let span := ⟨p.place, next⟩
  match s.piece with
  | .blank => { p with place := next }
  | .token kind literal =>
    { p with
      place := next
      tokens := p.tokens.push { kind, lexeme := String.ofList s.text, literal, span } }
  | .mistake m =>
    { p with
      place := next
      report := p.report.add (m.diagnose span (listing.line? p.place.line)) }

/-- The token at the end of a text. -/
def endAt (place : Location) : Token :=
  { kind := .endOfInput, span := ⟨place, place⟩ }

/-- The tokens of a text, the last of which is the end of input, and a report
that goes on from `report` with the mistakes. -/
def scan (source : String) (file : Option String) (report : Report) :
    Array Token × Report :=
  let listing := Listing.ofText source
  let p := (segments source.toList).foldl (Progress.step listing)
    { place := { file }, report }
  (p.tokens.push (endAt p.place), p.report)

end Lox.Token
