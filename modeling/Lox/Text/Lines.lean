/-
Lines of a text, as they are shown under a message.

Positions in a source count line feeds only.  The line that is *shown* for a
position is cut at every boundary a reader would take for one: line feed,
carriage return (a carriage return and a line feed are one boundary), vertical
tab, form feed, the three ASCII separators, next line, and the line and
paragraph separators.

* `splitLines` — the lines of a text, without their boundaries; nothing
  follows a final boundary;
* `unifyBreaks` — every carriage return, with its line feed if it has one,
  read as a line feed;
* `dropFinalBreak` — a text without a line feed at its end.
-/
namespace Lox.Text

/-- Whether a character ends a shown line. -/
def isLineBreak (c : Char) : Bool :=
  let n := c.toNat
  (0x0a ≤ n && n ≤ 0x0d) || (0x1c ≤ n && n ≤ 0x1e) || n == 0x85
    || n == 0x2028 || n == 0x2029

/-- The lines of `rest`, the first of which has already begun with the
characters of `line`, last one first. -/
def splitLinesFrom (line : List Char) : (rest : List Char) → List (List Char)
  | [] => if line.isEmpty then [] else [line.reverse]
  | '\r' :: '\n' :: rest => line.reverse :: splitLinesFrom [] rest
  | c :: rest =>
    if isLineBreak c then line.reverse :: splitLinesFrom [] rest
    else splitLinesFrom (c :: line) rest

/-- The lines of a text. -/
def splitLines (s : String) : List String :=
  (splitLinesFrom [] s.toList).map String.ofList

/-- The characters of `done`, last one first, followed by `rest` with every
kind of line end that files use read as a line feed. -/
def unifyBreaksFrom (done : List Char) : (rest : List Char) → List Char
  | [] => done.reverse
  | '\r' :: '\n' :: rest => unifyBreaksFrom ('\n' :: done) rest
  | c :: rest => unifyBreaksFrom ((if c = '\r' then '\n' else c) :: done) rest

/-- Reads every kind of line end that files use as a line feed. -/
def unifyBreaks (s : List Char) : List Char :=
  unifyBreaksFrom [] s

/-- A text without a line feed at its end. -/
def dropFinalBreak (s : List Char) : List Char :=
  if s.getLast? = some '\n' then s.dropLast else s

end Lox.Text
