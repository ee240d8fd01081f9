/-
Places in a source text.

A `Location` is a place between two characters, told by its line and column
(both from one) and by the number of characters before it; lines are counted
by line feeds.  A `Span` is the stretch between two locations.  A `Listing`
holds the lines of a text as they are shown under a message.

* `Location.advance` — the location after one more character;
* `Location.render`, `Span.render` — their texts;
* `Listing.line?` — the shown line of a number, if there is one.
-/
import Lox.Text.Lines

namespace Lox

/-- A place in a source text. -/
structure Location where
  line : Nat := 1
  column : Nat := 1
  offset : Nat := 0
  file : Option String := none
  deriving DecidableEq, Repr, Inhabited

namespace Location

/-- The location after the character `c`. -/
def advance (l : Location) (c : Char) : Location :=
  if c = '\n' then { l with line := l.line + 1, column := 1, offset := l.offset + 1 }
  else { l with column := l.column + 1, offset := l.offset + 1 }

/-- The location after a stretch of text. -/
def advanceOver (l : Location) (text : List Char) : Location :=
  text.foldl advance l

/-- The file's name and a colon; nothing for a text without a name. -/
def fileMark (l : Location) : String :=
  match l.file with
  | some name => if name.isEmpty then "" else name ++ ":"
  | none => ""

/-- Line and column. -/
def position (l : Location) : String :=
  toString l.line ++ ":" ++ toString l.column

/-- The text of a location. -/
def render (l : Location) : String :=
  l.fileMark ++ l.position

end Location

/-- A stretch of a source text. -/
structure Span where
  start : Location
  stop : Location
  deriving DecidableEq, Repr, Inhabited

/-- The text of a span; the file is named once. -/
def Span.render (s : Span) : String :=
  s.start.fileMark ++ s.start.position ++ "-" ++ s.stop.position

/-- The lines of a text, to show under messages. -/
structure Listing where
  lines : Array String := #[]
  deriving Inhabited

namespace Listing

/-- The listing of a text. -/
def ofText (text : String) : Listing :=
  ⟨(Text.splitLines text).toArray⟩

/-- The listing that shows nothing. -/
def empty : Listing := ⟨#[]⟩

/-- The line with a number, counted from one. -/
def line? (l : Listing) (number : Nat) : Option String :=
  if number = 0 then none else l.lines[number - 1]?

end Listing

end Lox
