/-
Texts with halves of characters.

A document can name the halves of surrogate pairs one by one.  Such a half
stands for no character, so a text that may hold some is a list of points
rather than a string.

* `Point`, `Points` — a character or a half, and texts of them;
* `points` — the points of a string;
* `Points.chars?` — the characters, if no point is a half;
* `Points.quoted`, `Points.upper` — the quoted and the upper-case form; on the
  points of a string they are those of the string (`quoted_points`);
* `Points.lower` — the lower-case form.
-/
import Lox.Text.Cased
import Lox.Text.Lower
import Lox.Text.Quoted
import Lox.Text.Upper

namespace Lox.Text

/-- A character, or half of a surrogate pair. -/
inductive Point where
  | char (c : Char)
  | half (n : Nat)
  deriving DecidableEq, Repr

/-- A text of characters and halves. -/
abbrev Points := List Point

/-- The points of a string. -/
def points (s : String) : Points :=
  s.toList.map .char

namespace Point

/-- The point of a number: a character if it is the number of one. -/
def ofNat (n : Nat) : Point :=
  if n.isValidChar then .char (Char.ofNat n) else .half n

/-- The character of a point. -/
def char? : Point → Option Char
  | char c => some c
  | half _ => none

/-- One point inside quotes; a half is written by its number. -/
def quoted (quote : Char) : Point → List Char
  | char c => quotedChar quote c
  | half n => '\\' :: 'u' :: hexDigits 4 n

/-- The upper-case form of a point. -/
def upper : Point → Points
  | char c => (upperChar c).map .char
  | half n => [.half n]

/-- The lower-case form of a point, which is no capital sigma. -/
def lower : Point → Points
  | char c => (lowerChar c).map .char
  | half n => [.half n]

end Point

namespace Points

/-- The characters of a text without halves. -/
def chars? (s : Points) : Option (List Char) :=
  s.mapM Point.char?

/-- The characters of a text, without its halves. -/
def chars (s : Points) : List Char :=
  s.filterMap Point.char?

/-- The quoted form of a text. -/
def quoted (s : Points) : String :=
  let quote := quoteFor s.chars
  String.ofList (quote :: s.flatMap (Point.quoted quote) ++ [quote])

/-- The upper-case form of a text. -/
def upper (s : Points) : Points :=
  s.flatMap Point.upper

/-- Whether the first point that is not skipped is a letter with case. -/
def beginsCased (s : Points) : Bool :=
  ((s.dropWhile (·.char?.any isSkipped)).head?.bind Point.char?).any isCased

/-- The capital sigma, whose lower-case form depends on its place. -/
def sigma : Point := .char 'Σ'

/-- The small sigma between `before`, which is given backwards, and `after`.  It
has its final form at the end of a word. -/
def smallSigma (before after : Points) : Point :=
  if beginsCased before && !beginsCased after then .char 'ς' else .char 'σ'

/-- The lower-case form of what follows `before`, which is given backwards. -/
def lowerAfter (before : Points) : Points → Points
  | [] => []
  | p :: rest =>
    (if p = sigma then [smallSigma before rest] else p.lower) ++ lowerAfter (p :: before) rest

/-- The lower-case form of a text. -/
def lower (s : Points) : Points :=
  lowerAfter [] s

end Points

@[simp]
theorem chars_points (s : String) : (points s).chars = s.toList := by
  simp [points, Points.chars, List.filterMap_map, Function.comp_def, Point.char?]

/-- A string is quoted as its points are. -/
theorem quoted_points (s : String) : (points s).quoted = quoted s := by
  simp [Points.quoted, quoted, points, Points.chars, List.filterMap_map, Function.comp_def,
    Point.char?, List.flatMap_map, Point.quoted]

/-- The upper-case form of a string has the points of the string's. -/
theorem upper_points (s : String) : (points s).upper = points (upper s) := by
  simp [Points.upper, upper, points, List.flatMap_map, Point.upper, List.map_flatMap]

end Lox.Text
