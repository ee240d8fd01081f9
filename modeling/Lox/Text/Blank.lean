/-
Blank characters.

* `isBlank` — the characters that carry no ink: spaces, tabs, line boundaries
  and the separators of every script;
* `stripChars` — a text without the blanks at its two ends.
-/
namespace Lox.Text

/-- Whether a character is blank. -/
def isBlank (c : Char) : Bool :=
  let n := c.toNat
  (0x09 ≤ n && n ≤ 0x0d) || (0x1c ≤ n && n ≤ 0x20) || n == 0x85 || n == 0xa0
    || n == 0x1680 || (0x2000 ≤ n && n ≤ 0x200a) || n == 0x2028 || n == 0x2029
    || n == 0x202f || n == 0x205f || n == 0x3000

/-- A list without the elements of a kind at its two ends. -/
def trimWhere (p : α → Bool) (s : List α) : List α :=
  ((s.dropWhile p).reverse.dropWhile p).reverse

/-- A list of characters without the blanks at its two ends. -/
def stripChars (s : List Char) : List Char :=
  trimWhere isBlank s

end Lox.Text
