/-
Texts written between quotes.

A text is quoted with `'`, or with `"` when it holds a `'` and no `"`.  The
quote in use and the backslash are escaped by a backslash, line feed, carriage
return and tab have escapes of their own, and any other unprintable character
is written by its number: two hexadecimal digits after `\x`, four after `\u`
or eight after `\U`, whichever is the shortest that holds it.

* `quoted` — the quoted form of a text.
-/
import Lox.Text.Printable

namespace Lox.Text

/-- A number in hexadecimal, filled up with zeros to `width` digits. -/
def hexDigits (width n : Nat) : List Char :=
  let digits := Nat.toDigits 16 n
  List.replicate (width - digits.length) '0' ++ digits

/-- An unprintable character, written by its number. -/
def numbered (c : Char) : List Char :=
  let n := c.toNat
  if n < 0x100 then '\\' :: 'x' :: hexDigits 2 n
  else if n < 0x10000 then '\\' :: 'u' :: hexDigits 4 n
  else '\\' :: 'U' :: hexDigits 8 n

/-- One character inside quotes. -/
def quotedChar (quote c : Char) : List Char :=
  if c = quote ∨ c = '\\' then ['\\', c]
  else if c = '\n' then ['\\', 'n']
  else if c = '\r' then ['\\', 'r']
  else if c = '\t' then ['\\', 't']
  else if isPrintable c then [c]
  else numbered c

/-- The quote a text is written with. -/
def quoteFor (s : List Char) : Char :=
  if s.contains '\'' && !s.contains '"' then '"' else '\''

/-- The quoted form of a text. -/
def quoted (s : String) : String :=
  let chars := s.toList
  let quote := quoteFor chars
  String.ofList (quote :: chars.flatMap (quotedChar quote) ++ [quote])

end Lox.Text
