/-
JSON as text.

Members and elements stand on lines of their own, two blanks further in than
what holds them; empty objects and lists are closed at once.  All characters
but the printable ones of ASCII are escaped.

* `Json` — what is written;
* `Json.render` — its text.
-/
import Lox.Text.Quoted

namespace Lox

/-- A JSON value, as far as reports need one. -/
inductive Json where
  | number (n : Nat)
  | text (s : String)
  | list (items : List Json)
  | object (members : List (String × Json))

namespace Json

/-- A 16-bit unit, escaped by its number. -/
def escapeUnit (n : Nat) : List Char :=
  '\\' :: 'u' :: Text.hexDigits 4 n

/-- One character of a text.  Characters that need two 16-bit units are written
as both. -/
def escapeChar (c : Char) : List Char :=
  let n := c.toNat
  if c = '"' ∨ c = '\\' then ['\\', c]
  else if c = '\n' then ['\\', 'n']
  else if c = '\r' then ['\\', 'r']
  else if c = '\t' then ['\\', 't']
  else if n = 0x08 then ['\\', 'b']
  else if n = 0x0c then ['\\', 'f']
  else if 0x20 ≤ n ∧ n ≤ 0x7e then [c]
  else if n < 0x10000 then escapeUnit n
  else escapeUnit (0xd800 + (n - 0x10000) / 0x400) ++ escapeUnit (0xdc00 + (n - 0x10000) % 0x400)

/-- A text in quotes. -/
def renderText (s : String) : String :=
  String.ofList ('"' :: s.toList.flatMap escapeChar ++ ['"'])

/-- Items on lines of their own between two brackets. -/
def renderLines (indent : Nat) (openMark closeMark : String) (items : List String) : String :=
  match items with
  | [] => openMark ++ closeMark
  | _ =>
    let line := "\n".pushn ' ' (indent + 2)
    openMark ++ line ++ ("," ++ line).intercalate items ++ "\n".pushn ' ' indent ++ closeMark

mutual

/-- The text of a value that is indented by `indent` blanks. -/
def renderAt (indent : Nat) : Json → String
  | number n => toString n
  | text s => renderText s
  | list items => renderLines indent "[" "]" (renderItems (indent + 2) items)
  | object members =>
    renderLines indent "\x7b" "\x7d" (renderMembers (indent + 2) members)

/-- The texts of the elements of a list. -/
def renderItems (indent : Nat) : List Json → List String
  | [] => []
  | j :: rest => renderAt indent j :: renderItems indent rest

/-- The texts of the members of an object. -/
def renderMembers (indent : Nat) : List (String × Json) → List String
  | [] => []
  | (key, j) :: rest =>
    (renderText key ++ ": " ++ renderAt indent j) :: renderMembers indent rest

end

/-- The text of a value. -/
def render (j : Json) : String :=
  j.renderAt 0

end Json

end Lox
