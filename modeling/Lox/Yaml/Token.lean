/-
The tokens of a document.

Indentation is told by tokens of its own: a list or a mapping in block form
begins with one, and ends with `blockEnd`.  A key is announced by `key`, also
where no character of the document does so.

* `Directive` — what a line with a percent sign says;
* `Token` — the tokens.
-/
import Lox.Text.Points

namespace Lox.Yaml

/-- What a line with a percent sign says. -/
inductive Directive where
  /-- The version of the language, of which the first number counts. -/
  | version (major : Nat)
  /-- What a handle stands for in marks. -/
  | handle (handle stem : String)
  | other
  deriving DecidableEq, Repr

/-- The tokens of a document. -/
inductive Token where
  | directive (d : Directive)
  | documentStart
  | documentEnd
  | textEnd
  | blockListStart
  | blockMapStart
  | blockEnd
  | flowListStart
  | flowListEnd
  | flowMapStart
  | flowMapEnd
  /-- The dash before an element of a list in block form. -/
  | dash
  | comma
  | key
  | value
  | reference (name : String)
  | anchor (name : String)
  /-- The mark of a kind: a handle, and what follows it. -/
  | tag (handle : Option String) (suffix : String)
  | scalar (text : Text.Points) (isPlain : Bool)
  deriving DecidableEq, Repr

end Lox.Yaml
