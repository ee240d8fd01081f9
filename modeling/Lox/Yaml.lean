/-
The values of a settings file.

* `Yaml` — what a document can hold;
* `Yaml.isFalsy` — the values that count as no settings at all;
* `Yaml.isScalar`, `Yaml.sameKey`, `Yaml.putEntry` — keys and entries of
  mappings;
* `Yaml.render` — the text of a value in a message;
* `Yaml.isShowable` — whether that text can be made.
-/
import Lox.Number.Written
import Lox.Text.Integer
import Lox.Text.Points
import Lox.Yaml.Moment

namespace Lox

open Text (Points)

/-- What a document can hold. -/
inductive Yaml where
  | null
  | bool (b : Bool)
  | int (n : Int)
  | float (x : Float)
  | day (d : Yaml.Day)
  | moment (m : Yaml.Moment)
  | text (s : Points)
  | bytes (b : List UInt8)
  | list (items : List Yaml)
  /-- A list of pairs. -/
  | pairs (entries : List (Yaml × Yaml))
  | set (keys : List Yaml)
  | map (entries : List (Yaml × Yaml))
  /-- A list, or else a mapping, that holds this place itself. -/
  | loop (isList : Bool)
  deriving Inhabited

namespace Yaml

/-- Whether a value counts as no settings at all. -/
def isFalsy : Yaml → Bool
  | null => true
  | bool b => !b
  | int n => n == 0
  | float x => x == 0
  | text s => s.isEmpty
  | bytes b => b.isEmpty
  | list items => items.isEmpty
  | pairs entries | map entries => entries.isEmpty
  | set keys => keys.isEmpty
  | day _ | moment _ | loop _ => false

/-! ### Keys -/

/-- Whether a value can be a key. -/
def isScalar : Yaml → Bool
  | list _ | pairs _ | set _ | map _ | loop _ => false
  | _ => true

/-- The whole number that a key is compared by; truth values count as one and
zero. -/
def asWhole? : Yaml → Option Int
  | bool b => some (if b then 1 else 0)
  | int n => some n
  | float x =>
    let view := Binary64.ofFloat x
    if view.isWhole then view.truncate? else none
  | _ => none

/-- Whether two keys are the same. -/
def sameKey (a b : Yaml) : Bool :=
  match a, b with
  | null, null => true
  | text s, text t => s == t
  | bytes s, bytes t => s == t
  | day d, day e => d == e
  | moment m, moment n => m.same n
  | float x, float y => x == y || (x.isNaN && y.isNaN)
  | _, _ =>
    match a.asWhole?, b.asWhole? with
    | some m, some n => m == n
    | _, _ => false

/-- Entries after one more: the value of a key that is there already is
replaced, and keeps its place. -/
def putEntry (key value : Yaml) : List (Yaml × Yaml) → List (Yaml × Yaml)
  | [] => [(key, value)]
  | (k, old) :: rest =>
    if sameKey k key then (k, value) :: rest else (k, old) :: putEntry key value rest

/-! ### Texts of values -/

/-- A byte between quotes. -/
def quotedByte (quote : Char) (b : UInt8) : List Char :=
  let c := Char.ofNat b.toNat
  if c.toNat < 0x80 then Text.quotedChar quote c
  else '\\' :: 'x' :: Text.hexDigits 2 b.toNat

/-- The text of bytes in a message. -/
def renderBytes (b : List UInt8) : String :=
  let quote := Text.quoteFor (b.map fun x => Char.ofNat x.toNat)
  String.ofList ('b' :: quote :: b.flatMap (quotedByte quote) ++ [quote])

mutual

/-- The text of a value in a message. -/
def render : Yaml → String
  | null => "None"
  | bool b => if b then "True" else "False"
  | int n => toString n
  | float x => Number.write .literal x
  | day d => d.render
  | moment m => m.render
  | text s => s.quoted
  | bytes b => renderBytes b
  | list items => "[" ++ ", ".intercalate (renderItems items) ++ "]"
  | pairs entries => "[" ++ ", ".intercalate (renderPairs entries) ++ "]"
  | set [] => "set()"
  | set keys => "\x7b" ++ ", ".intercalate (renderItems keys) ++ "\x7d"
  | map entries => "\x7b" ++ ", ".intercalate (renderEntries entries) ++ "\x7d"
  | loop isList => if isList then "[...]" else "\x7b...\x7d"

/-- The texts of several values. -/
def renderItems : List Yaml → List String
  | [] => []
  | y :: rest => render y :: renderItems rest

/-- The texts of several pairs. -/
def renderPairs : List (Yaml × Yaml) → List String
  | [] => []
  | (k, v) :: rest => ("(" ++ render k ++ ", " ++ render v ++ ")") :: renderPairs rest

/-- The texts of several entries. -/
def renderEntries : List (Yaml × Yaml) → List String
  | [] => []
  | (k, v) :: rest => (render k ++ ": " ++ render v) :: renderEntries rest

end

/-- Whether a whole number is short enough to be written in base ten. -/
def isShortInt (n : Int) : Bool :=
  n.natAbs < Nat.pow 10 Text.maxDigits

mutual

/-- Whether the text of a value can be made: no whole number in it is too
long. -/
def isShowable : Yaml → Bool
  | int n => isShortInt n
  | list items | set items => areShowable items
  | pairs entries | map entries => areEntriesShowable entries
  | _ => true

/-- Whether the texts of several values can be made. -/
def areShowable : List Yaml → Bool
  | [] => true
  | y :: rest => isShowable y && areShowable rest

/-- Whether the texts of several entries can be made. -/
def areEntriesShowable : List (Yaml × Yaml) → Bool
  | [] => true
  | (k, v) :: rest => isShowable k && isShowable v && areEntriesShowable rest

end

end Yaml

end Lox
