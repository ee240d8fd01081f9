/-
The value of a document.

The values of a document are made level by level from the outside in, and the
first that cannot be made stops the reading.  A list, a mapping or anything
else with several parts is made when its level is done, so what is wrong with
its parts is found later than what is wrong beside it.

* `Document.flatten` — the entries of a mapping with what is merged into it;
* `Document.check` — whether all values can be made, in that order;
* `Document.value` — the value of a node;
* `Yaml.read` — the value of a text;
* `Legible`, `Legible.ofFile` — what can be read of a file.
-/
import Lox.Text.Stream
import Lox.Yaml.Node
import Lox.Yaml.Scalar

namespace Lox.Yaml

open Text (Points)

/-- Whether values of a kind have parts. -/
def Tag.hasParts : Tag → Bool
  | list | pairs | set | map => true
  | _ => false

/-- The kind of a node. -/
def Node.tag : Node → Tag
  | scalar tag _ | list _ tag _ | map _ tag _ => tag
  | reference _ => .strange

/-- The place of a list or a mapping. -/
def Node.place? : Node → Option Nat
  | list place _ _ | map place _ _ => some place
  | _ => none

namespace Document

/-- The node itself, or the one with the name that stands for it. -/
def resolve (d : Document) : Node → Node
  | .reference name => (d.named.lookup name).getD .empty
  | n => n

/-- More than the number of nodes that can lie inside each other, when a node
is followed through names but not into itself. -/
def depth (d : Document) : Nat :=
  (d.size + 1) * (d.size + 1)

/-! ### Mappings -/

/-- An entry whose key is not merged; the key that stands for a mapping is a
text here. -/
def plainEntry (d : Document) (entry : Node × Node) : Node × Node :=
  match d.resolve entry.1 with
  | .scalar .standIn word => (.scalar .text word, entry.2)
  | _ => entry

/-- Whether an entry is merged into the mapping that holds it. -/
def isMerged (d : Document) (entry : Node × Node) : Bool :=
  (d.resolve entry.1).tag == .merge

/-- The entries of mappings that are merged into the one that holds them: those
of a mapping, or those of several, the last of them first.  A mapping that is
merged into itself adds nothing. -/
def merged (d : Document)
    (flatten : List Nat → List (Node × Node) → Except Stop (List (Node × Node)))
    (inside : List Nat) (value : Node) : Except Stop (List (Node × Node)) :=
  let entriesOf (n : Node) : Except Stop (List (Node × Node)) :=
    match d.resolve n with
    | .map place _ entries =>
      if inside.contains place then .ok [] else flatten (place :: inside) entries
    | _ => .error .malformed
  match d.resolve value with
  | .list _ _ items => return (← items.mapM entriesOf).reverse.flatten
  | n => entriesOf n

/-- The entries of a mapping, after those that are merged into it; `inside` are
the places of the mappings that it is merged into. -/
def flatten (d : Document) : (fuel : Nat) → (inside : List Nat) → List (Node × Node) →
    Except Stop (List (Node × Node))
  | 0, _, _ => .error .malformed
  | fuel + 1, inside, entries => do
    let (mergedOnes, own) := entries.partition d.isMerged
    let first ← mergedOnes.mapM fun e => merged d (flatten d fuel) inside e.2
    return first.flatten ++ own.map d.plainEntry

/-- The entries of a mapping at some place, after those that are merged into
it. -/
def entries (d : Document) (place : Nat) (own : List (Node × Node)) :
    Except Stop (List (Node × Node)) :=
  d.flatten d.depth [place] own

/-! ### Scalars -/

/-- The text of a scalar, or of what stands for a mapping. -/
def scalarText? (d : Document) : (fuel : Nat) → Node → Option Points
  | 0, _ => none
  | fuel + 1, n =>
    match d.resolve n with
    | .scalar _ word => some word
    | .map _ _ entries =>
      (entries.find? fun e => (d.resolve e.1).tag == .standIn).bind fun e =>
        scalarText? d fuel e.2
    | _ => none

/-- The value of a node of a kind without parts. -/
def scalarValue (d : Document) (n : Node) : Except Stop Yaml :=
  match d.scalarText? d.depth n with
  | some word => Scalar.value n.tag word
  | none => .error .malformed

/-! ### Whether values can be made -/

/-- What is begun: the nodes whose parts are not, in order, and the places of
all lists and mappings that were begun. -/
structure Begun where
  waiting : List Node := []
  places : List Nat := []

/-- Begins a value.  One without parts is made at once. -/
def beginValue (d : Document) (b : Begun) (n : Node) : Except Stop Begun :=
  let n := d.resolve n
  if n.place?.any b.places.contains then .ok b
  else
    let b := { b with places := n.place?.toList ++ b.places }
    if n.tag.hasParts then .ok { b with waiting := b.waiting ++ [n] }
    else (d.scalarValue n).map fun _ => b

/-- Begins the key and the value of an entry. -/
def beginEntry (d : Document) (b : Begun) (entry : Node × Node) : Except Stop Begun := do
  let b ← d.beginValue b entry.1
  d.beginValue b entry.2

/-- Begins the key and the value of an entry of a mapping; the key has no
parts. -/
def beginKeyed (d : Document) (b : Begun) (entry : Node × Node) : Except Stop Begun := do
  let b ← d.beginValue b entry.1
  if (d.resolve entry.1).tag.hasParts then throw .malformed
  d.beginValue b entry.2

/-- The only entry of a mapping that stands for a pair. -/
def pair (d : Document) (n : Node) : Except Stop (Node × Node) :=
  match d.resolve n with
  | .map _ _ [entry] => .ok entry
  | _ => .error .malformed

/-- Begins the parts of a value. -/
def beginParts (d : Document) (b : Begun) (n : Node) : Except Stop Begun :=
  match n with
  | .list _ .list items => items.foldlM d.beginValue b
  | .list _ .pairs items => items.foldlM (fun b n => do d.beginEntry b (← d.pair n)) b
  | .map place .map own | .map place .set own => do
    (← d.entries place own).foldlM d.beginKeyed b
  | _ => .error .malformed

/-- Begins the parts of all values that wait, at most `fuel` of them. -/
def beginAll (d : Document) : (fuel : Nat) → Begun → Except Stop Unit
  | 0, _ => .ok ()
  | fuel + 1, b =>
    match b.waiting with
    | [] => .ok ()
    | n :: waiting => do beginAll d fuel (← d.beginParts { b with waiting } n)

/-- Finds the first value that cannot be made. -/
def check (d : Document) (root : Node) : Except Stop Unit := do
  d.beginAll d.depth (← d.beginValue {} root)

/-! ### Values -/

/-- The value of a node without parts, which can be made. -/
def scalarOrNull (d : Document) (n : Node) : Yaml :=
  ((d.scalarValue n).toOption).getD .null

/-- The value of a node all of whose values can be made; `inside` are the places
of the nodes that hold it. -/
def value (d : Document) : (fuel : Nat) → (inside : List Nat) → Node → Yaml
  | 0, _, _ => .null
  | fuel + 1, inside, n =>
    let n := d.resolve n
    let inner := n.place?.toList ++ inside
    let both (e : Node × Node) : Yaml × Yaml :=
      (value d fuel inner e.1, value d fuel inner e.2)
    let keyed (place : Nat) (own : List (Node × Node)) : List (Yaml × Yaml) :=
      (((d.entries place own).toOption.getD []).map both).foldl
        (fun found e => putEntry e.1 e.2 found) []
    if n.place?.any inside.contains && n.tag.hasParts then
      .loop (n.tag == .list || n.tag == .pairs)
    else match n with
    | .list _ .list items => .list (items.map (value d fuel inner))
    | .list _ .pairs items => .pairs (items.filterMap fun n => (d.pair n).toOption.map both)
    | .map place .map own => .map (keyed place own)
    | .map place .set own => .set ((keyed place own).map Prod.fst)
    | n => d.scalarOrNull n

/-- The value of a document.  Each entry of a mapping is shown as if nothing
held it. -/
def rootValue (d : Document) (root : Node) : Yaml :=
  match root with
  | .map place .map own =>
    let both (e : Node × Node) : Yaml × Yaml :=
      (d.value d.depth [] e.1, d.value d.depth [] e.2)
    .map ((((d.entries place own).toOption.getD []).map both).foldl
      (fun found e => putEntry e.1 e.2 found) [])
  | n => d.value d.depth [] n

end Document

/-! ### Texts and files -/

/-- The value of a text; `isWhole` tells whether it ends where it is cut. -/
def read (text : List Char) (isWhole : Bool) : Except Stop Yaml := do
  let d ← Document.ofTokens (Token.scan text isWhole)
  match d.root with
  | none => return .null
  | some root => do
    d.check root
    return d.rootValue root

/-- What can be read of a file: the text up to the first piece that is
unusable, and what is wrong with that. -/
structure Legible where
  text : List Char
  /-- Nothing, if all can be read; else the bytes that cannot be decoded, or a
  character that may not stand in a document. -/
  trouble : Option (Option Text.DecodeError)

/-- What can be read of some pieces; `error?` is what stopped the reading after
them. -/
def Legible.ofPieces (error? : Option Text.DecodeError) : List (List Char) → Legible
  | [] => ⟨[], error?.map some⟩
  | piece :: rest =>
    if piece.all isAllowed then
      let others := ofPieces error? rest
      { others with text := piece ++ others.text }
    else ⟨[], some none⟩

/-- What can be read of a file.  The first two pieces are looked at together. -/
def Legible.ofFile (bytes : List UInt8) : Legible :=
  match Text.pieces bytes with
  | (first :: second :: rest, error?) => ofPieces error? ((first ++ second) :: rest)
  | (_, some e) => ⟨[], some (some e)⟩
  | (pieces, none) => ofPieces none pieces

end Lox.Yaml
