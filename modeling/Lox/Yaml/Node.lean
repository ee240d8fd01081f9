/-
The nodes of a document.

A node is a scalar, a list or a mapping, of some kind; a node with a name can
stand in several places, and even inside itself.  A document is one node.

* `Node` — the nodes;
* `Assemble` — computations that make nodes of tokens;
* `node` — a node, in block or in flow form;
* `Document` — the node of a document, if it has any, and the nodes with names;
* `Document.ofTokens` — the document that some tokens make.
-/
import Lox.Yaml.Tag
import Lox.Yaml.Token.Scan

namespace Lox.Yaml

open Text (Points)

/-- The nodes of a document.  A list or a mapping has a place, by which it is
told from others with the same parts. -/
inductive Node where
  | scalar (tag : Tag) (text : Points)
  | list (place : Nat) (tag : Tag) (items : List Node)
  | map (place : Nat) (tag : Tag) (entries : List (Node × Node))
  /-- The node with a name, once more. -/
  | reference (name : String)
  deriving Inhabited

/-- The node that nothing stands for. -/
def Node.empty : Node :=
  .scalar .null []

/-- How far the making of nodes has come. -/
structure Assembly where
  tokens : List Token
  /-- What happens if more tokens are needed. -/
  stop : Stop
  /-- What the handles of marks stand for. -/
  handles : List (String × String)
  /-- The names of nodes so far. -/
  names : List String := []
  /-- The nodes with names that are complete. -/
  named : List (String × Node) := []

/-- A computation that makes nodes of tokens. -/
abbrev Assemble := EStateM Stop Assembly

namespace Assemble

/-- Stops: this is no document. -/
def refuse : Assemble α :=
  throw .malformed

/-- The token ahead. -/
def peek : Assemble Token := do
  match (← get).tokens with
  | t :: _ => return t
  | [] => throw (← get).stop

/-- Moves on by one token. -/
def skip : Assemble Unit :=
  modify fun s => { s with tokens := s.tokens.tail }

/-- Where the token ahead stands, counted from the end. -/
def place : Assemble Nat :=
  return (← get).tokens.length

/-! ### Names and marks -/

/-- The full name of a kind. -/
def fullName (handle : Option String) (suffix : String) : Assemble String := do
  match handle with
  | none => return suffix
  | some h =>
    match (← get).handles.lookup h with
    | some stem => return stem ++ suffix
    | none => refuse

/-- The name of a node, if one is ahead. -/
def anchor? : Assemble (Option String) := do
  match ← peek with
  | .anchor name => do
    skip
    return some name
  | _ => return none

/-- The mark of a kind, if one is ahead. -/
def mark? : Assemble (Option (Option String × String)) := do
  match ← peek with
  | .tag handle suffix => do
    skip
    return some (handle, suffix)
  | _ => return none

/-- The name and the kind of a node, in any order. -/
def properties : Assemble (Option String × Option String) := do
  let before ← anchor?
  let mark ← mark?
  let name ← if before.isNone && mark.isSome then anchor? else pure before
  match mark with
  | none => return (name, none)
  | some (handle, suffix) => return (name, some (← fullName handle suffix))

/-- Remembers a name, which may be given once only. -/
def addName : Option String → Assemble Unit
  | none => pure ()
  | some name => do
    if (← get).names.contains name then refuse
    modify fun s => { s with names := name :: s.names }

/-- Remembers the node with a name. -/
def define (name : Option String) (n : Node) : Assemble Node := do
  if let some name := name then
    modify fun s => { s with named := (name, n) :: s.named }
  return n

/-! ### Kinds -/

/-- The mark that leaves the kind to the shape. -/
def bareMark : String := "!"

/-- The kind of a scalar. -/
def scalarTag (mark : Option String) (isPlain : Bool) (text : Points) : Tag :=
  let byShape := (text.chars?.map Tag.ofWord).getD .text
  match mark with
  | none => if isPlain then byShape else .text
  | some name => if name = bareMark then byShape else .ofName name

/-- The kind of a list or a mapping, which is `usual` unless marked. -/
def collectionTag (mark : Option String) (usual : Tag) : Tag :=
  match mark with
  | none => usual
  | some name => if name = bareMark then usual else .ofName name

/-! ### Block form -/

/-- Whether nothing stands before a token in an entry of a mapping in block
form. -/
def endsEntry : Token → Bool
  | .key | .value | .blockEnd => true
  | _ => false

/-- Whether nothing stands before a token in an element after a dash. -/
def endsItem : Token → Bool
  | .dash | .blockEnd => true
  | _ => false

/-- A node, or nothing before a token of some kind. -/
def orEmpty (stops : Token → Bool) (node : Assemble Node) : Assemble Node := do
  if stops (← peek) then return .empty else node

/-- The elements after dashes. -/
def dashItems (stops : Token → Bool) (node : Assemble Node) :
    (fuel : Nat) → (done : List Node) → Assemble (List Node)
  | 0, _ => refuse
  | fuel + 1, done => do
    match ← peek with
    | .dash => do
      skip
      dashItems stops node fuel (done ++ [← orEmpty stops node])
    | _ => return done

/-- The end of a block. -/
def blockEnd : Assemble Unit := do
  match ← peek with
  | .blockEnd => skip
  | _ => refuse

/-- The entries of a mapping in block form. -/
def blockEntries (node : Assemble Node) :
    (fuel : Nat) → (done : List (Node × Node)) → Assemble (List (Node × Node))
  | 0, _ => refuse
  | fuel + 1, done => do
    match ← peek with
    | .key => do
      skip
      let key ← orEmpty endsEntry node
      let value ← match ← peek with
        | .value => do
          skip
          orEmpty endsEntry node
        | _ => pure .empty
      blockEntries node fuel (done ++ [(key, value)])
    | _ => do
      blockEnd
      return done

/-! ### Flow form -/

/-- An entry between brackets from its announced key on; `closing` is the token
for the closing bracket. -/
def flowEntry (closing : Token) (node : Assemble Node) : Assemble (Node × Node) := do
  skip
  let ends (t : Token) : Bool := t == .comma || t == closing
  let key ← orEmpty (fun t => t == .value || ends t) node
  match ← peek with
  | .value => do
    skip
    return (key, ← orEmpty ends node)
  | _ => return (key, .empty)

/-- What stands between brackets, each read by `item`, up to the closing
bracket. -/
def flowItems (closing : Token) (item : Assemble α) :
    (fuel : Nat) → (done : List α) → Assemble (List α)
  | 0, _ => refuse
  | fuel + 1, done => do
    if (← peek) == closing then
      skip
      return done
    unless done.isEmpty do
      if (← peek) == .comma then skip else refuse
    if (← peek) == closing then
      skip
      return done
    flowItems closing item fuel (done ++ [← item])

/-- An element of a list in flow form; one with a key is a mapping of its
own. -/
def flowListItem (node : Assemble Node) : Assemble Node := do
  if (← peek) == .key then
    return .map (← place) .map [← flowEntry .flowListEnd node]
  else node

/-- An entry of a mapping in flow form. -/
def flowMapItem (node : Assemble Node) : Assemble (Node × Node) := do
  if (← peek) == .key then flowEntry .flowMapEnd node
  else return (← node, .empty)

/-! ### Nodes -/

/-- What a node may begin with: in flow form, also with a block, or also with a
dash. -/
inductive Room where
  | flow
  | block
  | blockOrDash
  deriving DecidableEq, Repr

/-- A node.  The depth of nodes in it is at most `depth`. -/
def node : (depth : Nat) → Room → Assemble Node
  | 0, _ => refuse
  | depth + 1, room => do
    if let .reference name := ← peek then
      skip
      if (← get).names.contains name then return .reference name else refuse
    let (name, mark) ← properties
    let place ← place
    let fuel := place + 1
    let inBlock : Assemble Node := node depth .block
    let inEntry : Assemble Node := node depth .blockOrDash
    let inFlow : Assemble Node := node depth .flow
    let listTag := collectionTag mark .list
    let mapTag := collectionTag mark .map
    match ← peek, room with
    | .dash, .blockOrDash => do
      addName name
      let stops (t : Token) : Bool := endsItem t || endsEntry t
      define name (.list place listTag (← dashItems stops inBlock fuel []))
    | .scalar word isPlain, _ => do
      skip
      addName name
      define name (.scalar (scalarTag mark isPlain word) word)
    | .flowListStart, _ => do
      skip
      addName name
      let items ← flowItems .flowListEnd (flowListItem inFlow) fuel []
      define name (.list place listTag items)
    | .flowMapStart, _ => do
      skip
      addName name
      let entries ← flowItems .flowMapEnd (flowMapItem inFlow) fuel []
      define name (.map place mapTag entries)
    | .blockListStart, .block | .blockListStart, .blockOrDash => do
      skip
      addName name
      let items ← dashItems endsItem inBlock fuel []
      blockEnd
      define name (.list place listTag items)
    | .blockMapStart, .block | .blockMapStart, .blockOrDash => do
      skip
      addName name
      define name (.map place mapTag (← blockEntries inEntry fuel []))
    | _, _ =>
      if name.isNone && mark.isNone then refuse
      else do
        addName name
        define name (.scalar (scalarTag mark true []) [])

/-! ### Documents -/

/-- The handles that need no directive. -/
def usualHandles : List (String × String) :=
  [("!", "!"), ("!!", "tag:yaml.org,2002:")]

/-- Reads directives; `handles` were given before, and `hasVersion` tells
whether the version was. -/
def directives : (fuel : Nat) → (handles : List (String × String)) → (hasVersion : Bool) →
    Assemble Unit
  | 0, _, _ => refuse
  | fuel + 1, handles, hasVersion => do
    match ← peek with
    | .directive d => do
      skip
      match d with
      | .version major =>
        if hasVersion || major != 1 then refuse else directives fuel handles true
      | .handle h stem =>
        if (handles.lookup h).isSome then refuse
        else directives fuel ((h, stem) :: handles) hasVersion
      | .other => directives fuel handles hasVersion
    | _ => modify fun s => { s with handles := handles ++ usualHandles }

/-- Whether a token follows a document. -/
def endsDocument : Token → Bool
  | .directive _ | .documentStart | .documentEnd | .textEnd => true
  | _ => false

/-- The node of a document; none if there is not even the start of one. -/
def root : Assemble (Option Node) := do
  let depth := (← get).tokens.length + 1
  match ← peek with
  | .textEnd => return none
  | .directive _ | .documentStart => do
    directives depth [] false
    match ← peek with
    | .documentStart => do
      skip
      some <$> orEmpty endsDocument (node depth .block)
    | _ => refuse
  | _ => some <$> node depth .block

/-- The end of a text, after any number of lines that end a document.  Nothing
else may follow, but directives are read before that is found. -/
def textEnd : (fuel : Nat) → Assemble Unit
  | 0 => refuse
  | fuel + 1 => do
    match ← peek with
    | .documentEnd => do
      skip
      textEnd fuel
    | .textEnd => pure ()
    | _ => do
      directives (fuel + 1) [] false
      refuse

end Assemble

/-- The node of a document, if it has any, and the nodes with names. -/
structure Document where
  root : Option Node
  named : List (String × Node)
  /-- How many tokens it has. -/
  size : Nat

/-- The document that some tokens make. -/
def Document.ofTokens (t : Scanned) : Except Stop Document :=
  let start : Assembly :=
    { tokens := t.tokens, stop := t.stop.getD .malformed, handles := Assemble.usualHandles }
  let whole : Assemble (Option Node) := do
    let root ← Assemble.root
    Assemble.textEnd (t.tokens.length + 1)
    return root
  match whole start with
  | .ok root s => .ok ⟨root, s.named, t.tokens.length⟩
  | .error stop _ => .error stop

end Lox.Yaml
