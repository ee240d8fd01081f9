/-
Documents cut into tokens.

* `directive`, `name`, `tag` — tokens that begin with a percent sign, with `&`
  or `*`, and with `!`;
* `Scan.step` — the next token;
* `Scanned` — the tokens that can be told apart before the scanning stops, and
  why it stops;
* `Token.scan` — the tokens of a text.

A token is told only when it is clear that no key begins with it, since a key
is announced before its first token.  So when the scanning stops, the tokens
from the first candidate for a key on are not told; nor are those that came
with the last step.
-/
import Lox.Text.Utf8
import Lox.Yaml.Token.Scalars

namespace Lox.Yaml

namespace Scan

/-! ### Directives -/

/-- Whether a character is a blank or ends a line. -/
def isBlankOrBreak (c : Char) : Bool :=
  c == ' ' || isBreak c

/-- Refuses what does not end here. -/
def expectGap (p : Char → Bool) : Scan Unit := do
  unless ← seesOrEnd p do refuse

/-- Characters of a kind, at least one. -/
def takeSome (p : Char → Bool) : Scan (List Char) := do
  match ← takeRun p with
  | [] => refuse
  | run => return run

/-- The bytes that percent signs and pairs of digits stand for. -/
def percentBytes : (fuel : Nat) → (done : List UInt8) → Scan (List UInt8)
  | 0, done => return done
  | fuel + 1, done => do
    if (← peek?) == some '%' then
      skip 1
      let byte := ofHexDigits (← hexAhead 2)
      skip 2
      percentBytes fuel (done ++ [byte.toUInt8])
    else return done

/-- Whether a character stands for itself in what follows a handle. -/
def isUriChar (c : Char) : Bool :=
  c.isAlphanum || "-;/?:@&=+$,_.!~*'()[]".toList.contains c

/-- What follows a handle; `done` was read before. -/
def uriFrom : (fuel : Nat) → (done : List Char) → Scan (List Char)
  | 0, done => return done
  | fuel + 1, done => do
    let run ← takeRun isUriChar
    let done := done ++ run
    if (← peek?) == some '%' then
      match Text.decode (← percentBytes ((← get).rest.length + 1) []) with
      | .ok chars => uriFrom fuel (done ++ chars)
      | .error _ => refuse
    else return done

/-- What follows a handle, at least one character. -/
def uri : Scan String := do
  let before := (← get).index
  let chars ← uriFrom ((← get).rest.length + 1) []
  if (← get).index == before then refuse
  return String.ofList chars

/-- A handle: an exclamation mark, and a name between it and another one. -/
def handle : Scan String := do
  if (← peek?) != some '!' then refuse
  skip 1
  if (← peek?) == some ' ' then return "!"
  let name ← takeRun isNameChar
  if (← peek?) != some '!' then refuse
  skip 1
  return String.ofList ('!' :: name ++ ['!'])

/-- A number in a directive. -/
def directiveNumber : Scan Nat :=
  return ofDigits (← takeSome isDigit)

/-- A line that begins with a percent sign. -/
def directive : Scan Directive := do
  skip 1
  let name ← takeSome isNameChar
  expectGap isBlankOrBreak
  let d ← match String.ofList name with
    | "YAML" => do
      skipBlanks
      let major ← directiveNumber
      if (← peek?) != some '.' then refuse
      skip 1
      discard directiveNumber
      expectGap isBlankOrBreak
      pure (Directive.version major)
    | "TAG" => do
      skipBlanks
      let h ← handle
      if (← peek?) != some ' ' then refuse
      skipBlanks
      let stem ← uri
      expectGap isBlankOrBreak
      pure (Directive.handle h stem)
    | _ => do
      discard (takeRun (!isBreak ·))
      pure Directive.other
  skipIdleLine
  return d

/-! ### Names and marks -/

/-- The name after `&` or `*`. -/
def name : Scan String := do
  skip 1
  let chars ← takeSome isNameChar
  expectGap fun c => isGap c || "?:,]\x7d%@`".toList.contains c
  return String.ofList chars

/-- Whether the word ahead has an exclamation mark after its first character. -/
def seesHandle : Scan Bool := do
  let word := (← get).rest.tail.takeWhile (!isBlankOrBreak ·)
  if word.contains '!' then return true
  discard (ahead (word.length + 2))
  return false

/-- The mark of a kind. -/
def tag : Scan Token := do
  let second := (← ahead 2)[1]?
  let t ←
    if second == some '<' then do
      skip 2
      let suffix ← uri
      if (← peek?) != some '>' then refuse
      skip 1
      pure (Token.tag none suffix)
    else if second.all isGap then do
      skip 1
      pure (Token.tag none "!")
    else if ← seesHandle then do
      let h ← handle
      pure (Token.tag (some h) (← uri))
    else do
      skip 1
      pure (Token.tag (some "!") (← uri))
  expectGap isBlankOrBreak
  return t

/-! ### Tokens -/

/-- A token that may begin a key. -/
def keyable (read : Scan Token) : Scan Unit := do
  saveCandidate
  allowKey false
  emit (← read)

/-- A directive, or a line that divides documents; it ends all blocks. -/
def atMargin (read : Scan Token) : Scan Unit := do
  unwind (-1)
  removeCandidate
  allowKey false
  emit (← read)

/-- A line that divides documents. -/
def marker (t : Token) : Scan Token := do
  skip 3
  return t

/-- An opening bracket. -/
def openBracket (t : Token) : Scan Unit := do
  saveCandidate
  modify fun s => { s with flowLevel := s.flowLevel + 1, keyAllowed := true }
  skip 1
  emit t

/-- A closing bracket. -/
def closeBracket (t : Token) : Scan Unit := do
  removeCandidate
  skip 1
  if (← get).flowLevel == 0 then refuse
  modify fun s => { s with flowLevel := s.flowLevel - 1, keyAllowed := false }
  emit t

/-- A comma between brackets. -/
def comma : Scan Unit := do
  allowKey true
  removeCandidate
  skip 1
  emit .comma

/-- Begins a list or a mapping in block form, if one begins at this column. -/
def beginBlock (start : Token) : Scan Unit := do
  let s ← get
  if s.flowLevel == 0 then
    unless s.keyAllowed do refuse
    if ← indentTo? s.column then emit start

/-- The dash before an element. -/
def dash : Scan Unit := do
  beginBlock .blockListStart
  allowKey true
  removeCandidate
  skip 1
  emit .dash

/-- The question mark before a key. -/
def key : Scan Unit := do
  beginBlock .blockMapStart
  allowKey ((← get).flowLevel == 0)
  removeCandidate
  skip 1
  emit .key

/-- Puts tokens before those from a position on. -/
def emitAt (position : Nat) (new : Array Token) : Scan Unit :=
  modify fun s =>
    { s with tokens := s.tokens.extract 0 position ++ new
               ++ s.tokens.extract position s.tokens.size }

/-- The colon before a value.  What may have begun a key has. -/
def value : Scan Unit := do
  match ← candidate? with
  | some k => do
    forgetCandidate
    let startsBlock ← if (← get).flowLevel == 0 then indentTo? k.column else pure false
    emitAt k.position (if startsBlock then #[.blockMapStart, .key] else #[.key])
    allowKey false
  | none => do
    beginBlock .blockMapStart
    allowKey ((← get).flowLevel == 0)
    removeCandidate
  skip 1
  emit .value

/-- A block scalar. -/
def blockScalar (folded : Bool) : Scan Unit := do
  allowKey true
  removeCandidate
  emit (.scalar (← block folded) false)

/-- Whether a plain scalar begins with the character ahead, which none of the
other tokens does. -/
def beginsPlain (c : Char) : Scan Bool := do
  if isGap c || "-?:,[]\x7b\x7d#&*!|>'\"%@`".toList.contains c then
    let inBlock := (← get).flowLevel == 0
    return !(← gapAfter 1) && (c == '-' || (inBlock && (c == '?' || c == ':')))
  else return true

/-- The token that begins with a character. -/
def token (c : Char) : Scan Unit := do
  let s ← get
  let inFlow := s.flowLevel != 0
  let atStart := s.column == 0
  let gapOrFlow := if inFlow then pure true else gapAfter 1
  if atStart && c == '%' then atMargin (Token.directive <$> directive)
  else if ← sees (atStart && c == '-') (seesMarker startMark) then
    atMargin (marker .documentStart)
  else if ← sees (atStart && c == '.') (seesMarker endMark) then
    atMargin (marker .documentEnd)
  else if c == '[' then openBracket .flowListStart
  else if c == '\x7b' then openBracket .flowMapStart
  else if c == ']' then closeBracket .flowListEnd
  else if c == '\x7d' then closeBracket .flowMapEnd
  else if c == ',' then comma
  else if ← sees (c == '-') (gapAfter 1) then dash
  else if ← sees (c == '?') gapOrFlow then key
  else if ← sees (c == ':') gapOrFlow then value
  else if c == '*' then keyable (Token.reference <$> name)
  else if c == '&' then keyable (Token.anchor <$> name)
  else if c == '!' then keyable tag
  else if c == '|' && !inFlow then blockScalar false
  else if c == '>' && !inFlow then blockScalar true
  else if c == '\'' then keyable ((Token.scalar · false) <$> quoted false)
  else if c == '"' then keyable ((Token.scalar · false) <$> quoted true)
  else if ← beginsPlain c then keyable ((Token.scalar · true) <$> plain)
  else refuse

/-- The next token; tells whether there was one. -/
def step : Scan Bool := do
  if (← get).index == 0 && (← peek?) == some orderMark then skip 1
  toToken ((← get).rest.length + 1)
  dropStale
  unwind (← get).column
  match ← peek? with
  | some c => do
    token c
    settle
    return true
  | none => do
    unwind (-1)
    removeCandidate
    emit .textEnd
    return false

/-- All tokens, at most `fuel` steps. -/
def steps : (fuel : Nat) → Scan Unit
  | 0 => refuse
  | fuel + 1 => do
    if ← step then steps fuel

end Scan

/-! ### The tokens of a text -/

/-- The tokens that are told, and what stops the scanning after them. -/
structure Scanned where
  tokens : List Token
  stop : Option Stop

/-- The tokens of a text; `isWhole` tells whether it ends where it is cut. -/
def Token.scan (text : List Char) (isWhole : Bool) : Scanned :=
  match Scan.steps (text.length + 2) { rest := text, isWhole } with
  | .ok _ s => ⟨s.tokens.toList, none⟩
  | .error stop s => ⟨s.tokens.toList.take s.told, some stop⟩

end Lox.Yaml
