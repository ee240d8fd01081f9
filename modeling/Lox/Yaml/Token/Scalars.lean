/-
Scalars as they are written.

A plain scalar goes on over lines that are indented further than what holds it,
and may not hold a colon before a gap.  A quoted scalar ends at its quote.  A
block scalar is told by its indentation.  A single line end inside a plain, a
quoted or a folded scalar is a blank, and of several the first is dropped.

* `plain`, `quoted`, `block` — the text of a scalar that begins here.
-/
import Lox.Text.Integer
import Lox.Yaml.Tag
import Lox.Yaml.Token.Scanner

namespace Lox.Yaml.Scan

open Text (Point Points)

/-- How line ends inside a scalar are read: a single line feed is a blank, and
of several the first is dropped. -/
def joinBreaks (first others : List Char) : List Char :=
  if first ≠ ['\n'] then first ++ others
  else if others.isEmpty then [' '] else others

/-! ### Plain scalars -/

/-- Whether a character stands for itself nowhere between brackets. -/
def isFlowMark (c : Char) : Bool :=
  c == ',' || c == '[' || c == ']' || c == '\x7b' || c == '\x7d'

/-- Whether a plain scalar stops before the text ahead. -/
def stopsPlain (inFlow : Bool) : List Char → Bool
  | [] => true
  | c :: rest =>
    isGap c
      || (c == ':' && rest.head?.all fun d => isGap d || (inFlow && isFlowMark d))
      || (inFlow && (c == '?' || isFlowMark c))

/-- The number of characters up to where a plain scalar stops, and `count`. -/
def plainLength (inFlow : Bool) (count : Nat) : (rest : List Char) → Nat
  | [] => count
  | c :: rest =>
    if stopsPlain inFlow (c :: rest) then count else plainLength inFlow (count + 1) rest

/-- Moves over blank lines from the beginning of a line on, and gives their
ends, after those of `breaks`; none before a line that divides documents. -/
def plainLines : (fuel : Nat) → (breaks : List Char) → Scan (Option (List Char))
  | 0, breaks => return some breaks
  | fuel + 1, breaks => do
    if ← seesAnyMarker then return none
    skipBlanks
    match ← takeBreak with
    | [] => return some breaks
    | b => plainLines fuel (breaks ++ b)

/-- Moves over the gap between two parts of a plain scalar; none before a line
that divides documents. -/
def plainGap : Scan (Option (List Char)) := do
  let blanks ← takeRun (· == ' ')
  match ← takeBreak with
  | [] => return some blanks
  | first => do
    allowKey true
    let fuel := (← get).rest.length + 1
    return (← plainLines fuel []).map (joinBreaks first)

/-- Reads a plain scalar from a part on; `done` and `gap` were read before it.
Lines that go on with it begin at column `indent` or further. -/
def plainFrom (indent : Int) : (fuel : Nat) → (done gap : List Char) → Scan (List Char)
  | 0, done, _ => return done
  | fuel + 1, done, gap => do
    if (← peek?) == some '#' then return done
    let s ← get
    let length := plainLength (s.flowLevel != 0) 0 s.rest
    if s.rest[length]? == some ':' then discard (ahead (length + 2))
    let part ← takeCount length
    if part.isEmpty then return done
    allowKey false
    let done := done ++ gap ++ part
    match ← plainGap with
    | none | some [] => return done
    | some gap => do
      let s ← get
      if s.flowLevel == 0 && s.column < indent then return done
      plainFrom indent fuel done gap

/-- A plain scalar. -/
def plain : Scan Points := do
  let s ← get
  return (← plainFrom (s.indent + 1) (s.rest.length + 1) [] []).map .char

/-! ### Quoted scalars -/

/-- The character that a backslash and another one stand for. -/
def escaped? : Char → Option Nat
  | '0' => some 0x00
  | 'a' => some 0x07
  | 'b' => some 0x08
  | 't' => some 0x09
  | '\t' => some 0x09
  | 'n' => some 0x0a
  | 'v' => some 0x0b
  | 'f' => some 0x0c
  | 'r' => some 0x0d
  | 'e' => some 0x1b
  | ' ' => some 0x20
  | '"' => some 0x22
  | '\\' => some 0x5c
  | '/' => some 0x2f
  | 'N' => some 0x85
  | '_' => some 0xa0
  | 'L' => some 0x2028
  | 'P' => some 0x2029
  | _ => none

/-- How many hexadecimal digits follow a backslash and a letter. -/
def escapeWidth? : Char → Option Nat
  | 'x' => some 2
  | 'u' => some 4
  | 'U' => some 8
  | _ => none

/-- The number that hexadecimal digits stand for. -/
def ofHexDigits (digits : List Char) : Nat :=
  Text.ofDigitValues 16 (digits.filterMap (Text.digitIn? 16))

/-- The next `width` characters, which have to be hexadecimal digits. -/
def hexAhead (width : Nat) : Scan (List Char) := do
  let digits := ((← get).rest.take width).takeWhile isHexDigit
  if digits.length < width then
    discard (ahead (digits.length + 1))
    refuse
  return digits

/-- The point with a number. -/
def numberedPoint (n : Nat) : Except Fault Point :=
  if 0x7fffffff < n then .error .pointOverflow
  else if 0x10ffff < n then .error .pointTooLarge
  else .ok (.ofNat n)

/-- Moves over line ends inside quotes, from the beginning of a line on, and
gives them, after those of `breaks`. -/
def quotedBreaks : (fuel : Nat) → (breaks : List Char) → Scan (List Char)
  | 0, breaks => return breaks
  | fuel + 1, breaks => do
    if ← seesAnyMarker then refuse
    discard (takeRun isSpace)
    match ← takeBreak with
    | [] => return breaks
    | b => quotedBreaks fuel (breaks ++ b)

/-- Moves over the gap between two parts inside quotes. -/
def quotedGap : Scan (List Char) := do
  let blanks ← takeRun isSpace
  if (← peek?).isNone then refuse
  match ← takeBreak with
  | [] => return blanks
  | first => return joinBreaks first (← quotedBreaks ((← get).rest.length + 1) [])

/-- Reads what follows a backslash. -/
def escape : Scan Points := do
  match ← peek? with
  | none => refuse
  | some c =>
    match escaped? c, escapeWidth? c with
    | some n, _ => do
      skip 1
      return [.ofNat n]
    | none, some width => do
      skip 1
      match numberedPoint (ofHexDigits (← hexAhead width)) with
      | .error f => throw (.faulty f)
      | .ok p => do
        skip width
        return [p]
    | none, none => do
      if (← takeBreak).isEmpty then refuse
      return (← quotedBreaks ((← get).rest.length + 1) []).map .char

/-- Reads a part inside quotes, up to a gap or the quote; `done` was read before
it. -/
def quotedPart (double : Bool) : (fuel : Nat) → (done : Points) → Scan Points
  | 0, done => return done
  | fuel + 1, done => do
    let run ← takeRun fun c => !(isGap c || c == '\'' || c == '"' || c == '\\')
    let done := done ++ run.map .char
    match double, ← ahead 2 with
    | false, '\'' :: '\'' :: _ => do
      skip 2
      quotedPart double fuel (done ++ [.char '\''])
    | true, '\'' :: _ => do
      skip 1
      quotedPart double fuel (done ++ [.char '\''])
    | false, '"' :: _ => do
      skip 1
      quotedPart double fuel (done ++ [.char '"'])
    | false, '\\' :: _ => do
      skip 1
      quotedPart double fuel (done ++ [.char '\\'])
    | true, '\\' :: _ => do
      skip 1
      quotedPart double fuel (done ++ (← escape))
    | _, _ => return done

/-- Reads the rest of a quoted scalar; `done` was read before it. -/
def quotedFrom (double : Bool) : (fuel : Nat) → (done : Points) → Scan Points
  | 0, _ => refuse
  | fuel + 1, done => do
    let done ← quotedPart double (fuel + 1) done
    if (← peek?) == some (if double then '"' else '\'') then
      skip 1
      return done
    else quotedFrom double fuel (done ++ (← quotedGap).map .char)

/-- A quoted scalar. -/
def quoted (double : Bool) : Scan Points := do
  skip 1
  quotedFrom double ((← get).rest.length + 1) []

/-! ### Block scalars -/

/-- What is kept of the line ends after a block scalar: one, none or all. -/
inductive Chomp where
  | clip
  | strip
  | keep
  deriving DecidableEq, Repr

/-- Reads what says which line ends are kept. -/
def chomp? : Scan (Option Chomp) := do
  match ← peek? with
  | some '+' => do
    skip 1
    return some .keep
  | some '-' => do
    skip 1
    return some .strip
  | _ => return none

/-- Reads the digit that says how far in a block scalar begins. -/
def increment? : Scan (Option Nat) := do
  match ← peek? with
  | some c =>
    if !isDigit c then return none
    if c == '0' then refuse
    skip 1
    return some (ofDigits [c])
  | none => return none

/-- Reads the first line of a block scalar after its mark. -/
def blockHeader : Scan (Chomp × Option Nat) := do
  let before ← chomp?
  let increment ← increment?
  let after ← if before.isNone && increment.isSome then chomp? else pure none
  unless ← seesOrEnd fun c => c == ' ' || isBreak c do refuse
  skipIdleLine
  return ((before <|> after).getD .clip, increment)

/-- Moves over blank lines before a block scalar; gives their ends, after those
of `breaks`, and the greatest column that blanks lead to. -/
def blockLead : (fuel : Nat) → (breaks : List Char) → (widest : Nat) →
    Scan (List Char × Nat)
  | 0, breaks, widest => return (breaks, widest)
  | fuel + 1, breaks, widest => do
    let blanks ← takeRun (· == ' ')
    let column := (← get).column
    let widest := if blanks.isEmpty then widest else max widest column
    match ← takeBreak with
    | [] => return (breaks, widest)
    | b => blockLead fuel (breaks ++ b) widest

/-- Moves over blank lines and to a column; gives the line ends, after those of
`breaks`. -/
def blockBreaks (indent : Nat) : (fuel : Nat) → (breaks : List Char) → Scan (List Char)
  | 0, breaks => return breaks
  | fuel + 1, breaks => do
    let s ← get
    skip ((s.rest.take (indent - s.column)).takeWhile (· == ' ')).length
    match ← takeBreak with
    | [] => return breaks
    | b => blockBreaks indent fuel (breaks ++ b)

/-- Whether a block scalar at a column goes on here. -/
def blockGoesOn (indent : Nat) : Scan Bool :=
  return (← get).column == indent && (← peek?).isSome

/-- Reads the lines of a block scalar; `done` and the line ends of `breaks` were
read before.  Gives the text, the end of its last line, and those of the blank
lines after it. -/
def blockLines (folded : Bool) (indent : Nat) :
    (fuel : Nat) → (done breaks : List Char) → Scan (List Char × List Char × List Char)
  | 0, done, breaks => return (done, [], breaks)
  | fuel + 1, done, breaks => do
    let beginsBlank := (← peek?).any isSpace
    let line ← takeRun (!isBreak ·)
    let done := done ++ breaks ++ line
    let last ← takeBreak
    let breaks ← blockBreaks indent (fuel + 1) []
    if ← blockGoesOn indent then
      let isJoined := folded && last == ['\n'] && !beginsBlank && !(← peek?).any isSpace
      let joint := if !isJoined then last else if breaks.isEmpty then [' '] else []
      blockLines folded indent fuel (done ++ joint) breaks
    else return (done, last, breaks)

/-- A block scalar. -/
def block (folded : Bool) : Scan Points := do
  skip 1
  let (chomp, increment) ← blockHeader
  let s ← get
  let fuel := s.rest.length + 1
  let least := max 1 (s.indent + 1).toNat
  let (indent, breaks) ← match increment with
    | none => do
      let (breaks, widest) ← blockLead fuel [] 0
      pure (max least widest, breaks)
    | some n => do
      let indent := least + n - 1
      pure (indent, ← blockBreaks indent fuel [])
  let (lines, last, breaks) ←
    if ← blockGoesOn indent then blockLines folded indent fuel [] breaks
    else pure ([], [], breaks)
  let tail := match chomp with
    | .clip => last
    | .strip => []
    | .keep => last ++ breaks
  return (lines ++ tail).map .char

end Lox.Yaml.Scan
