/-
Where the scanning of a document has come to.

A scanner looks at characters ahead, moves over them and collects tokens.  The
text of a document may be cut off before its end, because what follows could
not be read; a scanner that needs to look further stops.

* `Scanner` — the state; `Scan` — computations on it;
* `peek?`, `ahead`, `takeRun`, `takeBreak`, `skip` — looking and moving;
* `Candidate`, `saveCandidate`, `removeCandidate`, `dropStale` — the tokens
  that may turn out to begin a key;
* `settle` — the tokens that are told;
* `indentTo?`, `unwind` — indentation.
-/
import Lox.Yaml.Stop
import Lox.Yaml.Token

namespace Lox.Yaml

/-! ### Characters -/

/-- Whether a character ends a line.  Carriage returns are read as line feeds
before. -/
def isBreak (c : Char) : Bool :=
  let n := c.toNat
  n == 0x0a || n == 0x85 || n == 0x2028 || n == 0x2029

/-- Whether a character divides words. -/
def isGap (c : Char) : Bool :=
  c == ' ' || c == '\t' || isBreak c

/-- Whether a character may stand in a document at all. -/
def isAllowed (c : Char) : Bool :=
  let n := c.toNat
  n == 0x09 || n == 0x0a || n == 0x0d || (0x20 ≤ n && n ≤ 0x7e) || n == 0x85
    || (0xa0 ≤ n && n ≤ 0xfffd) || 0x10000 ≤ n

/-- A line end as it stands in a scalar. -/
def keptBreak (c : Char) : Char :=
  if c.toNat == 0x2028 || c.toNat == 0x2029 then c else '\n'

/-- Whether a character may stand in the name of an anchor. -/
def isNameChar (c : Char) : Bool :=
  c.isAlphanum || c == '-' || c == '_'

/-- The mark of the byte order, which takes no column. -/
def orderMark : Char := '\uFEFF'

/-! ### The state -/

/-- A place where a key may have begun. -/
structure Candidate where
  /-- How many tokens stand before it. -/
  position : Nat
  /-- Whether a key has to begin there. -/
  required : Bool
  index : Nat
  line : Nat
  column : Nat

/-- Where the scanning has come to. -/
structure Scanner where
  rest : List Char
  /-- Whether the text ends where `rest` ends. -/
  isWhole : Bool
  index : Nat := 0
  line : Nat := 0
  column : Nat := 0
  tokens : Array Token := #[]
  /-- How many tokens are told. -/
  told : Nat := 0
  /-- How many brackets are open. -/
  flowLevel : Nat := 0
  /-- The column of the innermost block; outside of all, -1. -/
  indent : Int := -1
  /-- The columns of the blocks around it. -/
  outer : List Int := []
  /-- Whether a key may begin here. -/
  keyAllowed : Bool := true
  /-- The places where keys may have begun, by the number of open brackets. -/
  candidates : List (Nat × Candidate) := []

/-- A computation that scans. -/
abbrev Scan := EStateM Stop Scanner

/-- The state after one character. -/
def Scanner.next (s : Scanner) : Scanner :=
  match s.rest with
  | [] => s
  | c :: rest =>
    let s := { s with rest, index := s.index + 1 }
    if isBreak c then { s with line := s.line + 1, column := 0 }
    else if c = orderMark then s
    else { s with column := s.column + 1 }

/-- The state after several characters. -/
def Scanner.advance (s : Scanner) : Nat → Scanner
  | 0 => s
  | n + 1 => s.next.advance n

namespace Scan

/-! ### Looking and moving -/

/-- Stops: this is no document. -/
def refuse : Scan α :=
  throw .malformed

/-- The character ahead; none at the end of the text. -/
def peek? : Scan (Option Char) := do
  let s ← get
  match s.rest with
  | c :: _ => return some c
  | [] => if s.isWhole then return none else throw .starved

/-- The next `n` characters, or fewer at the end of the text. -/
def ahead (n : Nat) : Scan (List Char) := do
  let s ← get
  let chars := s.rest.take n
  if chars.length < n && !s.isWhole then throw .starved else return chars

/-- Moves over some characters, to where another one can be read or the text
ends. -/
def skip (n : Nat) : Scan Unit := do
  let s ← get
  if (s.rest.drop n).isEmpty && !s.isWhole then throw .starved
  modify (·.advance n)

/-- Moves over a number of characters, and gives them. -/
def takeCount (n : Nat) : Scan (List Char) := do
  let s ← get
  skip n
  return s.rest.take n

/-- Moves over all characters of a kind, and gives them. -/
def takeRun (p : Char → Bool) : Scan (List Char) := do
  takeCount ((← get).rest.takeWhile p).length

/-- Whether the character ahead is of a kind; the end of the text is. -/
def seesOrEnd (p : Char → Bool) : Scan Bool :=
  return (← peek?).all p

/-- Whether the character after the next `n` is a gap; the end of the text
is. -/
def gapAfter (n : Nat) : Scan Bool :=
  return ((← ahead (n + 1)).drop n).head?.all isGap

/-- A test that is made only if something holds; else it fails. -/
def sees (holds : Bool) (test : Scan Bool) : Scan Bool :=
  if holds then test else return false

/-- Whether a line that begins here divides documents. -/
def seesMarker (mark : List Char) : Scan Bool := do
  if (← ahead 3) == mark then gapAfter 3 else return false

/-- The lines that divide documents. -/
def startMark : List Char := ['-', '-', '-']

/-- The line that ends a document. -/
def endMark : List Char := ['.', '.', '.']

/-- Whether a line that begins here divides documents, either way. -/
def seesAnyMarker : Scan Bool :=
  return (← seesMarker startMark) || (← seesMarker endMark)

/-- Moves over a line end, if there is one, and gives it as it stands in a
scalar. -/
def takeBreak : Scan (List Char) := do
  match ← peek? with
  | some c =>
    if isBreak c then
      skip 1
      return [keptBreak c]
    else return []
  | none => return []

/-- Moves over blanks. -/
def skipBlanks : Scan Unit :=
  discard (takeRun (· == ' '))

/-- Moves over a comment, if there is one. -/
def skipComment : Scan Unit := do
  if (← peek?) == some '#' then discard (takeRun (!isBreak ·))

/-- Moves over the rest of a line that says nothing more. -/
def skipIdleLine : Scan Unit := do
  skipBlanks
  skipComment
  if ← seesOrEnd isBreak then discard takeBreak else refuse

/-- Moves to the next token, over at most `fuel` lines. -/
def toToken : (fuel : Nat) → Scan Unit
  | 0 => pure ()
  | fuel + 1 => do
    skipBlanks
    skipComment
    unless (← takeBreak).isEmpty do
      modify fun s => if s.flowLevel = 0 then { s with keyAllowed := true } else s
      toToken fuel

/-! ### Tokens -/

/-- Adds a token. -/
def emit (t : Token) : Scan Unit :=
  modify fun s => { s with tokens := s.tokens.push t }

/-- Says whether a key may begin here. -/
def allowKey (b : Bool) : Scan Unit :=
  modify fun s => { s with keyAllowed := b }

/-! ### Candidates -/

/-- A key that spans more than this is none. -/
def maxKeyLength : Nat := 1024

/-- Whether it is too late for a key that began somewhere to end here. -/
def isStale (s : Scanner) (k : Candidate) : Bool :=
  k.line != s.line || maxKeyLength < s.index - k.index

/-- Forgets the places where keys may have begun and can no longer end. -/
def dropStale : Scan Unit := do
  let s ← get
  if s.candidates.any fun k => isStale s k.2 && k.2.required then refuse
  modify fun s => { s with candidates := s.candidates.filter fun k => !isStale s k.2 }

/-- The place where a key may have begun between the same brackets. -/
def candidate? : Scan (Option Candidate) := do
  let s ← get
  return s.candidates.lookup s.flowLevel

/-- Forgets the place where a key may have begun between the same brackets. -/
def forgetCandidate : Scan Unit :=
  modify fun s => { s with candidates := s.candidates.filter (·.1 != s.flowLevel) }

/-- Forgets that place, unless a key has to begin there. -/
def removeCandidate : Scan Unit := do
  if (← candidate?).any (·.required) then refuse
  forgetCandidate

/-- Remembers that a key may begin here. -/
def saveCandidate : Scan Unit := do
  let s ← get
  if s.keyAllowed then
    removeCandidate
    let required := s.flowLevel == 0 && s.indent == s.column
    let k := ⟨s.tokens.size, required, s.index, s.line, s.column⟩
    modify fun s => { s with candidates := (s.flowLevel, k) :: s.candidates }

/-- Tells the tokens before all places where a key may have begun. -/
def settle : Scan Unit := do
  dropStale
  modify fun s =>
    { s with told := s.candidates.foldl (fun n k => min n k.2.position) s.tokens.size }

/-! ### Indentation -/

/-- Begins a block at a column, if it lies further in than the innermost one;
tells whether it does. -/
def indentTo? (column : Nat) : Scan Bool := do
  let s ← get
  if s.indent < column then
    modify fun s => { s with indent := column, outer := s.indent :: s.outer }
    return true
  else return false

/-- Ends the blocks that lie further in than a column. -/
def unwindFrom (column : Int) (indent : Int) : List Int → Array Token →
    Int × List Int × Array Token
  | [], tokens => (indent, [], tokens)
  | next :: outer, tokens =>
    if column < indent then unwindFrom column next outer (tokens.push .blockEnd)
    else (indent, next :: outer, tokens)

/-- Ends the blocks that lie further in than a column; brackets keep all
open. -/
def unwind (column : Int) : Scan Unit :=
  modify fun s =>
    if s.flowLevel = 0 then
      let (indent, outer, tokens) := unwindFrom column s.indent s.outer s.tokens
      { s with indent, outer, tokens }
    else s

end Scan

end Lox.Yaml
