/-
The words of the command line.

Options may stand before the name of the command, and others after it.  A long
option may be cut short as long as it stays the only one with its beginning,
and may carry a value after an equals sign; letters may share one dash.  After
`--` every word is plain.  A word that is not understood is remembered and
refused at the end, so that a request for help further on is still answered;
letters among which some are unknown are refused at once.

* `Arguments` — what is asked for;
* `Word`, `readWords` — the words as a table of options reads them;
* `Arguments.parse` — what some words ask for.
-/
import Lox.Text.Digit
import Lox.Text.Lines

namespace Lox

/-- The commands. -/
inductive Action where
  | run (file : String)
  | check (file : String) (json : Bool)
  | tokens (file : String)
  | repl
  deriving DecidableEq, Repr

/-- How the settings file is named. -/
inductive SettingsName where
  /-- By nobody. -/
  | absent
  | given (path : String)
  /-- By a divider in the place of a name, which is dropped like any other. -/
  | dropped
  deriving DecidableEq, Repr

/-- What is asked for. -/
structure Arguments where
  config : SettingsName
  verbose : Bool
  action : Action
  deriving DecidableEq, Repr

/-- Why nothing is done. -/
inductive Misuse where
  | helpWanted
  | misunderstood
  deriving DecidableEq, Repr

/-! ### Words -/

/-- An option: its long name, its letter, and whether a value follows it. -/
structure Switch (α : Type) where
  name : α
  long : String
  letter : Option Char := none
  takesValue : Bool := false

/-- A word as a table of options reads it. -/
inductive Word (α : Type) where
  | plain
  /-- What makes all further words plain. -/
  | divider
  /-- Options without values. -/
  | flags (names : List α)
  /-- An option with a value, which may be in the same word. -/
  | valued (name : α) (value : Option String)
  | unknown
  /-- A word that is refused once it is reached. -/
  | malformed
  /-- A word that is refused before any other is looked at. -/
  | ambiguous

/-- The options that a letter stands for. -/
def Switch.ofLetter? (table : List (Switch α)) (c : Char) : Option (Switch α) :=
  table.find? (·.letter == some c)

/-- Letters after a dash, each of which has to be known; `names` were read
before. -/
def readLetters (table : List (Switch α)) (names : List α) : List Char → Word α
  | [] => .flags names
  | c :: rest =>
    match Switch.ofLetter? table c with
    | none => .malformed
    | some s => readLetters table (names ++ [s.name]) rest

/-- What stands in a word after its first letter.  An equals sign may divide
the first letter from others, if there are any. -/
def readCluster (table : List (Switch α)) (first : α) : List Char → Word α
  | ['='] => .malformed
  | '=' :: rest => readLetters table [first] rest
  | rest => readLetters table [first] rest

/-- Whether a word is a negative number, which is no option; a line feed may
end it. -/
def isNegativeNumber (word : List Char) : Bool :=
  match Text.dropFinalBreak word with
  | '-' :: rest =>
    let isDigit (c : Char) : Bool := (Text.digitValue c).isSome
    let whole := rest.takeWhile isDigit
    match rest.drop whole.length with
    | [] => !whole.isEmpty
    | '.' :: places => !places.isEmpty && places.all isDigit
    | _ => false
  | _ => false

/-- A word that begins with a dash and is none of the options. -/
def readStranger (word : List Char) : Word α :=
  if isNegativeNumber word || word.contains ' ' then .plain else .unknown

/-- An option with the value that is in its word. -/
def Switch.read (s : Switch α) (value : Option String) : Word α :=
  if s.takesValue then .valued s.name value
  else if value.isSome then .malformed
  else .flags [s.name]

/-- A word that begins with two dashes. -/
def readLong (table : List (Switch α)) (word : List Char) : Word α :=
  let stem := word.takeWhile (· != '=')
  let value := match word.drop stem.length with
    | _ :: value => some (String.ofList value)
    | [] => none
  match table.filter fun s => stem.isPrefixOf s.long.toList with
  | [] => readStranger word
  | [s] => s.read value
  | _ => .ambiguous

/-- A word before the divider. -/
def readWord (table : List (Switch α)) (word : String) : Word α :=
  match word.toList with
  | ['-', '-'] => .divider
  | '-' :: '-' :: rest => readLong table ('-' :: '-' :: rest)
  | '-' :: c :: rest =>
    match Switch.ofLetter? table c with
    | none => readStranger ('-' :: c :: rest)
    | some s => readCluster table s.name rest
  | _ => .plain

/-- Words, each with its reading. -/
def readWords (table : List (Switch α)) : List String → List (String × Word α)
  | [] => []
  | w :: rest =>
    match readWord table w with
    | .divider => (w, .divider) :: rest.map (·, .plain)
    | read => (w, read) :: readWords table rest

/-- Whether a word has to be refused at once. -/
def isAmbiguous : Word α → Bool
  | .ambiguous => true
  | _ => false

/-! ### After the name of a command -/

/-- The options after the name of a command. -/
inductive ActionOption where
  | help
  | json
  deriving DecidableEq, Repr

/-- What the words after the name of a command ask for. -/
structure ActionRequest where
  file : Option String := none
  json : Bool := false
  /-- Whether every word was understood. -/
  clean : Bool := true

/-- Takes the words after the name of a command one by one.  A divider is
dropped next to the file. -/
def ActionRequest.take (wantsFile : Bool) :
    ActionRequest → List (String × Word ActionOption) → Except Misuse ActionRequest
  | r, [] => if wantsFile && r.file.isNone then .error .misunderstood else .ok r
  | r, [(w, .plain), (_, .divider)] =>
    if wantsFile && r.file.isNone then .ok { r with file := some w }
    else take wantsFile { r with clean := false } []
  | r, (w, .plain) :: rest =>
    if wantsFile && r.file.isNone then take wantsFile { r with file := some w } rest
    else take wantsFile { r with clean := false } rest
  | r, (_, .divider) :: rest =>
    if wantsFile && r.file.isNone then take wantsFile r rest
    else take wantsFile { r with clean := false } rest
  | r, (_, .flags names) :: rest =>
    if names.contains .help then .error .helpWanted
    else take wantsFile { r with json := true } rest
  | r, (_, .unknown) :: rest => take wantsFile { r with clean := false } rest
  | _, (_, .valued ..) :: _ | _, (_, .malformed) :: _ | _, (_, .ambiguous) :: _ =>
    .error .misunderstood

/-- The option for help after the name of a command. -/
def helpSwitch : Switch ActionOption :=
  { name := .help, long := "--help", letter := some 'h' }

/-- The words after the name of a command. -/
def ActionRequest.parse (table : List (Switch ActionOption)) (wantsFile : Bool)
    (words : List String) : Except Misuse ActionRequest :=
  let read := readWords table words
  if read.any fun w => isAmbiguous w.2 then .error .misunderstood
  else take wantsFile {} read

/-- The command with some name and the words after it; tells also whether every
word was understood. -/
def Action.parse (name : String) (words : List String) : Except Misuse (Action × Bool) :=
  let withFile (table : List (Switch ActionOption)) (f : String → Bool → Action) := do
    let r ← ActionRequest.parse (helpSwitch :: table) true words
    match r.file with
    | some file => return (f file r.json, r.clean)
    | none => throw .misunderstood
  match name with
  | "run" => withFile [] fun file _ => .run file
  | "check" => withFile [{ name := .json, long := "--json" }] .check
  | "tokens" => withFile [] fun file _ => .tokens file
  | "repl" => do
    let r ← ActionRequest.parse [helpSwitch] false words
    return (.repl, r.clean)
  | _ => .error .misunderstood

/-! ### The whole line -/

/-- The options before the name of a command. -/
inductive MainOption where
  | help
  | config
  | verbose
  deriving DecidableEq, Repr

/-- The table of options before the name of a command. -/
def mainSwitches : List (Switch MainOption) :=
  [{ name := .help, long := "--help", letter := some 'h' },
   { name := .config, long := "--config", takesValue := true },
   { name := .verbose, long := "--verbose", letter := some 'v' }]

/-- The name that the value of an option gives. -/
def SettingsName.ofValue (value : String) : SettingsName :=
  if value = "--" then .dropped else .given value

/-- Takes the words of the whole line one by one; `clean` tells whether every
word so far was understood. -/
def Arguments.take (config : SettingsName) (verbose clean : Bool) :
    List (String × Word MainOption) → Except Misuse Arguments
  | [] => .error .misunderstood
  | (name, .plain) :: rest => do
    let (action, allClean) ← Action.parse name (rest.map Prod.fst)
    if clean && allClean then return { config, verbose, action } else throw .misunderstood
  | (_, .flags names) :: rest =>
    if names.contains .help then .error .helpWanted else take config true clean rest
  | (_, .valued _ (some value)) :: rest => take (.ofValue value) verbose clean rest
  | (_, .valued _ none) :: (value, .plain) :: rest => take (.ofValue value) verbose clean rest
  | (_, .unknown) :: rest => take config verbose false rest
  | (_, .valued _ none) :: _ | (_, .divider) :: _ | (_, .malformed) :: _
  | (_, .ambiguous) :: _ => .error .misunderstood

/-- What some words ask for. -/
def Arguments.parse (words : List String) : Except Misuse Arguments :=
  let read := readWords mainSwitches words
  if read.any fun w => isAmbiguous w.2 then .error .misunderstood
  else take .absent false true read

end Lox
