/-
Where settings come from.

A setting is taken from the first of these that gives it: the caller, the
environment, the settings file, and what holds otherwise.  The settings file is
the one that is named, else the one that the environment names, else the one
of a fixed name in the current folder, if there is one.  Only what comes out in
the end has to be in range.

* `Layer` — some of the settings, and `Layer.over` — a layer above another;
* `Layer.ofDocument` — the layer that a document gives;
* `Layer.ofEnvironment` — the layer that the environment gives;
* `Layer.settings` — settings in range;
* `Settings.load` — all of it.
-/
import Lox.Path
import Lox.Settings
import Lox.Text.Integer
import Lox.Text.Upper
import Lox.Yaml.Read

namespace Lox

open Text (Points points)

/-- The settings by name. -/
inductive Setting where
  | replMode
  | maxErrors
  | showSource
  | logLevel
  | recursionLimit
  deriving DecidableEq, Repr

namespace Setting

/-- The name of a setting in a file. -/
def name : Setting → String
  | replMode => "repl_mode"
  | maxErrors => "max_errors"
  | showSource => "show_source"
  | logLevel => "log_level"
  | recursionLimit => "recursion_limit"

/-- The word for the values of a setting. -/
def valueWord : Setting → String
  | replMode | showSource => "bool"
  | maxErrors | recursionLimit => "int"
  | logLevel => "str"

/-- All settings. -/
def all : List Setting :=
  [replMode, maxErrors, showSource, logLevel, recursionLimit]

/-- The setting that a key names. -/
def ofKey? : Yaml → Option Setting
  | .text key => all.find? fun s => points s.name == key
  | _ => none

end Setting

/-- Why there are no settings. -/
inductive SettingsError where
  | notFound (path : String)
  | unreadable (e : ReadError)
  | notYaml (path : String)
  /-- Something in the settings file has no value. -/
  | faulty (f : Yaml.Fault)
  | notMapping (path : String)
  | unknownSetting (path : String) (key : Yaml)
  | wrongType (s : Setting) (value : Yaml)
  /-- A text that is no word for a truth value, under some name. -/
  | notBoolean (name : String) (given : Points)
  /-- A text that denotes no whole number, under some name. -/
  | notInteger (name given : String)
  | tooSmall (s : Setting) (least : Int) (given : Yaml)
  | unknownLogLevel (given : Yaml)

/-- The least number of errors to stop at. -/
def minMaxErrors : Int := 1

/-- The least recursion limit. -/
def minRecursionLimit : Int := 1000

/-- The log levels, from the gravest on. -/
def logLevels : List String :=
  ["CRITICAL", "ERROR", "WARNING", "INFO", "DEBUG"]

/-- The value that an error shows. -/
def SettingsError.shown : SettingsError → Yaml
  | unknownSetting _ y | wrongType _ y | tooSmall _ _ y | unknownLogLevel y => y
  | _ => .null

/-- The text of an error that can show its value; a fault may have none. -/
def SettingsError.detail? : SettingsError → Option String
  | notFound path => some ("config file not found: " ++ path)
  | unreadable e => some e.message
  | notYaml path => some (path ++ ": invalid YAML")
  | faulty f => f.message?
  | notMapping path => some (path ++ ": expected a mapping at top level")
  | unknownSetting path key => some (path ++ ": unknown setting " ++ key.render)
  | wrongType s value =>
    some (s.name ++ ": expected " ++ s.valueWord ++ ", got " ++ value.render)
  | notBoolean name given => some (name ++ ": expected a boolean, got " ++ given.quoted)
  | notInteger name given => some (name ++ ": expected an integer, got " ++ Text.quoted given)
  | tooSmall s least given =>
    some (s.name ++ " must be at least " ++ toString least ++ ", got " ++ given.render)
  | unknownLogLevel given =>
    some ("log_level must be one of " ++ ", ".intercalate logLevels ++ ", got " ++ given.render)

/-- The text of an error, for those that are reported. -/
def SettingsError.message? (e : SettingsError) : Option String :=
  if e.shown.isShowable then e.detail? else some (Yaml.tooLongMessage "")

/-! ### Layers -/

/-- Some of the settings. -/
structure Layer where
  replMode : Option Bool := none
  maxErrors : Option Int := none
  showSource : Option Bool := none
  logLevel : Option Points := none
  recursionLimit : Option Int := none
  deriving DecidableEq, Repr, Inhabited

/-- A layer above another. -/
def Layer.over (upper lower : Layer) : Layer :=
  { replMode := upper.replMode <|> lower.replMode
    maxErrors := upper.maxErrors <|> lower.maxErrors
    showSource := upper.showSource <|> lower.showSource
    logLevel := upper.logLevel <|> lower.logLevel
    recursionLimit := upper.recursionLimit <|> lower.recursionLimit }

/-- The words for true. -/
def yesWords : List String :=
  ["1", "true", "yes", "on"]

/-- The words for false. -/
def noWords : List String :=
  ["0", "false", "no", "off"]

/-- The truth value that a word stands for, in any case and with blanks around
it. -/
def readFlag (name : String) (given : Points) : Except SettingsError Bool :=
  match given.chars? with
  | none => .error (.notBoolean name given)
  | some chars =>
    let word := String.ofList ((Text.stripChars chars).map Char.toLower)
    if yesWords.contains word then .ok true
    else if noWords.contains word then .ok false
    else .error (.notBoolean name given)

/-! ### The settings file -/

/-- The truth value that a document gives for a setting. -/
def Setting.flag (s : Setting) : Yaml → Except SettingsError Bool
  | .bool b => .ok b
  | .text given => readFlag s.name given
  | y => .error (.wrongType s y)

/-- The whole number that a document gives for a setting. -/
def Setting.number (s : Setting) : Yaml → Except SettingsError Int
  | .int n => .ok n
  | y => .error (.wrongType s y)

/-- The text that a document gives for a setting. -/
def Setting.text (s : Setting) : Yaml → Except SettingsError Points
  | .text t => .ok t
  | y => .error (.wrongType s y)

/-- The layer with one more setting of a document. -/
def Layer.put (l : Layer) (s : Setting) (y : Yaml) : Except SettingsError Layer :=
  match s with
  | .replMode => do return { l with replMode := some (← s.flag y) }
  | .maxErrors => do return { l with maxErrors := some (← s.number y) }
  | .showSource => do return { l with showSource := some (← s.flag y) }
  | .logLevel => do return { l with logLevel := some (← s.text y).upper }
  | .recursionLimit => do return { l with recursionLimit := some (← s.number y) }

/-- The layer with the entries of a mapping; `path` is where they stand. -/
def Layer.putAll (path : String) : Layer → List (Yaml × Yaml) → Except SettingsError Layer
  | l, [] => .ok l
  | l, (key, value) :: rest =>
    match Setting.ofKey? key with
    | none => .error (.unknownSetting path key)
    | some s => do putAll path (← l.put s value) rest

/-- The layer that a document gives.  A document that says nothing gives
nothing. -/
def Layer.ofDocument (path : String) (y : Yaml) : Except SettingsError Layer :=
  if y.isFalsy then .ok {}
  else match y with
  | .map entries => putAll path {} entries
  | _ => .error (.notMapping path)

/-- The layer that the text of a file gives. -/
def Layer.ofText (path : String) (legible : Yaml.Legible) : Except SettingsError Layer :=
  match Yaml.read legible.text legible.trouble.isNone with
  | .ok y => ofDocument path y
  | .error (.faulty f) => .error (.faulty f)
  | .error .malformed => .error (.notYaml path)
  | .error .starved =>
    match legible.trouble with
    | some (some e) => .error (.unreadable (.undecodable e))
    | _ => .error (.notYaml path)

/-- The layer that a file gives. -/
def Layer.ofFile (path : String) (entry : Entry) : Except SettingsError Layer :=
  match entry, entry.bytes path with
  | .missing, _ | .underFile, _ => .error (.notFound path)
  | _, .error e => .error (.unreadable e)
  | _, .ok bytes => ofText path (.ofFile bytes)

/-! ### The environment -/

/-- What lies around a program when it starts. -/
structure Surroundings where
  /-- What is found under the name of a file. -/
  look : String → Entry
  /-- The value of a variable of the environment. -/
  environment : String → Option String
  /-- The name of the current folder. -/
  folder : String

/-- The value of a variable, unless it is empty. -/
def Surroundings.setting? (w : Surroundings) (name : String) : Option String :=
  (w.environment name).filter (!·.isEmpty)

/-- The whole number in a variable. -/
def Surroundings.number? (w : Surroundings) (name : String) :
    Except SettingsError (Option Int) :=
  match w.setting? name with
  | none => .ok none
  | some given =>
    match Text.readDecimal? given with
    | some n => .ok (some n)
    | none => .error (.notInteger name given)

/-- The truth value in a variable. -/
def Surroundings.flag? (w : Surroundings) (name : String) :
    Except SettingsError (Option Bool) :=
  match w.setting? name with
  | none => .ok none
  | some given => some <$> readFlag name (points given)

/-- The layer that the environment gives. -/
def Layer.ofEnvironment (w : Surroundings) : Except SettingsError Layer := do
  let maxErrors ← w.number? "TREELOX_MAX_ERRORS"
  let showSource ← w.flag? "TREELOX_SHOW_SOURCE"
  let recursionLimit ← w.number? "TREELOX_RECURSION_LIMIT"
  let logLevel := (w.setting? "TREELOX_LOG_LEVEL").map fun level => points (Text.upper level)
  return { maxErrors, showSource, logLevel, recursionLimit }

/-! ### Loading -/

/-- The name of the settings file in a folder. -/
def usualSettingsFile (folder : String) : String :=
  folder ++ "/treelox.yaml"

/-- The settings file: the one that is named, the one that the environment
names, or the one in the current folder. -/
def Surroundings.settingsFile? (w : Surroundings) (path : Option String) : Option String :=
  match path <|> w.setting? "TREELOX_CONFIG" with
  | some path => some (normalPath path)
  | none =>
    let usual := usualSettingsFile w.folder
    if (w.look usual).isThere then some usual else none

/-- The layer that the file and the environment give. -/
def Layer.gather (w : Surroundings) (path : Option String) : Except SettingsError Layer := do
  let fromFile ← match w.settingsFile? path with
    | none => .ok {}
    | some file => Layer.ofFile file (w.look file)
  let fromEnvironment ← Layer.ofEnvironment w
  return fromEnvironment.over fromFile

/-- The log level with some name. -/
def logLevel? (name : Points) : Option String :=
  logLevels.find? fun level => points level == name

/-- The settings of a layer above what holds otherwise, if they are in
range. -/
def Layer.settings (l : Layer) : Except SettingsError Settings :=
  let otherwise : Settings := {}
  let maxErrors := l.maxErrors.getD otherwise.maxErrors
  let recursionLimit := l.recursionLimit.getD otherwise.recursionLimit
  let level := l.logLevel.getD (points otherwise.logLevel)
  if maxErrors < minMaxErrors then .error (.tooSmall .maxErrors minMaxErrors (.int maxErrors))
  else if recursionLimit < minRecursionLimit then
    .error (.tooSmall .recursionLimit minRecursionLimit (.int recursionLimit))
  else match logLevel? level with
    | none => .error (.unknownLogLevel (.text level))
    | some logLevel =>
      .ok { replMode := l.replMode.getD otherwise.replMode
            maxErrors
            showSource := l.showSource.getD otherwise.showSource
            logLevel
            recursionLimit }

/-- The settings of a run: the file's, below the environment's, below the
caller's. -/
def Settings.load (w : Surroundings) (path : Option String) (overrides : Layer) :
    Except SettingsError Settings := do
  (overrides.over (← Layer.gather w path)).settings

end Lox
