/-
Settings that a caller overrides.

A caller names settings and gives their values, which are taken as they are,
also if they are of another kind than the setting.  Only the numbers and the
log level are looked at: they have to be in range.

* `Chosen` — the settings, of any kind;
* `Chosen.check` — whether they are in range; for the settings of a layer this
  says the same as `Layer.settings` (`check_chosen`);
* `Chosen.load` — the settings below those of a caller.
-/
import Lox.Settings.Load

namespace Lox

open Text (points)

/-- Why there are no settings below those of a caller. -/
inductive OverrideError where
  | settings (e : SettingsError)
  | unknownName (name : String)
  /-- The value for a number cannot be compared with one. -/
  | notComparable (s : Setting)

/-- The settings, of any kind. -/
structure Chosen where
  replMode : Yaml
  maxErrors : Yaml
  showSource : Yaml
  logLevel : Yaml
  recursionLimit : Yaml

/-- The settings of a layer above what holds otherwise. -/
def Layer.chosen (l : Layer) : Chosen :=
  let otherwise : Settings := {}
  { replMode := .bool (l.replMode.getD otherwise.replMode)
    maxErrors := .int (l.maxErrors.getD otherwise.maxErrors)
    showSource := .bool (l.showSource.getD otherwise.showSource)
    logLevel := .text (l.logLevel.getD (points otherwise.logLevel))
    recursionLimit := .int (l.recursionLimit.getD otherwise.recursionLimit) }

namespace Chosen

/-- The settings with another value for one. -/
def put (c : Chosen) (s : Setting) (y : Yaml) : Chosen :=
  match s with
  | .replMode => { c with replMode := y }
  | .maxErrors => { c with maxErrors := y }
  | .showSource => { c with showSource := y }
  | .logLevel => { c with logLevel := y }
  | .recursionLimit => { c with recursionLimit := y }

/-- The settings with other values for those that are named. -/
def putAll (c : Chosen) (overrides : List (String × Yaml)) : Except OverrideError Chosen :=
  overrides.foldlM (fun c (name, y) =>
    match Setting.all.find? (·.name == name) with
    | some s => .ok (c.put s y)
    | none => .error (.unknownName name)) c

/-! ### Ranges -/

/-- Whether a value is below a number, if it can be compared with one; truth
values count as one and zero. -/
def below? (bound : Int) : Yaml → Option Bool
  | .bool b => some ((if b then 1 else 0) < bound)
  | .int n => some (n < bound)
  | .float x => some (x < Float.ofInt bound)
  | _ => none

/-- Refuses a value below a number. -/
def atLeast (s : Setting) (least : Int) (y : Yaml) : Except OverrideError Unit :=
  match below? least y with
  | some false => .ok ()
  | some true => .error (.settings (.tooSmall s least y))
  | none => .error (.notComparable s)

/-- Refuses what is no log level. -/
def isLevel (y : Yaml) : Except OverrideError Unit :=
  match y with
  | .text name =>
    if (logLevel? name).isSome then .ok () else .error (.settings (.unknownLogLevel y))
  | _ => .error (.settings (.unknownLogLevel y))

/-- Finds the first setting that is out of range. -/
def check (c : Chosen) : Except OverrideError Unit := do
  atLeast .maxErrors minMaxErrors c.maxErrors
  atLeast .recursionLimit minRecursionLimit c.recursionLimit
  isLevel c.logLevel

/-- A layer is in range if it gives settings, and out of range for the same
reason if it does not. -/
theorem check_chosen (l : Layer) :
    l.chosen.check = (l.settings.map fun _ => ()).mapError .settings := by
  simp only [check, Layer.chosen, Layer.settings, atLeast, below?, isLevel]
  by_cases few : l.maxErrors.getD 20 < minMaxErrors
  · simp only [few, decide_true, if_true]
    rfl
  by_cases low : l.recursionLimit.getD 25000 < minRecursionLimit
  · simp only [few, low, decide_true, decide_false, if_true, if_false]
    rfl
  simp only [few, low, decide_false, if_false]
  cases logLevel? (l.logLevel.getD (points "WARNING")) <;> rfl

/-- The settings of the file and the environment below those of a caller. -/
def load (w : Surroundings) (path : Option String) (overrides : List (String × Yaml)) :
    Except OverrideError Chosen := do
  let below ← (Layer.gather w path).mapError .settings
  let c ← below.chosen.putAll overrides
  c.check
  return c

end Chosen

end Lox
