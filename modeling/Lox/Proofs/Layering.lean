/-
Where the value of a setting comes from.

A setting has the value of the caller if there is one, else that of its variable in the
environment, else that of its entry in the settings file, else what holds otherwise.  The lower
layers are read whole, also where a higher one covers them: a value of the wrong type is an
error in any layer but the caller's.  Whether a value is in range is asked of what comes out
only, and it is asked whether a number is too small: a caller's float that is no number is not.

* `Surroundings.Document` — the document of the settings file;
* `Setting.Reads`, `ofEnvironment_cases` — the layer of the environment;
* `Setting.Layered` — the value of a setting, by the layers;
* `Chosen.InRange`, `Chosen.Passes`, `check_iff` — what is asked of the values that come out;
* `load_layers` — when there are settings, which they are, and the errors of the lower layers;
* `load_exceptions` — settings out of range, and a document that is no mapping.
-/
import Lox.Proofs.Documents
import Lox.Settings.Override
import Mathlib

namespace Lox

open Text (Points points)

/-! ### The environment -/

/-- The variable of the environment that gives a setting. -/
def Setting.variable? : Setting → Option String
  | .replMode => none
  | .maxErrors => some "TREELOX_MAX_ERRORS"
  | .showSource => some "TREELOX_SHOW_SOURCE"
  | .logLevel => some "TREELOX_LOG_LEVEL"
  | .recursionLimit => some "TREELOX_RECURSION_LIMIT"

/-- What the environment gives for a setting: the value of its variable, unless it is empty. -/
def Setting.given? (s : Setting) (w : Surroundings) : Option String :=
  s.variable?.bind w.setting?

/-- What a setting takes from the text of a variable, and the value that it takes. -/
inductive Setting.Reads (s : Setting) (given : String) : Yaml → Prop
  | flag {b : Bool} (hs : s.valueWord = "bool") (hb : Flagged b (points given)) :
      Reads s given (.bool b)
  | number {n : Int} (hs : s.valueWord = "int") (hn : Text.readDecimal? given = some n) :
      Reads s given (.int n)
  | level (hs : s.valueWord = "str") : Reads s given (.text (points (Text.upper given)))

/-- Every variable that is set has a value that its setting takes. -/
def Surroundings.GivesSettings (w : Surroundings) : Prop :=
  ∀ (s : Setting) (given : String), s.given? w = some given → ∃ v, s.Reads given v

variable {w : Surroundings} {s : Setting} {given : String} {v v' : Yaml}

theorem Setting.reads_flag (hs : s.valueWord = "bool") (h : s.Reads given v) :
    ∃ b, Flagged b (points given) ∧ v = .bool b := by
  cases h with
  | flag _ hb => exact ⟨_, hb, rfl⟩
  | number hs' _ => exact absurd (hs.symm.trans hs') (by decide)
  | level hs' => exact absurd (hs.symm.trans hs') (by decide)

theorem Setting.reads_number (hs : s.valueWord = "int") (h : s.Reads given v) :
    ∃ n, Text.readDecimal? given = some n ∧ v = .int n := by
  cases h with
  | flag hs' _ => exact absurd (hs.symm.trans hs') (by decide)
  | number _ hn => exact ⟨_, hn, rfl⟩
  | level hs' => exact absurd (hs.symm.trans hs') (by decide)

theorem Setting.reads_level (hs : s.valueWord = "str") (h : s.Reads given v) :
    v = .text (points (Text.upper given)) := by
  cases h with
  | flag hs' _ => exact absurd (hs.symm.trans hs') (by decide)
  | number hs' _ => exact absurd (hs.symm.trans hs') (by decide)
  | level _ => rfl

/-- A setting takes one value at most from the text of a variable. -/
theorem Setting.Reads.unique (h : s.Reads given v) (h' : s.Reads given v') : v = v' := by
  cases h with
  | flag hs hb =>
    obtain ⟨b', hb', rfl⟩ := Setting.reads_flag hs h'
    rw [hb.unique hb']
  | number hs hn =>
    obtain ⟨n', hn', rfl⟩ := Setting.reads_number hs h'
    rw [Option.some.inj (hn.symm.trans hn')]
  | level hs => exact (Setting.reads_level hs h').symm

theorem flag?_cases {name : String} (hs : s.valueWord = "bool") (hname : s.variable? = some name) :
    (∃ got, w.flag? name = .ok got ∧ Takes s.Reads (s.given? w) (got.map .bool)) ∨
      ∃ e, w.flag? name = .error e ∧ e.IsInvalid ∧
        ∃ given, s.given? w = some given ∧ ∀ v, ¬s.Reads given v := by
  have hgiven : s.given? w = w.setting? name := by rw [Setting.given?, hname, Option.bind_some]
  rw [hgiven]
  unfold Surroundings.flag?
  cases w.setting? name with
  | none => exact .inl ⟨none, rfl, rfl⟩
  | some given =>
    dsimp only
    cases hread : readFlag name (points given) with
    | ok b => exact .inl ⟨some b, rfl, .bool b, .flag hs (readFlag_iff.mp hread), rfl⟩
    | error e =>
      refine .inr ⟨e, rfl, readFlag_error hread ▸ trivial, given, rfl, fun v hv => ?_⟩
      obtain ⟨b, hb, -⟩ := Setting.reads_flag hs hv
      rw [readFlag_iff.mpr hb] at hread
      cases hread

theorem number?_cases {name : String} (hs : s.valueWord = "int") (hname : s.variable? = some name) :
    (∃ got, w.number? name = .ok got ∧ Takes s.Reads (s.given? w) (got.map .int)) ∨
      ∃ e, w.number? name = .error e ∧ e.IsInvalid ∧
        ∃ given, s.given? w = some given ∧ ∀ v, ¬s.Reads given v := by
  have hgiven : s.given? w = w.setting? name := by rw [Setting.given?, hname, Option.bind_some]
  rw [hgiven]
  unfold Surroundings.number?
  cases w.setting? name with
  | none => exact .inl ⟨none, rfl, rfl⟩
  | some given =>
    dsimp only
    cases hread : Text.readDecimal? given with
    | some n => exact .inl ⟨some n, rfl, .int n, .number hs hread, rfl⟩
    | none =>
      refine .inr ⟨_, rfl, trivial, given, rfl, fun v hv => ?_⟩
      obtain ⟨n, hn, -⟩ := Setting.reads_number hs hv
      rw [hn] at hread
      cases hread

/-- The environment is read if the variables that are set have values of the right type, and
then every setting takes what its variable means; else it is refused. -/
theorem ofEnvironment_cases (w : Surroundings) :
    (w.GivesSettings ∧ ∃ l, Layer.ofEnvironment w = .ok l ∧
      ∀ s, Takes s.Reads (s.given? w) (l.get? s)) ∨
    ¬w.GivesSettings ∧ ∃ e, Layer.ofEnvironment w = .error e ∧ e.IsInvalid := by
  -- The variables are read in this order, and the first that is wrong ends it.
  unfold Layer.ofEnvironment
  rcases number?_cases (w := w) (s := .maxErrors) rfl rfl with
    ⟨few, hfew, htfew⟩ | ⟨e, hfew, he, given, hgiven, hno⟩
  rotate_left
  · exact .inr ⟨fun h => (h _ _ hgiven).elim hno, e, by rw [hfew]; rfl, he⟩
  rcases flag?_cases (w := w) (s := .showSource) rfl rfl with
    ⟨shown, hshown, htshown⟩ | ⟨e, hshown, he, given, hgiven, hno⟩
  rotate_left
  · exact .inr ⟨fun h => (h _ _ hgiven).elim hno, e, by rw [hfew, hshown]; rfl, he⟩
  rcases number?_cases (w := w) (s := .recursionLimit) rfl rfl with
    ⟨limit, hlimit, htlimit⟩ | ⟨e, hlimit, he, given, hgiven, hno⟩
  rotate_left
  · exact .inr ⟨fun h => (h _ _ hgiven).elim hno, e, by rw [hfew, hshown, hlimit]; rfl, he⟩
  rw [hfew, hshown, hlimit]
  -- All three are right; the log level is any text, and no variable gives the mode.
  have htakes : ∀ l : Layer, l = ⟨none, few, shown,
      (w.setting? "TREELOX_LOG_LEVEL").map fun level => points (Text.upper level), limit⟩ →
      ∀ s, Takes s.Reads (s.given? w) (l.get? s) := by
    rintro l rfl s
    cases s with
    | replMode => rfl
    | maxErrors => exact htfew
    | showSource => exact htshown
    | recursionLimit => exact htlimit
    | logLevel =>
      have hgiven : Setting.logLevel.given? w = w.setting? "TREELOX_LOG_LEVEL" := rfl
      rw [hgiven, Layer.get?]
      cases w.setting? "TREELOX_LOG_LEVEL" with
      | none => rfl
      | some given => exact ⟨_, .level rfl, rfl⟩
  refine .inl ⟨fun s given hgiven => ?_, _, rfl, htakes _ rfl⟩
  have htaken := htakes _ rfl s
  rw [hgiven] at htaken
  obtain ⟨v, hv, -⟩ := htaken
  exact ⟨v, hv⟩

/-! ### The settings file -/

/-- The document of the settings file; without a file it is the one that says nothing. -/
inductive Surroundings.Document (w : Surroundings) (path : Option String) : Yaml → Prop
  | absent (hfile : w.settingsFile? path = none) : Document w path .null
  | read {file : String} {bytes : List UInt8} {y : Yaml}
      (hfile : w.settingsFile? path = some file) (hlook : w.look file = .file bytes)
      (hread : Yaml.read (.ofFile bytes : Yaml.Legible).text
        (.ofFile bytes : Yaml.Legible).trouble.isNone = .ok y) : Document w path y

variable {path : Option String} {y : Yaml}

theorem gather_of_file {file : String} (hfile : w.settingsFile? path = some file) :
    Layer.gather w path = do
      let fromFile ← Layer.ofFile file (w.look file)
      let fromEnvironment ← Layer.ofEnvironment w
      return fromEnvironment.over fromFile := by
  unfold Layer.gather
  rw [hfile]

theorem ofFile_file (file : String) (bytes : List UInt8) :
    Layer.ofFile file (.file bytes) = Layer.ofText file (.ofFile bytes) :=
  rfl

theorem ofFile_of_read {file : String} {bytes : List UInt8}
    (hread : Yaml.read (.ofFile bytes : Yaml.Legible).text
      (.ofFile bytes : Yaml.Legible).trouble.isNone = .ok y) :
    Layer.ofFile file (.file bytes) = Layer.ofDocument file y := by
  rw [ofFile_file, Layer.ofText, hread]

/-- The lower layers are read from the document and the environment. -/
theorem gather_of_document (h : w.Document path y) : ∃ file, Layer.gather w path = do
    let fromFile ← Layer.ofDocument file y
    let fromEnvironment ← Layer.ofEnvironment w
    return fromEnvironment.over fromFile := by
  cases h with
  | absent hfile =>
    refine ⟨"", ?_⟩
    unfold Layer.gather
    rw [hfile]
    rfl
  | @read file bytes _ hfile hlook hread =>
    refine ⟨file, ?_⟩
    rw [gather_of_file hfile, hlook, ofFile_of_read hread]

/-- If the lower layers are read, there is a document. -/
theorem document_of_gather {l : Layer} (h : Layer.gather w path = .ok l) :
    ∃ y, w.Document path y := by
  cases hfile : w.settingsFile? path with
  | none => exact ⟨.null, .absent hfile⟩
  | some file =>
    rw [gather_of_file hfile] at h
    cases hlook : w.look file with
    | file bytes =>
      cases hread : Yaml.read (.ofFile bytes : Yaml.Legible).text
        (.ofFile bytes : Yaml.Legible).trouble.isNone with
      | ok y => exact ⟨y, .read hfile hlook hread⟩
      | error stop =>
        -- A text that cannot be read is refused in one way or another, and with it the layer.
        have hrefused : ∃ e, Layer.ofFile file (.file bytes) = .error e := by
          rw [ofFile_file, Layer.ofText, hread]
          cases stop with
          | malformed => exact ⟨_, rfl⟩
          | faulty f => exact ⟨_, rfl⟩
          | starved =>
            dsimp only
            split <;> exact ⟨_, rfl⟩
        obtain ⟨e, he⟩ := hrefused
        rw [hlook, he] at h
        cases h
    | _ =>
      rw [hlook] at h
      cases h

/-- A file that is no document is refused. -/
theorem gather_of_malformed {file : String} {bytes : List UInt8}
    (hfile : w.settingsFile? path = some file) (hlook : w.look file = .file bytes)
    (hread : Yaml.read (.ofFile bytes : Yaml.Legible).text
      (.ofFile bytes : Yaml.Legible).trouble.isNone = .error .malformed) :
    Layer.gather w path = .error (.notYaml file) := by
  rw [gather_of_file hfile, hlook, ofFile_file, Layer.ofText, hread]
  rfl

/-! ### The caller -/

/-- The value of a setting that a caller gives. -/
def Setting.override? (s : Setting) (overrides : List (String × Yaml)) : Option Yaml :=
  (overrides.reverse.find? fun o => o.1 == s.name).map (·.2)

/-- The value of a setting. -/
def Chosen.get (c : Chosen) : Setting → Yaml
  | .replMode => c.replMode
  | .maxErrors => c.maxErrors
  | .showSource => c.showSource
  | .logLevel => c.logLevel
  | .recursionLimit => c.recursionLimit

variable {c c' : Chosen} {overrides : List (String × Yaml)}

theorem Chosen.ext_get (h : ∀ s, c.get s = c'.get s) : c = c' := by
  cases c
  cases c'
  exact Chosen.mk.injEq .. ▸ ⟨h .replMode, h .maxErrors, h .showSource, h .logLevel,
    h .recursionLimit⟩

theorem Chosen.get_put (c : Chosen) (s t : Setting) (y : Yaml) :
    (c.put s y).get t = if t = s then y else c.get t := by
  cases s <;> cases t <;> rfl

theorem Setting.name_inj {s s' : Setting} (h : s.name = s'.name) : s = s' :=
  points_name_inj (congrArg points h)

theorem Setting.find?_name_eq_some_iff {name : String} :
    (all.find? fun s => s.name == name) = some s ↔ name = s.name := by
  constructor
  · intro h
    have hfound := List.find?_some h
    exact (eq_of_beq hfound).symm
  · rintro rfl
    cases s <;> decide

theorem Setting.override?_cons (s : Setting) (name : String) (y : Yaml)
    (rest : List (String × Yaml)) : s.override? ((name, y) :: rest) =
      (s.override? rest <|> if name == s.name then some y else none) := by
  unfold override?
  rw [List.reverse_cons, List.find?_append, List.find?_singleton]
  cases rest.reverse.find? fun o => o.1 == s.name with
  | none => cases name == s.name <;> rfl
  | some o => rfl

/-- A caller's values are taken as they are, if all names are those of settings. -/
theorem overrides_cases : ∀ (overrides : List (String × Yaml)) (c : Chosen),
    ((∀ o ∈ overrides, ∃ s : Setting, o.1 = s.name) ∧ ∃ c', c.putAll overrides = .ok c' ∧
      ∀ s, c'.get s = (s.override? overrides).getD (c.get s)) ∨
    (¬∀ o ∈ overrides, ∃ s : Setting, o.1 = s.name) ∧ ∃ e, c.putAll overrides = .error e := by
  intro overrides
  -- The values are put one after another, so of two for one setting the later is kept.
  induction overrides with
  | nil => exact fun c => .inl ⟨List.forall_mem_nil _, c, rfl, fun s => rfl⟩
  | cons o rest ih =>
    intro c
    obtain ⟨name, y⟩ := o
    rw [List.forall_mem_cons]
    cases hname : Setting.all.find? fun s => s.name == name with
    | none =>
      refine .inr ⟨?_, .unknownName name, ?_⟩
      · rintro ⟨⟨s, hs⟩, -⟩
        rw [Setting.find?_name_eq_some_iff.mpr hs] at hname
        cases hname
      · simp only [Chosen.putAll, List.foldlM_cons, hname]
        rfl
    | some s =>
      have hs := Setting.find?_name_eq_some_iff.mp hname
      have hstep : c.putAll ((name, y) :: rest) = (c.put s y).putAll rest := by
        simp only [Chosen.putAll, List.foldlM_cons, hname]
        rfl
      rw [hstep]
      rcases ih (c.put s y) with ⟨hknown, c', hput, hget⟩ | ⟨hknown, hrefused⟩
      · refine .inl ⟨⟨⟨s, hs⟩, hknown⟩, c', hput, fun t => ?_⟩
        rw [hget, Chosen.get_put, Setting.override?_cons]
        cases t.override? rest with
        | some v => rfl
        | none =>
          by_cases hts : t = s
          · rw [if_pos hts, hs, hts, beq_self_eq_true, if_pos rfl]
            rfl
          · rw [if_neg hts,
              if_neg fun heq => hts (Setting.name_inj ((eq_of_beq heq).symm.trans hs))]
            rfl
      · exact .inr ⟨fun h => hknown h.2, hrefused⟩

/-! ### Ranges -/

/-- A value is at least a number; truth values count as one and zero, and a float that is no
number is not at least anything. -/
def Yaml.AtLeast (n : Int) : Yaml → Prop
  | .int k => n ≤ k
  | .bool b => n ≤ if b then 1 else 0
  | .float x => Float.ofInt n ≤ x
  | _ => False

/-- A value is the float that is no number. -/
def Yaml.IsNaN : Yaml → Prop
  | .float x => x.isNaN = true
  | _ => False

/-- The numbers are large enough, and the log level is a known one. -/
structure Chosen.InRange (c : Chosen) : Prop where
  maxErrors : c.maxErrors.AtLeast 1
  recursionLimit : c.recursionLimit.AtLeast 1000
  logLevel : ∃ level ∈ logLevels, c.logLevel = .text (points level)

/-- Nothing is found to be out of range: the settings are in range, but for floats that are no
numbers. -/
structure Chosen.Passes (c : Chosen) : Prop where
  maxErrors : c.maxErrors.AtLeast 1 ∨ c.maxErrors.IsNaN
  recursionLimit : c.recursionLimit.AtLeast 1000 ∨ c.recursionLimit.IsNaN
  logLevel : ∃ level ∈ logLevels, c.logLevel = .text (points level)

/-- Two floats compared the other way round. -/
theorem unpacked_compare_swap (a b : Float.Model.UnpackedFloat) :
    b.compare a = (a.compare b).map Ordering.swap := by
  have hmagnitudes : ∀ (m m' : Nat) (e e' : Int),
      ((compare e e').then (compare m m')).swap = (compare e' e).then (compare m' m) :=
    fun m m' e e' => by rw [Ordering.swap_then, Int.compare_swap, Nat.compare_swap]
  -- Only two numbers of one sign are compared by their size; the other answers are fixed.
  cases a with
  | finite s m e _ =>
    cases b with
    | finite s' m' e' _ =>
      cases s with
      | positive =>
        cases s' with
        | positive => exact congrArg some (hmagnitudes m m' e e').symm
        | negative => rfl
      | negative =>
        cases s' with
        | positive => rfl
        | negative => exact congrArg (fun o => some o.swap) (hmagnitudes m m' e e').symm
    | infinity s' => cases s' <;> rfl
    | zero s' => cases s <;> rfl
    | notANumber => rfl
  | infinity s => rcases b with (_ | _) | _ | _ | _ <;> cases s <;> rfl
  | zero s => rcases b with (_ | _) | _ | _ | ⟨_ | _, _, _, _⟩ <;> rfl
  | notANumber => cases b <;> rfl

theorem unpacked_compare_eq_none_iff {a b : Float.Model.UnpackedFloat} :
    a.compare b = none ↔ a.isNaN = true ∨ b.isNaN = true := by
  fun_cases Float.Model.UnpackedFloat.compare a b <;>
    simp_all [Float.Model.UnpackedFloat.isNaN]

/-- A float that is not below a number is at least that number, or is no number. -/
theorem float_not_lt_iff {x bound : Float} (hbound : bound.isNaN = false) :
    ¬x < bound ↔ bound ≤ x ∨ x.isNaN = true := by
  have hlt : x < bound ↔ x.toModel.unpack.compare bound.toModel.unpack = some .lt :=
    decide_eq_true_iff.trans beq_iff_eq
  have hle : bound ≤ x ↔
      (bound.toModel.unpack.compare x.toModel.unpack).any Ordering.isLE = true :=
    decide_eq_true_iff
  have hnan : x.isNaN = true ↔ x.toModel.unpack.isNaN = true := .rfl
  have hnumber : ¬bound.toModel.unpack.isNaN = true := (Bool.not_eq_true _).mpr hbound
  rw [hlt, hle, hnan, unpacked_compare_swap x.toModel.unpack]
  cases hcompare : x.toModel.unpack.compare bound.toModel.unpack with
  | none =>
    exact iff_of_true nofun
      (.inr ((unpacked_compare_eq_none_iff.mp hcompare).resolve_right hnumber))
  | some o =>
    have hx : ¬x.toModel.unpack.isNaN = true := fun h => by
      rw [unpacked_compare_eq_none_iff.mpr (.inl h)] at hcompare
      cases hcompare
    rw [or_iff_left hx]
    cases o <;> decide

theorem atLeast_of_below {p : Prop} [Decidable p] {n : Int}
    (h : Chosen.below? n y = some (decide p)) : Chosen.atLeast s n y = .ok () ↔ ¬p := by
  unfold Chosen.atLeast
  rw [h]
  by_cases hp : p
  · rw [decide_eq_true hp]
    refine iff_of_false (fun h => ?_) (not_not_intro hp)
    cases h
  · rw [decide_eq_false hp]
    exact iff_of_true rfl hp

theorem atLeast_iff {n : Int} (hn : (Float.ofInt n).isNaN = false) :
    Chosen.atLeast s n y = .ok () ↔ y.AtLeast n ∨ y.IsNaN := by
  cases y with
  | bool b => exact (atLeast_of_below rfl).trans (Int.not_lt.trans (or_iff_left id).symm)
  | int k => exact (atLeast_of_below rfl).trans (Int.not_lt.trans (or_iff_left id).symm)
  | float x => exact (atLeast_of_below rfl).trans (float_not_lt_iff hn)
  | _ =>
    refine iff_of_false (fun h => ?_) (or_self_iff.mp)
    cases h

theorem isLevel_iff :
    Chosen.isLevel y = .ok () ↔ ∃ level ∈ logLevels, y = .text (points level) := by
  cases y with
  | text name =>
    unfold Chosen.isLevel logLevel?
    dsimp only
    split_ifs with h
    · obtain ⟨level, hlevel, hname⟩ := List.find?_isSome.mp h
      exact iff_of_true rfl ⟨level, hlevel, by rw [eq_of_beq hname]⟩
    · refine iff_of_false nofun ?_
      rintro ⟨level, hlevel, hname⟩
      exact h (List.find?_isSome.mpr ⟨level, hlevel, beq_iff_eq.mpr (Yaml.text.inj hname).symm⟩)
  | _ => exact iff_of_false nofun fun ⟨_, _, h⟩ => nomatch h

theorem bind_eq_ok_iff {ε α β : Type} {x : Except ε α} {f : α → Except ε β} {b : β} :
    x >>= f = .ok b ↔ ∃ a, x = .ok a ∧ f a = .ok b := by
  cases x with
  | error e => exact iff_of_false nofun fun ⟨_, h, _⟩ => nomatch h
  | ok a => exact ⟨fun h => ⟨a, rfl, h⟩, fun ⟨_, ha, h⟩ => Except.ok.inj ha ▸ h⟩

theorem check_iff : c.check = .ok () ↔ c.Passes := by
  have hone : (Float.ofInt minMaxErrors).isNaN = false := by decide +kernel
  have hthousand : (Float.ofInt minRecursionLimit).isNaN = false := by decide +kernel
  unfold Chosen.check
  rw [bind_eq_ok_iff]
  simp only [bind_eq_ok_iff]
  constructor
  · rintro ⟨⟨⟩, hfew, ⟨⟩, hlow, hlevel⟩
    exact ⟨(atLeast_iff hone).mp hfew, (atLeast_iff hthousand).mp hlow, isLevel_iff.mp hlevel⟩
  · rintro ⟨hfew, hlow, hlevel⟩
    exact ⟨(), (atLeast_iff hone).mpr hfew, (), (atLeast_iff hthousand).mpr hlow,
      isLevel_iff.mpr hlevel⟩

/-- Settings among which every number is one are in range if they pass. -/
theorem Chosen.Passes.inRange (h : c.Passes) (hnumbers : ∀ s, ¬(c.get s).IsNaN) : c.InRange where
  maxErrors := h.maxErrors.resolve_right (hnumbers .maxErrors)
  recursionLimit := h.recursionLimit.resolve_right (hnumbers .recursionLimit)
  logLevel := h.logLevel

/-! ### All layers -/

/-- What holds for a setting that no layer gives. -/
def Setting.otherwise : Setting → Yaml
  | .replMode => .bool false
  | .maxErrors => .int 20
  | .showSource => .bool true
  | .logLevel => .text (points "WARNING")
  | .recursionLimit => .int 25000

/-- The value of a setting: that of the caller, else that of the environment, else that of the
document, else what holds otherwise. -/
inductive Setting.Layered (w : Surroundings) (y : Yaml) (overrides : List (String × Yaml))
    (s : Setting) : Yaml → Prop
  | caller {v : Yaml} (hv : s.override? overrides = some v) : Layered w y overrides s v
  | environment {given : String} {v : Yaml} (hcaller : s.override? overrides = none)
      (hgiven : s.given? w = some given) (hv : s.Reads given v) : Layered w y overrides s v
  | file {given v : Yaml} (hcaller : s.override? overrides = none) (hvariable : s.given? w = none)
      (hgiven : s.entry? y.entries = some given) (hv : s.Means given v) : Layered w y overrides s v
  | otherwise (hcaller : s.override? overrides = none) (hvariable : s.given? w = none)
      (hentry : s.entry? y.entries = none) : Layered w y overrides s s.otherwise

/-- The value of a setting, from what was read of the lower layers. -/
theorem layered_iff {fromFile fromEnvironment : Option Yaml}
    (hfile : Takes s.Means (s.entry? y.entries) fromFile)
    (henvironment : Takes s.Reads (s.given? w) fromEnvironment) :
    s.Layered w y overrides v ↔
      v = (s.override? overrides).getD ((fromEnvironment <|> fromFile).getD s.otherwise) := by
  constructor
  · intro h
    -- From the top layer down: each case says that the layers above give nothing.
    cases h with
    | caller hv =>
      rw [hv]
      rfl
    | environment hcaller hgiven hv =>
      rw [hgiven] at henvironment
      obtain ⟨u, hu, rfl⟩ := henvironment
      rw [hcaller, hv.unique hu]
      rfl
    | file hcaller hvariable hgiven hv =>
      rw [hvariable] at henvironment
      rw [hgiven] at hfile
      obtain rfl : fromEnvironment = none := henvironment
      obtain ⟨u, hu, rfl⟩ := hfile
      rw [hcaller, hv.unique hu]
      rfl
    | otherwise hcaller hvariable hentry =>
      rw [hvariable] at henvironment
      rw [hentry] at hfile
      obtain rfl : fromEnvironment = none := henvironment
      obtain rfl : fromFile = none := hfile
      rw [hcaller]
      rfl
  · rintro rfl
    cases hcaller : s.override? overrides with
    | some u => exact .caller hcaller
    | none =>
      cases hvariable : s.given? w with
      | some given =>
        rw [hvariable] at henvironment
        obtain ⟨u, hu, rfl⟩ := henvironment
        exact .environment hcaller hvariable hu
      | none =>
        rw [hvariable] at henvironment
        obtain rfl : fromEnvironment = none := henvironment
        cases hentry : s.entry? y.entries with
        | some given =>
          rw [hentry] at hfile
          obtain ⟨u, hu, rfl⟩ := hfile
          exact .file hcaller hvariable hentry hu
        | none =>
          rw [hentry] at hfile
          obtain rfl : fromFile = none := hfile
          exact .otherwise hcaller hvariable hentry

theorem Layer.get?_over (upper lower : Layer) (s : Setting) :
    (upper.over lower).get? s = (upper.get? s <|> lower.get? s) := by
  have hmap : ∀ {α : Type} (f : α → Yaml) (a b : Option α),
      (a <|> b).map f = (a.map f <|> b.map f) := by
    intro α f a b
    cases a <;> rfl
  cases s <;> exact hmap _ _ _

theorem Layer.get_chosen (l : Layer) (s : Setting) :
    l.chosen.get s = (l.get? s).getD s.otherwise := by
  have hmap : ∀ {α : Type} (f : α → Yaml) (a : Option α) (d : α),
      f (a.getD d) = (a.map f).getD (f d) := by
    intro α f a d
    cases a <;> rfl
  cases s <;> exact hmap _ _ _

/-- The lower layers, read from a document and the environment, if neither is refused. -/
theorem gather_cases (overrides : List (String × Yaml)) (h : w.Document path y) :
    ((y.GivesSettings ∧ w.GivesSettings) ∧ ∃ l, Layer.gather w path = .ok l ∧
      ∀ (s : Setting) (v : Yaml), s.Layered w y overrides v ↔
        v = (s.override? overrides).getD (l.chosen.get s)) ∨
    ¬(y.GivesSettings ∧ w.GivesSettings) ∧ ∃ e, Layer.gather w path = .error e ∧ e.IsInvalid := by
  obtain ⟨file, hgather⟩ := gather_of_document h
  rw [hgather]
  rcases ofDocument_cases file y with ⟨hy, fromFile, hfile, htfile⟩ | ⟨hy, e, hfile, he⟩
  · rcases ofEnvironment_cases w with ⟨hw, fromEnvironment, henv, htenv⟩ | ⟨hw, e, henv, he⟩
    · refine .inl ⟨⟨hy, hw⟩, fromEnvironment.over fromFile, by rw [hfile, henv]; rfl, fun s v => ?_⟩
      rw [Layer.get_chosen, Layer.get?_over]
      exact layered_iff (htfile s) (htenv s)
    · exact .inr ⟨fun h => hw h.2, e, by rw [hfile, henv]; rfl, he⟩
  · exact .inr ⟨fun h => hy h.1, e, by rw [hfile]; rfl, he⟩

/-- There are settings if and only if the document and the environment give some, the caller
names settings only, and nothing is out of range. -/
theorem load_eq_ok_iff : Chosen.load w path overrides = .ok c ↔
    ∃ y, w.Document path y ∧ y.GivesSettings ∧ w.GivesSettings ∧
      (∀ o ∈ overrides, ∃ s : Setting, o.1 = s.name) ∧
      (∀ s : Setting, s.Layered w y overrides (c.get s)) ∧ c.Passes := by
  constructor
  · intro hload
    unfold Chosen.load at hload
    obtain ⟨l, hl, hload⟩ := bind_eq_ok_iff.mp hload
    cases hgather : Layer.gather w path with
    | error e =>
      rw [hgather] at hl
      cases hl
    | ok l' =>
      obtain ⟨y, hdocument⟩ := document_of_gather hgather
      rcases gather_cases overrides hdocument with ⟨hgives, l₀, hl₀, hlayered⟩ | ⟨-, e, he, -⟩
      rotate_left
      · rw [hgather] at he
        cases he
      obtain rfl := Except.ok.inj (hgather.symm.trans hl₀)
      rw [hgather] at hl
      obtain rfl : l' = l := Except.ok.inj hl
      obtain ⟨c', hput, hload⟩ := bind_eq_ok_iff.mp hload
      obtain ⟨⟨⟩, hcheck, hc⟩ := bind_eq_ok_iff.mp hload
      obtain rfl : c' = c := Except.ok.inj hc
      rcases overrides_cases overrides l'.chosen with ⟨hknown, c₀, hc₀, hget⟩ | ⟨-, e, he⟩
      rotate_left
      · rw [hput] at he
        cases he
      obtain rfl := Except.ok.inj (hput.symm.trans hc₀)
      exact ⟨y, hdocument, hgives.1, hgives.2, hknown, fun s => (hlayered s _).mpr (hget s),
        check_iff.mp hcheck⟩
  · rintro ⟨y, hdocument, hy, hw, hknown, hlayered, hpasses⟩
    rcases gather_cases overrides hdocument with ⟨-, l, hgather, hlayers⟩ | ⟨hwrong, -⟩
    rotate_left
    · exact absurd ⟨hy, hw⟩ hwrong
    rcases overrides_cases overrides l.chosen with ⟨-, c', hput, hget⟩ | ⟨hunknown, -⟩
    rotate_left
    · exact absurd hknown hunknown
    -- The layers say what each setting is, so what is loaded can only be `c`.
    obtain rfl : c = c' := Chosen.ext_get fun s =>
      ((hlayers s _).mp (hlayered s)).trans (hget s).symm
    unfold Chosen.load
    rw [hgather]
    refine bind_eq_ok_iff.mpr ⟨l, rfl, bind_eq_ok_iff.mpr ⟨c, hput, ?_⟩⟩
    exact bind_eq_ok_iff.mpr ⟨(), check_iff.mpr hpasses, rfl⟩

/-- What is wrong in the lower layers is refused, whatever the caller gives. -/
theorem load_of_gather {e : SettingsError} (h : Layer.gather w path = .error e) :
    Chosen.load w path overrides = .error (.settings e) := by
  unfold Chosen.load
  rw [h]
  rfl

/-- Only a caller gives a float that is no number. -/
theorem Setting.Layered.override_of_isNaN (h : s.Layered w y overrides v) (hv : v.IsNaN) :
    s.override? overrides = some v := by
  cases h with
  | caller h => exact h
  | environment _ _ h => cases h <;> exact hv.elim
  | file _ _ _ h => cases h <;> exact hv.elim
  | otherwise => cases s <;> exact hv.elim

theorem Setting.mem_of_override? (h : s.override? overrides = some v) :
    (s.name, v) ∈ overrides := by
  obtain ⟨⟨name, v'⟩, hfound, rfl⟩ := Option.map_eq_some_iff.mp h
  have hnamed := List.find?_some hfound
  rw [← eq_of_beq hnamed]
  exact List.mem_reverse.mp (List.mem_of_find?_eq_some hfound)

/-- A document holds settings: it is the empty one, or a mapping with entries that fit. -/
def Yaml.HoldsSettings (y : Yaml) : Prop :=
  y = .null ∨ ∃ entries, y = .map entries ∧ ∀ e ∈ entries, Fitting e

theorem Yaml.givesSettings_iff : y.GivesSettings ↔ y.HoldsSettings ∨ y.Vacant := by
  unfold Yaml.GivesSettings Yaml.HoldsSettings
  constructor
  · rintro (hvacant | hmap)
    · exact .inr hvacant
    · exact .inl (.inr hmap)
  · rintro ((rfl | hmap) | hvacant)
    · exact .inl .null
    · exact .inr hmap
    · exact .inl hvacant

/-- Settings are what comes out layer by layer, and they are in range, but for floats that are
no numbers; these come from the caller, so without them the settings are in range.  There are
settings whenever the document and the environment hold some, the caller names settings only,
and what comes out is not out of range, whatever a layer that is covered gives.  Where the
document or the environment is wrong the settings are invalid, whatever lies above.  Whether
there are settings is not said where the document counts as nothing and is no mapping. -/
theorem load_layers (w : Surroundings) (path : Option String)
    (overrides : List (String × Yaml)) :
    (∀ c, Chosen.load w path overrides = .ok c →
      ∃ y, w.Document path y ∧ (∀ s : Setting, s.Layered w y overrides (c.get s)) ∧ c.Passes ∧
        ((∀ o ∈ overrides, ¬o.2.IsNaN) → c.InRange)) ∧
    (∀ y c, w.Document path y → y.HoldsSettings → w.GivesSettings →
      (∀ o ∈ overrides, ∃ s : Setting, o.1 = s.name) →
      (∀ s : Setting, s.Layered w y overrides (c.get s)) → c.Passes →
      Chosen.load w path overrides = .ok c) ∧
    (∀ y, w.Document path y → ¬((y.HoldsSettings ∨ y.Vacant) ∧ w.GivesSettings) →
      ∃ e, Chosen.load w path overrides = .error (.settings e) ∧ e.IsInvalid) ∧
    ∀ file bytes, w.settingsFile? path = some file → w.look file = .file bytes →
      Yaml.read (.ofFile bytes : Yaml.Legible).text
        (.ofFile bytes : Yaml.Legible).trouble.isNone = .error .malformed →
      Chosen.load w path overrides = .error (.settings (.notYaml file)) := by
  refine ⟨fun c hload => ?_, fun y c hdocument hy hw hknown hlayered hpasses => ?_,
    fun y hdocument hwrong => ?_, fun file bytes hfile hlook hread => ?_⟩
  · obtain ⟨y, hdocument, -, -, -, hlayered, hpasses⟩ := load_eq_ok_iff.mp hload
    refine ⟨y, hdocument, hlayered, hpasses, fun hnumbers => hpasses.inRange fun s hnan => ?_⟩
    -- Documents and the environment give whole numbers only, so such a float was overridden.
    exact hnumbers _ (Setting.mem_of_override? ((hlayered s).override_of_isNaN hnan)) hnan
  · have hgives : y.GivesSettings := Yaml.givesSettings_iff.mpr (.inl hy)
    exact load_eq_ok_iff.mpr ⟨y, hdocument, hgives, hw, hknown, hlayered, hpasses⟩
  · rw [← Yaml.givesSettings_iff] at hwrong
    rcases gather_cases overrides hdocument with ⟨hgives, -⟩ | ⟨-, e, hgather, he⟩
    · exact absurd hgives hwrong
    · exact ⟨e, load_of_gather hgather, he⟩
  · exact load_of_gather (gather_of_malformed hfile hlook hread)

/-- Surroundings without files, where the environment gives both numbers. -/
def numbersGiven : Surroundings where
  look _ := .missing
  environment name :=
    if name = "TREELOX_MAX_ERRORS" then some "0"
    else if name = "TREELOX_RECURSION_LIMIT" then some "2000" else none
  folder := "/lox"

theorem numbersGiven_file : numbersGiven.settingsFile? none = none := by
  decide

theorem numbersGiven_givesSettings : numbersGiven.GivesSettings := by
  rintro (_ | _ | _ | _ | _) given ⟨⟩
  · exact ⟨.int 0, .number rfl (by decide)⟩
  · exact ⟨.int 2000, .number rfl (by decide)⟩

/-- A caller's number of errors above what the environment gives. -/
theorem numbersGiven_layered (y : Yaml) (s : Setting) :
    s.Layered numbersGiven .null [("max_errors", y)]
      (Chosen.get ⟨.bool false, y, .bool true, .text (points "WARNING"), .int 2000⟩ s) := by
  cases s with
  | maxErrors => exact .caller rfl
  | recursionLimit => exact .environment rfl rfl (.number rfl (by decide))
  | _ => exact .otherwise rfl rfl rfl

/-- No error at all would be too few, but the caller asks for five. -/
theorem load_layers_masked :
    let c : Chosen := ⟨.bool false, .int 5, .bool true, .text (points "WARNING"), .int 2000⟩
    Chosen.load numbersGiven none [("max_errors", .int 5)] = .ok c ∧ c.InRange := by
  intro c
  have hpasses : c.Passes :=
    ⟨.inl (show (1 : Int) ≤ 5 by decide), .inl (show (1000 : Int) ≤ 2000 by decide),
      "WARNING", by decide, rfl⟩
  have hload : Chosen.load numbersGiven none [("max_errors", .int 5)] = .ok c :=
    (load_layers _ _ _).2.1 .null c (.absent numbersGiven_file) (.inl rfl)
      numbersGiven_givesSettings (List.forall_mem_singleton.mpr ⟨.maxErrors, rfl⟩)
      (numbersGiven_layered _) hpasses
  obtain ⟨y, -, -, -, hrange⟩ := (load_layers _ _ _).1 c hload
  exact ⟨hload, hrange (List.forall_mem_singleton.mpr id)⟩

/-- Surroundings where the settings file of the current folder holds an empty list. -/
def listGiven : Surroundings where
  look name := if name = "/lox/treelox.yaml" then .file [0x5B, 0x5D] else .missing
  environment _ := none
  folder := "/lox"

theorem listGiven_document : listGiven.Document none (.list []) := by
  have hfile : listGiven.settingsFile? none = some "/lox/treelox.yaml" := by decide
  have hread : Yaml.read (.ofFile [0x5B, 0x5D] : Yaml.Legible).text
      (.ofFile [0x5B, 0x5D] : Yaml.Legible).trouble.isNone = .ok (.list []) := by
    cbv
  exact .read hfile rfl hread

/-- A caller's float that is no number is out of range, and an empty list is no mapping; there
are settings all the same. -/
theorem load_exceptions :
    (¬∀ (w : Surroundings) (path : Option String) (overrides : List (String × Yaml)) (c : Chosen),
      Chosen.load w path overrides = .ok c → c.InRange) ∧
    ¬∀ (w : Surroundings) (path : Option String) (overrides : List (String × Yaml)) (y : Yaml),
      w.Document path y → ¬y.HoldsSettings → ∃ e, Chosen.load w path overrides = .error e := by
  have hlevel : ∃ level ∈ logLevels, Yaml.text (points "WARNING") = .text (points level) :=
    ⟨"WARNING", by decide, rfl⟩
  constructor
  · intro h
    have hnan : (0 / 0 : Float).isNaN = true := by decide +kernel
    have hload : Chosen.load numbersGiven none [("max_errors", .float (0 / 0))] =
        .ok ⟨.bool false, .float (0 / 0), .bool true, .text (points "WARNING"), .int 2000⟩ :=
      load_eq_ok_iff.mpr ⟨.null, .absent numbersGiven_file, .inl .null,
        numbersGiven_givesSettings, List.forall_mem_singleton.mpr ⟨.maxErrors, rfl⟩,
        numbersGiven_layered _, .inr hnan, .inl (show (1000 : Int) ≤ 2000 by decide), hlevel⟩
    -- No order holds of it, and the test only asks whether it is less than the bound.
    have hfew : ¬Float.ofInt 1 ≤ 0 / 0 := by decide +kernel
    exact hfew (h _ _ _ _ hload).maxErrors
  · intro h
    -- The list is read as no entries at all, so every setting keeps its default.
    have hgives : listGiven.GivesSettings := by
      rintro (_ | _ | _ | _ | _) given ⟨⟩
    have hload : Chosen.load listGiven none [] =
        .ok ⟨.bool false, .int 20, .bool true, .text (points "WARNING"), .int 25000⟩ := by
      refine load_eq_ok_iff.mpr ⟨.list [], listGiven_document, .inl .list, hgives,
        List.forall_mem_nil _, ?_, .inl (show (1 : Int) ≤ 20 by decide),
        .inl (show (1000 : Int) ≤ 25000 by decide), hlevel⟩
      rintro (_ | _ | _ | _ | _) <;> exact .otherwise rfl rfl rfl
    obtain ⟨e, he⟩ := h listGiven none [] (.list []) listGiven_document <| by
      rintro (heq | ⟨entries, heq, -⟩) <;> cases heq
    rw [hload] at he
    cases he

end Lox
