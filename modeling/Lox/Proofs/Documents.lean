/-
Which documents are settings.

A document that holds entries is read if each of them has the name of a setting as its key and
a value of the type of that setting.  One that holds nothing is read as no settings at all,
and this goes by whether the value counts as nothing, not by whether it is a mapping: an empty
list, a zero or an empty text are read as well.

* `Flagged`, `readFlag_iff` — the texts that stand for a truth value;
* `Setting.Means`, `put_cases` — the values that a setting takes from a document;
* `putAll_cases` — the entries of a mapping, one after another;
* `Yaml.Vacant` — the values that count as nothing;
* `ofDocument_iff` — the documents that are read, and what refuses the others;
* `empty_list_read` — a document that is read and is no mapping.
-/
import Lox.Settings.Load
import Mathlib.Data.List.TakeWhile
import Mathlib.Logic.Function.Basic

namespace Lox

open Text (Points points)

/-! ### Truth values -/

/-- The words for a truth value. -/
def flagWords (b : Bool) : List String :=
  if b then yesWords else noWords

/-- A text stands for a truth value: it is one of the words, in any case, with blanks around
it. -/
def Flagged (b : Bool) (t : Points) : Prop :=
  ∃ before word after : List Char, t = (before ++ word ++ after).map .char ∧
    (∀ c ∈ before, Text.isBlank c = true) ∧ (∀ c ∈ after, Text.isBlank c = true) ∧
      String.ofList (word.map Char.toLower) ∈ flagWords b

theorem Text.Points.chars?_eq_some_iff {t : Points} {chars : List Char} :
    t.chars? = some chars ↔ t = chars.map .char := by
  unfold Points.chars?
  induction t generalizing chars with
  | nil =>
    rw [List.mapM_nil]
    cases chars <;> simp
  | cons p t ih =>
    rw [List.mapM_cons]
    cases p with
    | half n => cases chars <;> simp [Point.char?]
    | char c =>
      cases chars with
      | nil => simp [Point.char?, Option.bind_eq_some_iff]
      | cons d chars =>
        simp only [Point.char?, Option.bind_eq_bind, Option.bind_some, Option.bind_eq_some_iff, ih,
          Option.pure_def, Option.some.injEq, List.cons.injEq, List.map_cons, Point.char.injEq]
        constructor
        · rintro ⟨_, ht, hc, rfl⟩
          exact ⟨hc, ht⟩
        · rintro ⟨hc, ht⟩
          exact ⟨chars, ht, hc, rfl⟩

/-- A text is its blanks at both ends and what is left without them. -/
theorem Text.stripChars_parts (chars : List Char) : ∃ before after : List Char,
    chars = before ++ stripChars chars ++ after ∧ (∀ c ∈ before, isBlank c = true) ∧
      ∀ c ∈ after, isBlank c = true := by
  have hfront := List.takeWhile_append_dropWhile (p := isBlank) (l := chars)
  have hback := List.takeWhile_append_dropWhile (p := isBlank)
    (l := (chars.dropWhile isBlank).reverse)
  refine ⟨chars.takeWhile isBlank, ((chars.dropWhile isBlank).reverse.takeWhile isBlank).reverse,
    ?_, fun c hc => List.mem_takeWhile_imp hc, fun c hc => ?_⟩
  · rw [List.append_assoc, stripChars, trimWhere, ← List.reverse_append, hback,
      List.reverse_reverse, hfront]
  · exact List.mem_takeWhile_imp (List.mem_reverse.mp hc)

/-- What stands between blanks is left without them. -/
theorem Text.stripChars_between {before word after : List Char}
    (hbefore : ∀ c ∈ before, isBlank c = true) (hafter : ∀ c ∈ after, isBlank c = true)
    (hword : ∀ c ∈ word, isBlank c = false) (hne : word ≠ []) :
    stripChars (before ++ word ++ after) = word := by
  -- One statement for both ends, since the back is stripped from the reversed text.
  have hdrop : ∀ blanks rest : List Char, (∀ c ∈ blanks, isBlank c = true) →
      (blanks ++ (word ++ rest)).dropWhile isBlank = word ++ rest ∧
        (blanks ++ (word.reverse ++ rest)).dropWhile isBlank = word.reverse ++ rest := by
    intro blanks rest hblanks
    have hstop : ∀ l : List Char, (∀ c ∈ l, isBlank c = false) → l ≠ [] →
        (l ++ rest).dropWhile isBlank = l ++ rest := by
      intro l hl hne
      cases l with
      | nil => exact absurd rfl hne
      | cons c l =>
        exact List.dropWhile_cons_of_neg (by rw [hl c List.mem_cons_self]; exact Bool.false_ne_true)
    rw [List.dropWhile_append_of_pos hblanks, List.dropWhile_append_of_pos hblanks]
    exact ⟨hstop word hword hne, hstop word.reverse (fun c hc => hword c (List.mem_reverse.mp hc))
      (List.reverse_ne_nil_iff.mpr hne)⟩
  have hback := (hdrop after.reverse [] fun c hc => hafter c (List.mem_reverse.mp hc)).2
  rw [List.append_nil] at hback
  rw [stripChars, trimWhere, List.append_assoc, (hdrop before after hbefore).1,
    List.reverse_append, hback, List.reverse_reverse]

theorem Text.toLower_of_isBlank {c : Char} (h : isBlank c = true) : c.toLower = c := by
  unfold isBlank at h
  simp only [Bool.or_eq_true, Bool.and_eq_true, decide_eq_true_iff, beq_iff_eq] at h
  unfold Char.toLower
  rw [dif_neg]
  rintro ⟨hlow, hhigh⟩
  rw [ge_iff_le, UInt32.le_iff_toNat_le] at hlow
  rw [UInt32.le_iff_toNat_le] at hhigh
  have hc : c.val.toNat = c.toNat := rfl
  have ha : 'A'.val.toNat = 65 := rfl
  have hz : 'Z'.val.toNat = 90 := rfl
  omega

/-- A word for a truth value has no blanks in it. -/
theorem isBlank_of_flagWord {b : Bool} {word : List Char}
    (h : String.ofList (word.map Char.toLower) ∈ flagWords b) :
    word ≠ [] ∧ ∀ c ∈ word, Text.isBlank c = false := by
  have hletters : ∀ b, ∀ w ∈ flagWords b, w.toList ≠ [] ∧
      w.toList.all (!Text.isBlank ·) = true := by decide
  obtain ⟨hne, hlower⟩ := hletters b _ h
  rw [String.toList_ofList] at hne hlower
  refine ⟨fun hnil => hne (by rw [hnil, List.map_nil]), fun c hc => ?_⟩
  rw [← Bool.not_eq_true]
  intro hblank
  have hself := List.all_eq_true.mp hlower c.toLower (List.mem_map_of_mem hc)
  rw [Text.toLower_of_isBlank hblank, hblank] at hself
  cases hself

theorem flagWords_disjoint {word : String} (h : word ∈ yesWords) : word ∉ noWords := by
  have hdisjoint : ∀ word ∈ yesWords, word ∉ noWords := by decide
  exact hdisjoint word h

/-- The words are found in any case and with blanks around them, and nothing else is. -/
theorem readFlag_iff {name : String} {t : Points} {b : Bool} :
    readFlag name t = .ok b ↔ Flagged b t := by
  unfold readFlag
  constructor
  · intro h
    split at h
    · cases h
    · rename_i chars hchars
      obtain ⟨before, after, hparts, hbefore, hafter⟩ := Text.stripChars_parts chars
      refine ⟨before, Text.stripChars chars, after, ?_, hbefore, hafter, ?_⟩
      · rw [← hparts]
        exact Text.Points.chars?_eq_some_iff.mp hchars
      · dsimp only at h
        split_ifs at h with hyes hno <;> cases h
        · exact List.contains_iff_mem.mp hyes
        · exact List.contains_iff_mem.mp hno
  · rintro ⟨before, word, after, ht, hbefore, hafter, hmem⟩
    obtain ⟨hne, hword⟩ := isBlank_of_flagWord hmem
    rw [Text.Points.chars?_eq_some_iff.mpr ht]
    dsimp only
    rw [Text.stripChars_between hbefore hafter hword hne]
    cases b with
    | true =>
      -- The words for yes are asked for first, and no word is for both.
      have hyes := List.contains_iff_mem.mpr (show _ ∈ yesWords from hmem)
      rw [if_pos hyes]
    | false =>
      have hno := List.contains_iff_mem.mpr (show _ ∈ noWords from hmem)
      rw [if_neg fun hyes => flagWords_disjoint (List.contains_iff_mem.mp hyes) hmem, if_pos hno]

theorem readFlag_error {name : String} {t : Points} {e : SettingsError}
    (h : readFlag name t = .error e) : e = .notBoolean name t := by
  unfold readFlag at h
  split at h
  · cases h
    rfl
  · dsimp only at h
    split_ifs at h
    cases h
    rfl

/-- A text stands for one truth value at most. -/
theorem Flagged.unique {b b' : Bool} {t : Points} (h : Flagged b t) (h' : Flagged b' t) :
    b = b' := by
  have hread := (@readFlag_iff "" t b).mpr h
  rw [readFlag_iff.mpr h'] at hread
  exact (Except.ok.inj hread).symm

/-! ### Values -/

/-- What is written in the settings is wrong; the other errors are about a file that cannot be
read. -/
def SettingsError.IsInvalid : SettingsError → Prop
  | notFound _ | unreadable _ | faulty _ => False
  | _ => True

/-- The value of a setting in a layer, if it has one. -/
def Layer.get? (l : Layer) : Setting → Option Yaml
  | .replMode => l.replMode.map .bool
  | .maxErrors => l.maxErrors.map .int
  | .showSource => l.showSource.map .bool
  | .logLevel => l.logLevel.map .text
  | .recursionLimit => l.recursionLimit.map .int

/-- What a setting takes from a document, and the value that it takes: truth values and words
for them, whole numbers, which truth values are not, and texts in upper case. -/
inductive Setting.Means (s : Setting) : Yaml → Yaml → Prop
  | flag (b : Bool) (hs : s.valueWord = "bool") : Means s (.bool b) (.bool b)
  | word {b : Bool} {t : Points} (hs : s.valueWord = "bool") (ht : Flagged b t) :
      Means s (.text t) (.bool b)
  | number (n : Int) (hs : s.valueWord = "int") : Means s (.int n) (.int n)
  | level (t : Points) (hs : s.valueWord = "str") : Means s (.text t) (.text t.upper)

theorem Setting.Means.unique {s : Setting} {y v v' : Yaml} (h : s.Means y v) (h' : s.Means y v') :
    v = v' := by
  cases h with
  | flag b hs => cases h'; rfl
  | number n hs => cases h'; rfl
  | word hs ht =>
    cases h' with
    | word hs' ht' => rw [ht.unique ht']
    | level t hs' =>
      rw [hs] at hs'
      exact absurd hs' (by decide)
  | level t hs =>
    cases h' with
    | level t hs' => rfl
    | word hs' ht' =>
      rw [hs] at hs'
      exact absurd hs' (by decide)

/-! ### Entries -/

variable {l : Layer} {s : Setting} {y : Yaml}

theorem flag_cases (hs : s.valueWord = "bool") (y : Yaml) :
    (∃ b, s.Means y (.bool b) ∧ s.flag y = .ok b) ∨
      ∃ e, s.flag y = .error e ∧ e.IsInvalid ∧ ∀ v, ¬s.Means y v := by
  have hword : s.valueWord ≠ "int" ∧ s.valueWord ≠ "str" := by
    rw [hs]
    decide
  cases y with
  | bool b => exact .inl ⟨b, .flag b hs, rfl⟩
  | text t =>
    cases hread : readFlag s.name t with
    | ok b => exact .inl ⟨b, .word hs (readFlag_iff.mp hread), hread⟩
    | error e =>
      refine .inr ⟨e, hread, readFlag_error hread ▸ trivial, fun v hv => ?_⟩
      cases hv with
      | level t hs' => exact hword.2 hs'
      | word hs' ht =>
        rw [readFlag_iff.mpr ht] at hread
        cases hread
  -- A number is no truth value, not even zero or one.
  | int n =>
    refine .inr ⟨_, rfl, trivial, fun v hv => ?_⟩
    cases hv with
    | number n hs' => exact hword.1 hs'
  | _ => exact .inr ⟨_, rfl, trivial, fun v hv => nomatch hv⟩

theorem number_cases (hs : s.valueWord = "int") (y : Yaml) :
    (∃ n, s.Means y (.int n) ∧ s.number y = .ok n) ∨
      ∃ e, s.number y = .error e ∧ e.IsInvalid ∧ ∀ v, ¬s.Means y v := by
  have hword : s.valueWord ≠ "bool" ∧ s.valueWord ≠ "str" := by
    rw [hs]
    decide
  cases y with
  | int n => exact .inl ⟨n, .number n hs, rfl⟩
  | bool b =>
    refine .inr ⟨_, rfl, trivial, fun v hv => ?_⟩
    cases hv with
    | flag b hs' => exact hword.1 hs'
  | text t =>
    refine .inr ⟨_, rfl, trivial, fun v hv => ?_⟩
    cases hv with
    | word hs' ht => exact hword.1 hs'
    | level t hs' => exact hword.2 hs'
  | _ => exact .inr ⟨_, rfl, trivial, fun v hv => nomatch hv⟩

theorem text_cases (hs : s.valueWord = "str") (y : Yaml) :
    (∃ t, s.Means y (.text t.upper) ∧ s.text y = .ok t) ∨
      ∃ e, s.text y = .error e ∧ e.IsInvalid ∧ ∀ v, ¬s.Means y v := by
  have hword : s.valueWord ≠ "bool" ∧ s.valueWord ≠ "int" := by
    rw [hs]
    decide
  cases y with
  | text t => exact .inl ⟨t, .level t hs, rfl⟩
  | bool b =>
    refine .inr ⟨_, rfl, trivial, fun v hv => ?_⟩
    cases hv with
    | flag b hs' => exact hword.1 hs'
  | int n =>
    refine .inr ⟨_, rfl, trivial, fun v hv => ?_⟩
    cases hv with
    | number n hs' => exact hword.2 hs'
  | _ => exact .inr ⟨_, rfl, trivial, fun v hv => nomatch hv⟩

/-- What comes of a layer with one more setting, by what comes of the value. -/
theorem put_of_read {α : Type} {read : Except SettingsError α} {value : α → Yaml}
    (set : α → Layer)
    (hread : (∃ a, s.Means y (value a) ∧ read = .ok a) ∨
      ∃ e, read = .error e ∧ e.IsInvalid ∧ ∀ v, ¬s.Means y v)
    (hput : l.put s y = set <$> read)
    (hset : ∀ a t, (set a).get? t = if t = s then some (value a) else l.get? t) :
    (∃ v l', s.Means y v ∧ l.put s y = .ok l' ∧
      ∀ t, l'.get? t = if t = s then some v else l.get? t) ∨
      ∃ e, l.put s y = .error e ∧ e.IsInvalid ∧ ∀ v, ¬s.Means y v := by
  rw [hput]
  rcases hread with ⟨a, ha, rfl⟩ | ⟨e, rfl, he, hno⟩
  · exact .inl ⟨value a, set a, ha, rfl, hset a⟩
  · exact .inr ⟨e, rfl, he, hno⟩

/-- A setting takes the value that the document means, and refuses what means none. -/
theorem put_cases (l : Layer) (s : Setting) (y : Yaml) :
    (∃ v l', s.Means y v ∧ l.put s y = .ok l' ∧
      ∀ t, l'.get? t = if t = s then some v else l.get? t) ∨
      ∃ e, l.put s y = .error e ∧ e.IsInvalid ∧ ∀ v, ¬s.Means y v := by
  cases s with
  | replMode =>
    exact put_of_read (fun b => { l with replMode := some b }) (flag_cases rfl y) rfl
      fun b t => by cases t <;> rfl
  | maxErrors =>
    exact put_of_read (fun n => { l with maxErrors := some n }) (number_cases rfl y) rfl
      fun n t => by cases t <;> rfl
  | showSource =>
    exact put_of_read (fun b => { l with showSource := some b }) (flag_cases rfl y) rfl
      fun b t => by cases t <;> rfl
  | logLevel =>
    exact put_of_read (fun t => { l with logLevel := some t.upper }) (text_cases rfl y) rfl
      fun b t => by cases t <;> rfl
  | recursionLimit =>
    exact put_of_read (fun n => { l with recursionLimit := some n }) (number_cases rfl y) rfl
      fun n t => by cases t <;> rfl

/-! ### Mappings -/

/-- A key is the name of a setting. -/
def Setting.isKey (s : Setting) : Yaml → Bool
  | .text t => t == points s.name
  | _ => false

/-- What a mapping holds for a setting: the value of the last entry with its name. -/
def Setting.entry? (s : Setting) (entries : List (Yaml × Yaml)) : Option Yaml :=
  (entries.reverse.find? fun e => s.isKey e.1).map (·.2)

/-- What is got for a setting comes from what is given for it, if anything is. -/
def Takes {α : Type} (means : α → Yaml → Prop) : Option α → Option Yaml → Prop
  | none, got => got = none
  | some given, got => ∃ v, means given v ∧ got = some v

/-- An entry has the name of a setting as its key, and a value that the setting takes. -/
def Fitting (entry : Yaml × Yaml) : Prop :=
  ∃ s : Setting, entry.1 = .text (points s.name) ∧ ∃ v, s.Means entry.2 v

theorem Setting.isKey_iff {key : Yaml} : s.isKey key = true ↔ key = .text (points s.name) := by
  cases key with
  | text t => rw [isKey, beq_iff_eq, Yaml.text.injEq]
  | _ => exact iff_of_false Bool.false_ne_true nofun

theorem Setting.points_name_inj {s s' : Setting} (h : points s.name = points s'.name) : s = s' := by
  cases s <;> cases s' <;> first | rfl | exact absurd h (by decide)

theorem Setting.ofKey?_eq_some_iff {key : Yaml} :
    ofKey? key = some s ↔ key = .text (points s.name) := by
  constructor
  · intro h
    cases key with
    | text t =>
      have hfound := List.find?_some h
      rw [beq_iff_eq] at hfound
      rw [hfound]
    | _ => cases h
  · rintro rfl
    cases s <;> decide

theorem Setting.entry?_cons (s : Setting) (key value : Yaml) (rest : List (Yaml × Yaml)) :
    s.entry? ((key, value) :: rest) =
      (s.entry? rest <|> if s.isKey key then some value else none) := by
  unfold entry?
  rw [List.reverse_cons, List.find?_append, List.find?_singleton]
  cases rest.reverse.find? fun e => s.isKey e.1 with
  | none => cases s.isKey key <;> rfl
  | some e => rfl

/-- A mapping is read if all its entries fit, and then every setting takes what its last entry
means; if one does not fit, the mapping is refused. -/
theorem putAll_cases (path : String) : ∀ (entries : List (Yaml × Yaml)) (l : Layer),
    ((∀ e ∈ entries, Fitting e) ∧ ∃ l', Layer.putAll path l entries = .ok l' ∧
      ∀ s, ∃ got, Takes s.Means (s.entry? entries) got ∧ l'.get? s = (got <|> l.get? s)) ∨
    (¬∀ e ∈ entries, Fitting e) ∧ ∃ e, Layer.putAll path l entries = .error e ∧ e.IsInvalid := by
  intro entries
  induction entries with
  | nil => exact fun l => .inl ⟨List.forall_mem_nil _, l, rfl, fun s => ⟨none, rfl, rfl⟩⟩
  | cons entry rest ih =>
    intro l
    obtain ⟨key, value⟩ := entry
    rw [List.forall_mem_cons]
    cases hkey : Setting.ofKey? key with
    | none =>
      refine .inr ⟨?_, .unknownSetting path key, by rw [Layer.putAll, hkey], trivial⟩
      rintro ⟨⟨s, hs, -⟩, -⟩
      rw [Setting.ofKey?_eq_some_iff.mpr hs] at hkey
      cases hkey
    | some s =>
      have hname := Setting.ofKey?_eq_some_iff.mp hkey
      rcases put_cases l s value with ⟨v, l₁, hv, hput, hget⟩ | ⟨e, hput, he, hno⟩
      -- The first entry is read into the layer, which the rest is then put above.
      · have hstep : Layer.putAll path l ((key, value) :: rest) = Layer.putAll path l₁ rest := by
          simp only [Layer.putAll, hkey, hput]
          rfl
        rw [hstep]
        rcases ih l₁ with ⟨hfit, l', hread, htaken⟩ | ⟨hfit, hrefused⟩
        · refine .inl ⟨⟨⟨s, hname, v, hv⟩, hfit⟩, l', hread, fun t => ?_⟩
          obtain ⟨got, hgot, hl'⟩ := htaken t
          -- A later entry with the same key wins, so the first one counts only if there is none.
          rw [hl', hget, Setting.entry?_cons]
          cases hrest : t.entry? rest with
          | some y =>
            rw [hrest] at hgot
            obtain ⟨w, hw, rfl⟩ := hgot
            exact ⟨some w, ⟨w, hw, rfl⟩, rfl⟩
          | none =>
            rw [hrest] at hgot
            obtain rfl : got = none := hgot
            by_cases hts : t = s
            · subst hts
              rw [Setting.isKey_iff.mpr hname, if_pos rfl]
              refine ⟨some v, ⟨v, hv, rfl⟩, ?_⟩
              rw [if_pos rfl]
              rfl
            · have hne : t.isKey key = false := by
                rw [← Bool.not_eq_true, Setting.isKey_iff]
                intro heq
                exact hts (Setting.points_name_inj (Yaml.text.inj (heq.symm.trans hname)))
              rw [hne, if_neg hts]
              exact ⟨none, rfl, rfl⟩
        · exact .inr ⟨fun h => hfit h.2, hrefused⟩
      · refine .inr ⟨?_, e, by simp only [Layer.putAll, hkey, hput]; rfl, he⟩
        rintro ⟨⟨s', hs', v, hv⟩, -⟩
        obtain rfl := Setting.points_name_inj (Yaml.text.inj (hs'.symm.trans hname))
        exact hno v hv

/-! ### Documents -/

/-- The values that count as nothing. -/
inductive Yaml.Vacant : Yaml → Prop
  | null : Vacant .null
  | false : Vacant (.bool false)
  | zero : Vacant (.int 0)
  | zeros {x : Float} (hx : (x == 0) = true) : Vacant (.float x)
  | text : Vacant (.text [])
  | bytes : Vacant (.bytes [])
  | list : Vacant (.list [])
  | pairs : Vacant (.pairs [])
  | set : Vacant (.set [])
  | map : Vacant (.map [])

theorem Yaml.isFalsy_iff : y.isFalsy = true ↔ y.Vacant := by
  constructor
  · intro h
    unfold Yaml.isFalsy at h
    split at h
    · exact .null
    · rename_i b
      cases b
      · exact .false
      · cases h
    · rw [eq_of_beq h]
      exact .zero
    · exact .zeros h
    · rw [List.isEmpty_iff.mp h]
      exact .text
    · rw [List.isEmpty_iff.mp h]
      exact .bytes
    · rw [List.isEmpty_iff.mp h]
      exact .list
    · rw [List.isEmpty_iff.mp h]
      exact .pairs
    · rw [List.isEmpty_iff.mp h]
      exact .map
    · rw [List.isEmpty_iff.mp h]
      exact .set
    -- Every other value counts as true.
    all_goals cases h
  · intro h
    cases h with
    | zeros hx => exact hx
    | _ => rfl

/-- The entries of a document. -/
def Yaml.entries : Yaml → List (Yaml × Yaml)
  | .map entries => entries
  | _ => []

/-- A document gives settings: it counts as nothing, or is a mapping with entries that fit. -/
def Yaml.GivesSettings (y : Yaml) : Prop :=
  y.Vacant ∨ ∃ entries, y = .map entries ∧ ∀ e ∈ entries, Fitting e

theorem Yaml.Vacant.entries_eq (h : y.Vacant) : y.entries = [] := by
  cases h <;> rfl

/-- A document that gives settings is read, and every setting takes what its entry means; any
other one is refused. -/
theorem ofDocument_cases (path : String) (y : Yaml) :
    (y.GivesSettings ∧ ∃ l, Layer.ofDocument path y = .ok l ∧
      ∀ s, Takes s.Means (s.entry? y.entries) (l.get? s)) ∨
    ¬y.GivesSettings ∧ ∃ e, Layer.ofDocument path y = .error e ∧ e.IsInvalid := by
  have hnone : ∀ s, ({} : Layer).get? s = none := fun s => by cases s <;> rfl
  unfold Layer.ofDocument
  -- A vacant document is taken for an empty mapping before it is asked for one.
  by_cases hvacant : y.Vacant
  · rw [if_pos (Yaml.isFalsy_iff.mpr hvacant), hvacant.entries_eq]
    exact .inl ⟨.inl hvacant, {}, rfl, hnone⟩
  · rw [if_neg (mt Yaml.isFalsy_iff.mp hvacant)]
    cases y with
    | map entries =>
      rcases putAll_cases path entries {} with ⟨hfit, l, hread, htaken⟩ | ⟨hfit, hrefused⟩
      · refine .inl ⟨.inr ⟨entries, rfl, hfit⟩, l, hread, fun s => ?_⟩
        obtain ⟨got, hgot, hl⟩ := htaken s
        have hgot_eq : l.get? s = got := by
          rw [hl, hnone]
          cases got <;> rfl
        rw [hgot_eq]
        exact hgot
      · refine .inr ⟨?_, hrefused⟩
        rintro (h | ⟨entries', heq, hfit'⟩)
        · exact hvacant h
        · exact hfit (Yaml.map.inj heq ▸ hfit')
    | _ =>
      refine .inr ⟨?_, _, rfl, trivial⟩
      rintro (h | ⟨entries', heq, -⟩)
      · exact hvacant h
      · cases heq

/-- A document is read if and only if it counts as nothing or is a mapping in which every key
is the name of a setting and every value has the type of that setting.  Every other document
is invalid. -/
theorem ofDocument_iff (path : String) (y : Yaml) :
    ((∃ l, Layer.ofDocument path y = .ok l) ↔
      y.Vacant ∨ ∃ entries, y = .map entries ∧ ∀ e ∈ entries, Fitting e) ∧
    ∀ e, Layer.ofDocument path y = .error e → e.IsInvalid := by
  rcases ofDocument_cases path y with ⟨hgives, l, hread, -⟩ | ⟨hgives, e, hrefused, he⟩
  · refine ⟨iff_of_true ⟨l, hread⟩ hgives, fun e he => ?_⟩
    rw [hread] at he
    cases he
  · rw [hrefused]
    exact ⟨iff_of_false (fun ⟨l, hl⟩ => nomatch hl) hgives, fun e' he' => Except.error.inj he' ▸ he⟩

/-- Not only mappings and documents without a value are read. -/
theorem empty_list_read :
    ¬∀ (path : String) (y : Yaml), (∃ l, Layer.ofDocument path y = .ok l) →
      y = .null ∨ ∃ entries, y = .map entries := by
  intro h
  rcases h "cfg.yaml" (.list []) ⟨{}, rfl⟩ with heq | ⟨entries, heq⟩
  · cases heq
  · cases heq

end Lox
