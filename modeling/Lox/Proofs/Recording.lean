/-
Recording values.

In one of two modes the text of every top-level expression is recorded.  This
takes another way through the machine: the expression has one frame more, and its
value is made into a text, which an array that holds itself does not have.  If
neither of this matters, the two modes differ in the recorded text alone.

* `RunResult.SameButValue` — results that differ in the recorded text alone;
* `Overruns` — an expression runs out of frames, or its value has no text;
* `runTopLevel_modes`, `runStatements_modes`, `run_modes` — the two modes, from
  one statement to a unit;
* `recording_only_records` — sessions in the two modes, step by step;
* `selfContaining_modes` — an array that holds itself.
-/
import Lox.Proofs.Frames
import Lox.Proofs.Sessions

namespace Lox

open Eval

/-- The same settings, with values recorded or not. -/
def Settings.recording (settings : Settings) (on : Bool) : Settings :=
  { settings with replMode := on }

/-- The same output, ending and messages. -/
structure RunResult.SameButValue (r r' : RunResult) : Prop where
  output : r.output = r'.output
  ending : r.ending = r'.ending
  report : r.report = r'.report

theorem RunResult.SameButValue.refl (r : RunResult) : r.SameButValue r :=
  ⟨rfl, rfl, rfl⟩

/-- A session in the two modes: each source prints the same, ends the same and
shows the same messages, and the sessions are the same afterwards. -/
def ModesAgree (host : Host) (settings : Settings) (sources : List Source) (s : Session) : Prop :=
  let plain := Session.runSources host (settings.recording false) sources s
  let recorded := Session.runSources host (settings.recording true) sources s
  List.Forall₂ RunResult.SameButValue plain.1 recorded.1 ∧ plain.2 = recorded.2

/-- A top-level expression runs out of frames where nothing is recorded, or its
value has no text. -/
inductive Overruns (host : Host) (levels : Nat) (e : Expr) (m : Machine) : Prop
  | evaluation {t : Token} {m' : Machine}
      (h : runTopLevel host levels false (.expression e) m = .error (.fault .stackOverflow t) m')
  | text {v : Value} {m' : Machine} (hv : eval host levels e m = .ok v m')
      (ht : m'.heap.display? levels v = none)

/-- Statements are run up to a top-level expression that overruns; both modes come
to it with the same machine. -/
def Parting (host : Host) (levels : Nat) (statements : List Stmt) (m : Machine) : Prop :=
  ∃ done e rest m', statements = done ++ .expression e :: rest ∧
    (∀ record value, ∃ value',
      runStatements host levels record done value m = (.finished, value', m')) ∧
    Overruns host levels e m'

/-- A source without an error comes to a top-level expression that overruns. -/
def PartsIn (host : Host) (settings : Settings) (source : Source) (s : Session) : Prop :=
  (check host settings source.file source.text).report.hasErrors = false ∧
    Parting host (settings.frames host / framesPerLevel)
      (check host settings source.file source.text).statements { s.machine with output := "" }

/-! ### Statements -/

/-- The expression of a statement has one frame less than the statement. -/
theorem expression_inStep (host : Host) (levels : Nat) (e : Expr) (m : Machine) :
    Budgets.InStep m (exec host levels (.expression e)) (eval host levels e)
      fun _ _ _ => True := by
  cases levels with
  | zero => exact .exhausted trivial fun h => absurd trivial h
  | succ n =>
    have h := ((roomier_eval_and_exec host 1 n).1 e m).bind
      (f := fun _ => pure Completion.normal) (g := pure) (R := fun _ _ _ => True)
      fun _ _ _ _ _ _ => .pure trivial trivial
    rwa [bind_pure] at h

section Modes

variable (host : Host) (levels : Nat)

/-- A statement does the same in the two modes. -/
def Stays (s : Stmt) (m : Machine) : Prop :=
  (∃ text text' m', runTopLevel host levels false s m = .ok text m' ∧
    runTopLevel host levels true s m = .ok text' m') ∨
  ∃ stop m', runTopLevel host levels false s m = .error stop m' ∧
    runTopLevel host levels true s m = .error stop m'

/-- A statement of the top level does the same in the two modes, or it is an
expression that overruns. -/
theorem runTopLevel_modes (s : Stmt) (m : Machine) :
    Stays host levels s m ∨ ∃ e, s = .expression e ∧ Overruns host levels e m := by
  by_cases hs : ∃ e, s = .expression e
  · obtain ⟨e, rfl⟩ := hs
    rcases expression_inStep host levels e m with ⟨c, v, m', hp, hq, -⟩ |
      ⟨stop, stop', m', hp, hq, -, -, hsame⟩ | ⟨-, stop, m', hp, hover⟩
    -- The expression has a value in both modes; only the recording one asks for its text.
    · have hplain : runTopLevel host levels false (.expression e) m = .ok none m' :=
        (catches _ _).ok (bind_ok hp)
      cases htext : m'.heap.display? levels v with
      | some text =>
        have hask : ask (·.display? levels v) m' = .ok (some text) m' :=
          congrArg (EStateM.Result.ok · m') htext
        exact .inl (.inl ⟨none, some text, m', hplain,
          (catches _ _).ok ((bind_ok hq).trans (bind_ok hask))⟩)
      | none => exact .inr ⟨e, rfl, .text hq htext⟩
    · obtain rfl : stop = stop' := hsame.eq
      exact .inl (.inr ⟨_, m', (catches _ _).error (bind_error hp),
        (catches _ _).error (bind_error hq)⟩)
    · obtain ⟨t, ht⟩ := hover.caught (Node.firstToken (.stmt (.expression e)))
      have hplain : runTopLevel host levels false (.expression e) m =
          .error (.fault .stackOverflow t) m' :=
        ht ▸ (catches _ _).error (bind_error hp)
      exact .inr ⟨e, rfl, .evaluation hplain⟩
  · -- Any other statement is executed in both modes.
    have hsame : runTopLevel host levels true s = runTopLevel host levels false s := by
      cases s with
      | expression e => exact absurd ⟨e, rfl⟩ hs
      | _ => rfl
    unfold Stays
    rw [hsame]
    cases runTopLevel host levels false s m with
    | ok text m' => exact .inl (.inl ⟨text, text, m', rfl, rfl⟩)
    | error stop m' => exact .inl (.inr ⟨stop, m', rfl, rfl⟩)

/-- So do statements one after another, up to an expression that overruns. -/
theorem runStatements_modes (statements : List Stmt) : ∀ m,
    (∃ ending m', ∀ record value, ∃ value',
      runStatements host levels record statements value m = (ending, value', m')) ∨
    Parting host levels statements m := by
  induction statements with
  | nil => exact fun m => .inl ⟨.finished, m, fun _ value => ⟨value, rfl⟩⟩
  | cons s rest ih =>
    intro m
    -- The two ways of running part only at an expression whose value has no text.
    rcases runTopLevel_modes host levels s m with hstays | ⟨e, rfl, hover⟩
    · rcases hstays with ⟨text, text', m', hplain, hrecorded⟩ | ⟨stop, m', hplain, hrecorded⟩
      · have hrun : ∀ record, ∃ text'', runTopLevel host levels record s m = .ok text'' m' :=
          Bool.rec ⟨text, hplain⟩ ⟨text', hrecorded⟩
        rcases ih m' with ⟨ending, m'', hrest⟩ | ⟨done, e, rest', m'', heq, hdone, hover⟩
        · refine .inl ⟨ending, m'', fun record value => ?_⟩
          obtain ⟨text'', htext⟩ := hrun record
          unfold runStatements
          rw [htext]
          exact hrest record _
        · refine .inr ⟨s :: done, e, rest', m'', by rw [heq]; rfl, fun record value => ?_, hover⟩
          obtain ⟨text'', htext⟩ := hrun record
          unfold runStatements
          rw [htext]
          exact hdone record _
      · refine .inl ⟨.ofStop stop, m', fun record value => ⟨value, ?_⟩⟩
        unfold runStatements
        cases record with
        | false => rw [hplain]
        | true => rw [hrecorded]
    · exact .inr ⟨[], e, rest, m, rfl, fun _ value => ⟨value, rfl⟩, hover⟩

end Modes

/-! ### Sources -/

/-- A source does the same in the two modes, or it comes to an expression that
overruns. -/
theorem run_modes (host : Host) (settings : Settings) (source : Source) (s : Session) :
    (∃ r r' s', s.run host (settings.recording false) source.file source.text = (r, s') ∧
      s.run host (settings.recording true) source.file source.text = (r', s') ∧
      r.SameButValue r') ∨
    PartsIn host settings source s := by
  have hcheck : ∀ on, check host (settings.recording on) source.file source.text =
      check host settings source.file source.text := fun _ => rfl
  unfold Session.run Session.runChecked
  rw [hcheck, hcheck]
  cases herrors : (check host settings source.file source.text).report.hasErrors with
  | true => exact .inl ⟨_, _, s, rfl, rfl, .refl _⟩
  | false =>
    rcases runStatements_modes host (settings.frames host / framesPerLevel)
      (check host settings source.file source.text).statements { s.machine with output := "" } with
      ⟨ending, m', hrun⟩ | hparting
    · obtain ⟨value, hplain⟩ := hrun false none
      obtain ⟨value', hrecorded⟩ := hrun true none
      refine .inl ?_
      rw [if_neg Bool.false_ne_true, if_neg Bool.false_ne_true,
        interpret_of_runStatements (settings.recording false) hplain,
        interpret_of_runStatements (settings.recording true) hrecorded]
      exact ⟨_, _, ⟨m'⟩, rfl, rfl, ⟨rfl, rfl, rfl⟩⟩
    · exact .inr ⟨herrors, hparting⟩

section Sessions

variable {host : Host} {settings : Settings}

theorem ModesAgree.nil (s : Session) : ModesAgree host settings [] s :=
  ⟨.nil, rfl⟩

theorem ModesAgree.cons {source : Source} {rest : List Source} {s s' : Session}
    {r r' : RunResult}
    (hplain : s.run host (settings.recording false) source.file source.text = (r, s'))
    (hrecorded : s.run host (settings.recording true) source.file source.text = (r', s'))
    (hsame : r.SameButValue r') (hrest : ModesAgree host settings rest s') :
    ModesAgree host settings (source :: rest) s := by
  unfold ModesAgree
  rw [runSources_cons hplain, runSources_cons hrecorded]
  exact ⟨.cons hsame hrest.1, hrest.2⟩

end Sessions

/-- Recording values only records.  A session in which values are recorded and one
in which they are not agree step by step in what they print, how they end, the
messages they show and the state they leave, up to the first source that comes to
a top-level expression which runs out of frames or whose value has no text. -/
theorem recording_only_records (host : Host) (settings : Settings) (sources : List Source) :
    ∀ s, (∀ before, before <+: sources → ModesAgree host settings before s) ∨
      ∃ before source, before ++ [source] <+: sources ∧
        (∀ first, first <+: before → ModesAgree host settings first s) ∧
        PartsIn host settings source
          (Session.runSources host (settings.recording false) before s).2 := by
  induction sources with
  | nil =>
    intro s
    refine .inl fun before hbefore => ?_
    rw [List.prefix_nil.mp hbefore]
    exact .nil s
  | cons source sources ih =>
    intro s
    rcases run_modes host settings source s with ⟨r, r', s', hplain, hrecorded, hsame⟩ | hparts
    · -- The source does the same in the two modes, so what comes after it decides.
      have hcons : ∀ {rest : List Source}, (∀ first, first <+: rest →
          ModesAgree host settings first s') → ∀ first, first <+: source :: rest →
            ModesAgree host settings first s := by
        intro rest hrest first hfirst
        rcases List.prefix_cons_iff.mp hfirst with rfl | ⟨tail, rfl, htail⟩
        · exact .nil s
        · exact .cons hplain hrecorded hsame (hrest tail htail)
      rcases ih s' with hagree | ⟨before, other, hprefix, hagree, hparts⟩
      · exact .inl (hcons hagree)
      · refine .inr ⟨source :: before, other, List.cons_prefix_cons.mpr ⟨rfl, hprefix⟩,
          hcons hagree, ?_⟩
        rw [runSources_cons hplain]
        exact hparts
    · refine .inr ⟨[], source, ⟨sources, rfl⟩, fun first hfirst => ?_, hparts⟩
      rw [List.prefix_nil.mp hfirst]
      exact .nil s

/-- An array that holds itself as its only element. -/
def selfContaining : Source where
  text := "var a = Array(1); a.set(0, a); a;"

/-- The modes part on a source that evaluates an array which holds itself. -/
theorem selfContaining_modes :
    ¬ModesAgree .small { recursionLimit := 100 } [selfContaining] .start := by
  rintro ⟨hresults, -⟩
  have hplain : (Session.runSources .small (Settings.recording { recursionLimit := 100 } false)
      [selfContaining] .start).1.map (·.hadRuntimeError) = [false] := by
    decide +kernel
  have hrecorded : (Session.runSources .small (Settings.recording { recursionLimit := 100 } true)
      [selfContaining] .start).1.map (·.hadRuntimeError) = [true] := by
    decide +kernel
  have hflags : ∀ {rs rs' : List RunResult}, List.Forall₂ RunResult.SameButValue rs rs' →
      rs.map (·.hadRuntimeError) = rs'.map (·.hadRuntimeError) := by
    intro rs rs' h
    induction h with
    | nil => rfl
    | cons hsame _ ih =>
      rw [List.map_cons, List.map_cons, ih, RunResult.hadRuntimeError, hsame.ending]
      rfl
  have hsame := hflags hresults
  rw [hplain, hrecorded] at hsame
  cases hsame

end Lox
