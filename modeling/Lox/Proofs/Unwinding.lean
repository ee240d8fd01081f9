/-
The environment a program is in, after it was interrupted.

Blocks, calls and constructions switch to an environment of their own, nested
as deep as a program likes, and a fault ends all of them at once.  The
environment that was current before is current again, however the computation
ended: so a unit always begins and ends among the globals.

* `Report.Adds` — one report has the messages of another and further ones;
* `run_report` — a unit that is run adds one message for a fault, or none;
* `scope_restored` — the current environment is put back.
-/
import Lox.Proofs.Watching

namespace Lox

open Eval

/-! ### Messages about faults -/

/-- A report has the messages of another and, after them, some more. -/
def Report.Adds (r r' : Report) (more : List Diagnostic) : Prop :=
  r'.diagnostics.toList = r.diagnostics.toList ++ more

/-- No fault is found without running a program. -/
theorem Diagnostic.Static.code_not_mem {d : Diagnostic} (h : d.Static) :
    d.code ∉ faultCodes := by
  have hapart : ∀ code ∈ checkCodes, code ∉ faultCodes := by decide
  exact hapart d.code h.code

theorem check_code_not_mem (host : Host) (settings : Settings) (source : Source) :
    ∀ d ∈ (check host settings source.file source.text).report.diagnostics.toList,
      d.code ∉ faultCodes := by
  obtain ⟨hscan, hparse, hresolve⟩ := check_grows host settings source.file source.text
  obtain ⟨-, errors, hd, hstatic⟩ := (hscan.trans hparse).trans hresolve
  intro d hmem
  rw [hd] at hmem
  rcases List.mem_append.mp hmem with hblank | herror
  · simp [Settings.blank] at hblank
  · exact (hstatic d herror).code_not_mem

/-- What a unit adds to the report of its checks: one message if it stopped at a
fault, and none otherwise. -/
theorem Outcome.adds {host : Host} {settings : Settings} {source : Source} {s s' : Session}
    {result : RunResult} (h : Outcome host settings source s result s') :
    ∃ faults, (check host settings source.file source.text).report.Adds result.report faults ∧
      (∀ d ∈ faults, d.code ∈ faultCodes) ∧
      faults.length = if result.hadRuntimeError then 1 else 0 := by
  -- The report of a unit that was run is blank but for the fault.
  have hblank : (check host settings source.file source.text).report.hasErrors = false →
      (check host settings source.file source.text).report = settings.blank := by
    intro herrors
    obtain ⟨ts, program, r, ha⟩ := hasErrors_eq_false_iff.mp herrors
    exact ha.check_eq.2
  cases h with
  | rejected _ => exact ⟨[], by simp [Report.Adds], by simp, rfl⟩
  | finished herrors => exact ⟨[], by simp [Report.Adds, hblank herrors], by simp, rfl⟩
  | @faulted output value _ f t line herrors hcode =>
    refine ⟨[f.diagnose t line], ?_, ?_, rfl⟩
    · rw [hblank herrors]
      simp [Report.Adds, Report.add]
    · intro d hd
      rw [List.mem_singleton.mp hd]
      exact hcode
  | unfinished herrors => exact ⟨[], by simp [Report.Adds, hblank herrors], by simp, rfl⟩

/-! ### The current environment -/

/-- The current environment, however a computation ended. -/
abbrev finalScope {α : Type} (r : EStateM.Result Stop Machine α) : Nat :=
  (EStateM.Result.final r).current

/-- A computation that keeps every environment current. -/
theorem finalScope_of_keeps {α : Type} {p : Eval α}
    (h : ∀ k, Keeps (Machine.At (fun _ => True) k) p) (m : Machine) :
    finalScope (p m) = m.current :=
  ((h m.current).stays ⟨rfl, fun _ => trivial⟩).current

theorem keeps_eval_and_exec (host : Host) (n k : Nat) :
    (∀ e, Keeps (Machine.At (fun _ => True) k) (eval host n e)) ∧
      ∀ s, Keeps (Machine.At (fun _ => True) k) (exec host n s) := by
  have hunbroken : Unbroken (fun _ => True) Watched.nothing host := .inl rfl
  obtain ⟨heval, hexec⟩ := agrees_eval_and_exec Hereditary.trivial hunbroken n
  exact ⟨fun e => (heval e k).left, fun s => (hexec s trivial k).left⟩

/-- Whatever a unit does, and the units before it, it begins and ends among the
globals. -/
theorem runSources_current (host : Host) (settings : Settings) (sources : List Source) :
    (Session.runSources host settings sources .start).2.machine.current = Machine.globals :=
  (at_runSources Hereditary.trivial host settings (fun _ _ _ _ _ => trivial)
    (at_initial trivial)).current

open Lexical in
/-- What comes of a unit of a session. -/
theorem run_outcome (host : Host) (settings : Settings) (sources : List Source)
    (source : Source) :
    let s := (Session.runSources host settings sources .start).2
    let outcome := s.run host settings source.file source.text
    Outcome host settings source s outcome.1 outcome.2 := by
  obtain ⟨x, hs, -, hx⟩ := runSources_abreast host settings sources (abreast_initial Token.Itself)
  obtain ⟨result, y, hrun, -, -, houtcome⟩ := run_abreast host settings source hx
  have hstart : Session.start = ⟨Snapshot.initial.machine⟩ := rfl
  simp only [hstart, hs, hrun]
  exact houtcome

/-- The current environment is put back on every way out.  From any state, an
expression, a statement, a call of any value and a sequence of statements in an
environment of its own leave the current environment as it was, whether they end
normally, by a break or a return, by a fault at any depth, or for lack of frames.
So every unit of a session begins and ends among the globals, and it adds one
message about a fault to the report of its checks if it stopped at one, and none
if it did not. -/
theorem scope_restored (host : Host) :
    (∀ (n : Nat) (m : Machine),
      (∀ e, finalScope (eval host n e m) = m.current) ∧
      (∀ s, finalScope (exec host n s m) = m.current) ∧
      (∀ paren callee arguments,
        finalScope (callValue host (exec host n) paren callee arguments m) = m.current) ∧
      ∀ env body, finalScope (inEnvironment env (runAll (exec host n) body) m) = m.current) ∧
    ∀ (settings : Settings) (sources : List Source) (source : Source),
      let s := (Session.runSources host settings sources .start).2
      let checked := check host settings source.file source.text
      let outcome := s.run host settings source.file source.text
      s.machine.current = Machine.globals ∧ outcome.2.machine.current = Machine.globals ∧
      (∀ d ∈ checked.report.diagnostics.toList, d.code ∉ faultCodes) ∧
      ∃ faults, checked.report.Adds outcome.1.report faults ∧
        (∀ d ∈ faults, d.code ∈ faultCodes) ∧
        faults.length = if outcome.1.hadRuntimeError then 1 else 0 := by
  constructor
  · intro n m
    -- Every environment may be the current one, so the invariant is kept for each.
    have heval := fun e k => (keeps_eval_and_exec host n k).1 e
    have hexec := fun s k => (keeps_eval_and_exec host n k).2 s
    refine ⟨fun e => finalScope_of_keeps (heval e) m, fun s => finalScope_of_keeps (hexec s) m,
      fun paren callee arguments => ?_, fun env body => ?_⟩
    · exact finalScope_of_keeps (fun k =>
        agrees_callValue (fun _ _ s _ => hexec s) host paren callee arguments) m
    · exact finalScope_of_keeps (fun k =>
        agrees_inEnvironment (agrees_runAll fun s _ => hexec s env)) m
  · intro settings sources source
    have hstart := runSources_current host settings sources
    have houtcome := run_outcome host settings sources source
    refine ⟨hstart, ?_, check_code_not_mem host settings source, houtcome.adds⟩
    exact (at_run Hereditary.trivial host settings ⟨hstart, fun _ => trivial⟩ _ _
      fun _ _ _ => trivial).current

end Lox
