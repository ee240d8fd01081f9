/-
Sources run one after another.

The units of a session share one machine.  At every point of a session the
machine is like the cells of the same session run by lexical scoping, and what a
source prints, how it ends and what it shows is the same on both sides.

* `Session.runSources` — sources one after another;
* `Outcome` — what may come of a source in a session;
* `run_sound` — whatever was run before, a source is rejected, or it ends well
  or with one fault, or some loop goes on; never does a walk by distance lose its
  way, and never is a node without a meaning;
* `run_eq_lexical` — looking names up by distance is lexical scoping.
-/
import Lox.Proofs.Checking
import Lox.Proofs.Interpretation

namespace Lox

open Scope

/-- A source text, and the name of its file. -/
structure Source where
  text : String
  file : Option String := none

namespace Session

/-- Runs sources one after another, and gives what came of each. -/
def runSources (host : Host) (settings : Settings) : List Source → Session →
    List RunResult × Session
  | [], s => ([], s)
  | source :: rest, s =>
    let (result, s) := s.run host settings source.file source.text
    let (results, s) := runSources host settings rest s
    (result :: results, s)

end Session

theorem runSources_cons {host : Host} {settings : Settings} {source : Source}
    {sources : List Source} {s s' : Session} {result : RunResult}
    (h : s.run host settings source.file source.text = (result, s')) :
    Session.runSources host settings (source :: sources) s =
      (result :: (Session.runSources host settings sources s').1,
        (Session.runSources host settings sources s').2) := by
  rw [Session.runSources, h]

namespace Lexical

/-- Runs sources one after another by lexical scoping. -/
def runSources (host : Host) (settings : Settings) : List Source → World →
    List (String × Ending × Option String) × World
  | [], w => ([], w)
  | source :: rest, w =>
    let (result, w) := run host settings source.file source.text w
    let (results, w) := runSources host settings rest w
    (result :: results, w)

end Lexical

/-- A host with room for small programs. -/
def Host.small : Host where
  frames := 1000
  turns := 10
  clock := fun _ => 0

/-! ### What may come of a source -/

/-- The codes of faults. -/
def faultCodes : List String :=
  ["E401", "E402", "E403", "E404", "E405", "E406", "E407", "E408", "E409", "E410"]

theorem Fault.code_mem (f : Fault) : f.code ∈ faultCodes := by
  cases f <;> simp [Fault.code, faultCodes]

/-- What may come of a source: it has an error and changes nothing, or it has none
and ends well, or with a fault that is the only message, or one of its loops
takes more turns than the host allows.  That is all the turns are for: without loops
no source is given up, and one that is not does the same with more of them
(`not_unfinished_of_loopless`, `runSources_of_more_turns`). -/
inductive Outcome (host : Host) (settings : Settings) (source : Source) (s : Session) :
    RunResult → Session → Prop
  | rejected (h : (check host settings source.file source.text).report.hasErrors = true) :
      Outcome host settings source s
        { ending := .rejected
          report := (check host settings source.file source.text).report } s
  | finished {output : String} {value : Option String} {s' : Session}
      (h : (check host settings source.file source.text).report.hasErrors = false) :
      Outcome host settings source s
        { output, ending := .finished, value, report := settings.blank } s'
  | faulted {output : String} {value : Option String} {s' : Session} {f : Fault} {t : Token}
      {line : Option String}
      (h : (check host settings source.file source.text).report.hasErrors = false)
      (hcode : f.code ∈ faultCodes) :
      Outcome host settings source s
        { output, ending := .faulted f t, value
          report := settings.blank.add (f.diagnose t line) } s'
  | unfinished {output : String} {value : Option String} {s' : Session}
      (h : (check host settings source.file source.text).report.hasErrors = false) :
      Outcome host settings source s
        { output, ending := .unfinished, value, report := settings.blank } s'

theorem Outcome.ending_ne {host : Host} {settings : Settings} {source : Source} {s s' : Session}
    {result : RunResult} (h : Outcome host settings source s result s') (d : Defect) :
    result.ending ≠ .defective d := by
  cases h with
  | _ => exact fun h => nomatch h

/-! ### A session beside lexical scoping -/

theorem eq_of_matches {ending ending' : Ending} (h : ending'.Matches Token.Itself ending) :
    ending' = ending := by
  cases h with
  | finished => rfl
  | faulted ht =>
    rcases ht with ht | rfl
    · rw [ht.same]
    · rfl
  | unfinished => rfl

theorem outcome_of_matches {host : Host} {settings : Settings} {source : Source} {s s' : Session}
    {output : String} {ending ending' : Ending} {value : Option String} {listing : Listing}
    (h : (check host settings source.file source.text).report.hasErrors = false)
    (hm : ending'.Matches Token.Itself ending) :
    Outcome host settings source s
      { output, ending := ending', value, report := ending'.record listing settings.blank } s' := by
  cases hm with
  | finished => exact .finished h
  | @faulted f t t' ht => exact .faulted h f.code_mem
  | unfinished => exact .unfinished h

open Lexical

/-- A source does the same to a session and to the cells that are like it. -/
theorem run_abreast (host : Host) (settings : Settings) (source : Source) {x : Snapshot}
    (h : Abreast Token.Itself "" x) :
    ∃ result y, Session.run host settings source.file source.text ⟨x.machine⟩ =
        (result, ⟨y.machine⟩) ∧
      Lexical.run host settings source.file source.text x.world =
        ((result.output, result.ending, result.value), y.world) ∧
      Abreast Token.Itself "" y ∧ Outcome host settings source ⟨x.machine⟩ result ⟨y.machine⟩ := by
  unfold Session.run Session.runChecked Lexical.run
  cases herrors : (check host settings source.file source.text).report.hasErrors with
  | true => exact ⟨_, x, rfl, rfl, h, .rejected herrors⟩
  | false =>
    obtain ⟨ts, program, r, ha⟩ := hasErrors_eq_false_iff.mp herrors
    obtain ⟨hstatements, hreport⟩ := ha.check_eq
    obtain ⟨output, ending, ending', value, y, hrun', hrun, hy, hmatches⟩ :=
      interpret_abreast Token.Itself.alike host settings h ha.lexical
        (Listing.ofText source.text) settings.blank
    rw [if_neg Bool.false_ne_true, if_neg Bool.false_ne_true, hstatements, hreport, ha.read_eq.1,
      hrun', hrun, ← eq_of_matches hmatches]
    exact ⟨_, y, rfl, rfl, hy, outcome_of_matches herrors hmatches⟩

/-- Sources run one after another leave the two states alike. -/
theorem runSources_abreast (host : Host) (settings : Settings) (sources : List Source) :
    ∀ {x : Snapshot}, Abreast Token.Itself "" x → ∃ y,
      (Session.runSources host settings sources ⟨x.machine⟩).2 = ⟨y.machine⟩ ∧
      (Lexical.runSources host settings sources x.world).2 = y.world ∧
      Abreast Token.Itself "" y := by
  induction sources with
  | nil => exact fun {x} h => ⟨x, rfl, rfl, h⟩
  | cons source sources ih =>
    intro x h
    obtain ⟨result, y, hrun, hrun', hy, -⟩ := run_abreast host settings source h
    obtain ⟨z, hz, hz', habreast⟩ := ih hy
    refine ⟨z, ?_, ?_, habreast⟩
    · rw [Session.runSources, hrun]
      exact hz
    · rw [Lexical.runSources, hrun']
      exact hz'

/-- The static checks are sound.  Whatever sources were run before, resolving a
source stops at no node that has no place where it stands; if the source has no
error, every use in it has the distance of its declaration, every `super` has
one, and `this` is one scope inside it; and the run ends well, or with one fault
that it reports, unless one of its loops goes on.  It never comes to a defect,
such as a name that is not where its distance leads. -/
theorem run_sound (host : Host) (settings : Settings) (sources : List Source)
    (source : Source) :
    let s := (Session.runSources host settings sources .start).2
    let checked := check host settings source.file source.text
    let statements := Lexical.read host settings source.file source.text
    let outcome := s.run host settings source.file source.text
    (∃ r, resolve (settings.frames host) statements (Listing.ofText source.text) checked.parsed =
      .ok r) ∧
    (checked.report.hasErrors = false →
      BodyShape Token.Itself .lexical [] statements checked.statements []) ∧
    Outcome host settings source s outcome.1 outcome.2 := by
  obtain ⟨r, hr, -⟩ := check_resolves host settings source.file source.text
  obtain ⟨x, hs, -, hx⟩ := runSources_abreast host settings sources (abreast_initial Token.Itself)
  obtain ⟨result, y, hrun, -, -, houtcome⟩ := run_abreast host settings source hx
  have hstart : Session.start = ⟨Snapshot.initial.machine⟩ := rfl
  simp only [hstart, hs, hrun]
  refine ⟨⟨r, hr⟩, fun herrors => ?_, houtcome⟩
  obtain ⟨ts, program, r, ha⟩ := hasErrors_eq_false_iff.mp herrors
  rw [ha.check_eq.1, ha.read_eq.1]
  exact ha.lexical

/-- Looking names up by distance is lexical scoping.  Whatever sources were run
before, a source prints the same, ends in the same way, at the same fault and
token if it has one, and shows the same value, as when each use of a name takes
the innermost of the declarations around it that were passed, each with a cell
of its own. -/
theorem run_eq_lexical (host : Host) (settings : Settings) (sources : List Source)
    (source : Source) :
    let s := (Session.runSources host settings sources .start).2
    let w := (Lexical.runSources host settings sources .initial).2
    let result := (s.run host settings source.file source.text).1
    (result.output, result.ending, result.value) =
      (Lexical.run host settings source.file source.text w).1 := by
  obtain ⟨x, hs, hw, hx⟩ := runSources_abreast host settings sources (abreast_initial Token.Itself)
  obtain ⟨result, y, hrun, hrun', -, -⟩ := run_abreast host settings source hx
  have hstart : Session.start = ⟨Snapshot.initial.machine⟩ := rfl
  have hinitial : World.initial = Snapshot.initial.world := rfl
  simp only [hstart, hinitial, hs, hw, hrun, hrun']

end Lox
