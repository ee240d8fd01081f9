/-
A session is one run of its accepted sources.

The sources of a session that have no error, joined by line feeds, are a source
without an error, and running it does what the session did: it prints what the
session printed, ends as the last source that was run, and leaves the same
globals.  Both are like one run by lexical scoping, of the trees that the joined
source is read as.

* `Part` — the tree of a source inside a joined source;
* `accepted_joined` — accepted sources are accepted together;
* `runSources_along` — a session follows the trees of the joined source;
* `run_joined` — a session is one run of the joined source.
-/
import Lox.Proofs.Sessions

namespace Lox

open Scope

/-! ### Trees inside a joined source -/

namespace Token

theorem Alike.symm {t t' : Token} (h : t.Alike t') : t'.Alike t :=
  ⟨h.word.symm, h.word ▸ h.spelled⟩

theorem forall₂_alike_symm {ts ts' : List Token} (h : List.Forall₂ Alike ts ts') :
    List.Forall₂ Alike ts' ts :=
  List.Forall₂.flip (h.imp fun _ _ => Alike.symm)

theorem spelled_of_alike {ts ts' : List Token} (h : List.Forall₂ Alike ts ts') :
    ∀ t ∈ ts', t.word.Spelled := by
  induction h with
  | nil => simp
  | cons ht _ ih => exact List.forall_mem_cons.mpr ⟨ht.symm.spelled, ih⟩

end Token

theorem Tree.Reads.proper {frames : Nat} {report : Report} {ts : List Token}
    {program : List Stmt} (h : Tree.Reads frames report ts program)
    (hs : ∀ t ∈ ts, t.word.Spelled) : ∀ s ∈ program, ProperStmt s := by
  have hparse := (Tree.parse_iff_reads default
    (fun t ht => Token.isEnd_eq_false_of_spelled (hs t ht))
    (rfl : Token.endOfNothing.isEnd = true)).mpr h
  have hproper := Tree.parse_proper frames (ts ++ [Token.endOfNothing]) default report
  rw [hparse] at hproper
  exact hproper

/-- The tree `program` of a source at tokens `ts` of another one. -/
structure Part (host : Host) (settings : Settings) (source : Source) (ts : List Token)
    (program : List Stmt) : Prop where
  reads : Tree.Reads (settings.frames host) settings.blank ts program
  flawless : Flawless (settings.frames host) program
  shape : BodyShape Token.Alike .lexical [] program
    (check host settings source.file source.text).statements []

variable {host : Host} {settings : Settings}

/-- An accepted source is part of any other where its words stand. -/
theorem Accepted.part {source : Source} {ts ts' : List Token} {program : List Stmt} {r : Resolved}
    (h : Accepted host settings source.file source.text ts program r)
    (hts : List.Forall₂ Token.Alike ts ts') :
    ∃ program', Part host settings source ts' program' := by
  have hproper := h.reads.proper h.spelled
  obtain ⟨program', hreads, hshape⟩ := h.reads.shape id hts
  have hflawless := flawless_of_resolve id hshape hproper h.resolved h.quiet
  refine ⟨program', hreads, hflawless, ?_⟩
  -- The tree there has no problem either, so its shape gives distances here.
  obtain ⟨back, hback, hshape'⟩ := hreads.shape id (Token.forall₂_alike_symm hts)
  obtain rfl := h.reads.unique hback
  obtain ⟨r', hr', hquiet'⟩ := hflawless.resolve (Listing.ofText source.text) settings.blank
  obtain ⟨r'', hr'', -, hlexical⟩ := resolve_carries id hshape'
    (hreads.proper (Token.spelled_of_alike hts)) hr' hquiet' (Listing.ofText source.text)
    settings.blank
  obtain rfl : r = r'' := Except.ok.inj (h.resolved.symm.trans hr'')
  rw [h.check_eq.1]
  exact hlexical

/-- The trees that sources have inside another one, whatever its tokens. -/
abbrev Trees (host : Host) (settings : Settings) (sources : List Source)
    (programs : List (List Stmt)) : Prop :=
  List.Forall₂ (fun source program => BodyShape Token.Alike .lexical [] program
    (check host settings source.file source.text).statements []) sources programs

/-- Tokens with the words of accepted sources are read source by source. -/
theorem exists_trees {sources : List Source}
    (h : ∀ source ∈ sources, (check host settings source.file source.text).report.hasErrors = false)
    {ts : List Token}
    (hts : ts.map Token.word = (sources.map fun s => Token.words s.text.toList).flatten) :
    ∃ programs, Tree.Reads (settings.frames host) settings.blank ts programs.flatten ∧
      (∀ program ∈ programs, Flawless (settings.frames host) program) ∧
      Trees host settings sources programs := by
  induction sources generalizing ts with
  | nil =>
    obtain rfl := List.map_eq_nil_iff.mp hts
    exact ⟨[], .nil, by simp, .nil⟩
  | cons source sources ih =>
    rw [List.forall_mem_cons] at h
    rw [List.map_cons, List.flatten_cons] at hts
    -- The tokens of the first source are a beginning of all tokens.
    obtain ⟨us, vs, rfl, hus, hvs⟩ := List.map_eq_append_iff.mp hts
    obtain ⟨own, program, r, haccepted⟩ := hasErrors_eq_false_iff.mp h.1
    obtain ⟨program', hpart⟩ := haccepted.part
      (Token.alike_of_words (haccepted.words.trans hus.symm) haccepted.spelled)
    obtain ⟨programs, hreads, hflawless, htrees⟩ := ih h.2 hvs
    exact ⟨program' :: programs, hpart.reads.append hreads,
      List.forall_mem_cons.mpr ⟨hpart.flawless, hflawless⟩, .cons hpart.shape htrees⟩

/-- Sources that are accepted one by one are accepted together, and the trees of
the joined source are those of its parts. -/
theorem accepted_joined {sources : List Source}
    (h : ∀ source ∈ sources, (check host settings source.file source.text).report.hasErrors = false)
    (file : Option String) : ∃ ts programs r,
      Accepted host settings file ("\n".intercalate (sources.map Source.text)) ts
        programs.flatten r ∧
      Trees host settings sources programs := by
  obtain ⟨hclean, hwords⟩ := Token.words_intercalate (sources.map Source.text) (by
    intro text htext
    obtain ⟨source, hsource, rfl⟩ := List.mem_map.mp htext
    obtain ⟨_, _, _, haccepted⟩ := hasErrors_eq_false_iff.mp (h source hsource)
    exact haccepted.clean)
  rw [List.map_map] at hwords
  obtain ⟨ts, last, hscanned, hts, hlast, hspelled⟩ :=
    Token.scan_tokens ("\n".intercalate (sources.map Source.text)) file settings.blank
  obtain ⟨programs, hreads, hflawless, htrees⟩ := exists_trees h (hts.trans hwords)
  obtain ⟨r, hr, hquiet⟩ := (Flawless.flatten hflawless).resolve
    (Listing.ofText ("\n".intercalate (sources.map Source.text))) settings.blank
  exact ⟨ts, programs, r, ⟨hclean, ⟨last, hscanned, hlast⟩, hts, hspelled, hreads, hr, hquiet⟩,
    htrees⟩

/-! ### Runs in parts -/

namespace Lexical

variable {levels : Nat} {record : Bool}

/-- After statements that end well, further ones go on. -/
theorem runStatements_append (program more : List Stmt) : ∀ {u v : Option String} {w w' : World},
    runStatements host levels record program u w = (.finished, v, w') →
    runStatements host levels record (program ++ more) u w =
      runStatements host levels record more v w' := by
  -- By induction on the statements before; the run that is given goes through all of them.
  induction program with
  | nil =>
    rintro u v w w' h
    cases h
    rfl
  | cons s program ih =>
    intro u v w w' h
    rw [runStatements] at h
    rw [List.cons_append, runStatements]
    cases hrun : runTopLevel host levels record s w with
    | ok text w₁ =>
      rw [hrun] at h
      exact ih h
    | error stop w₁ =>
      rw [hrun] at h
      cases stop with
      | _ => cases h

end Lexical

/-! ### Sessions -/

/-- The sources for which checking alone finds no error. -/
def accepted (host : Host) (settings : Settings) (sources : List Source) : List Source :=
  sources.filter fun s => !(check host settings s.file s.text).report.hasErrors

theorem accepted_hasErrors {sources : List Source} : ∀ source ∈ accepted host settings sources,
    (check host settings source.file source.text).report.hasErrors = false := by
  intro source h
  simpa [accepted] using (List.mem_filter.mp h).2

/-- The results of sources that were run. -/
def ran (results : List RunResult) : List RunResult :=
  results.filter fun r => !r.hadStaticError

/-- How the last source that was run ended; without one, all is well. -/
def lastEnding (results : List RunResult) : Ending :=
  match (ran results).getLast? with
  | some r => r.ending
  | none => .finished

theorem runStatements_ne_rejected {levels : Nat} {record : Bool} (program : List Stmt) :
    ∀ (value : Option String) (m : Machine),
      (runStatements host levels record program value m).1 ≠ .rejected := by
  induction program with
  | nil => exact fun value m h => nomatch h
  | cons s program ih =>
    intro value m
    rw [runStatements]
    cases runTopLevel host levels record s m with
    | ok text m' => exact ih _ m'
    | error stop m' =>
      intro h
      cases stop with
      | _ => cases h

/-- A source is run unless it has an error. -/
theorem hadStaticError_run (host : Host) (settings : Settings) (source : Source) (s : Session) :
    (s.run host settings source.file source.text).1.hadStaticError =
      (check host settings source.file source.text).report.hasErrors := by
  unfold Session.run Session.runChecked
  cases (check host settings source.file source.text).report.hasErrors with
  | true => rfl
  | false =>
    obtain ⟨outcome, hrun⟩ : ∃ outcome, runStatements host (settings.frames host / framesPerLevel)
        settings.replMode (check host settings source.file source.text).statements none
        { s.machine with output := "" } = outcome := ⟨_, rfl⟩
    have hne : outcome.1 ≠ .rejected := hrun ▸ runStatements_ne_rejected _ _ _
    obtain ⟨ending, value, m⟩ := outcome
    rw [if_neg Bool.false_ne_true]
    unfold interpret RunResult.hadStaticError
    -- What is left is a match on the ending, which is that of no rejected source.
    simp only [hrun]

/-- A source with an error changes nothing. -/
theorem run_rejected {source : Source}
    (h : (check host settings source.file source.text).report.hasErrors = true) (s : Session) :
    s.run host settings source.file source.text =
      ({ ending := .rejected
         report := (check host settings source.file source.text).report }, s) := by
  unfold Session.run Session.runChecked
  rw [h, if_pos rfl]

theorem accepted_cons (source : Source) (sources : List Source) :
    accepted host settings (source :: sources) =
      if (check host settings source.file source.text).report.hasErrors then
        accepted host settings sources
      else source :: accepted host settings sources := by
  unfold accepted
  rw [List.filter_cons]
  cases (check host settings source.file source.text).report.hasErrors with
  | true => rfl
  | false => rfl

section Results

variable {result : RunResult} {results : List RunResult}

theorem ran_cons_of_rejected (h : result.hadStaticError = true) :
    ran (result :: results) = ran results := by
  unfold ran
  rw [List.filter_cons, h]
  rfl

theorem ran_cons (h : result.hadStaticError = false) :
    ran (result :: results) = result :: ran results := by
  unfold ran
  rw [List.filter_cons, h]
  rfl

theorem lastEnding_of_rejected (h : result.hadStaticError = true) :
    lastEnding (result :: results) = lastEnding results := by
  unfold lastEnding
  rw [ran_cons_of_rejected h]

theorem lastEnding_last (h : result.hadStaticError = false) (hlast : ran results = []) :
    lastEnding (result :: results) = result.ending := by
  unfold lastEnding
  rw [ran_cons h, hlast]
  rfl

theorem lastEnding_cons (h : result.hadStaticError = false) (hmore : ran results ≠ []) :
    lastEnding (result :: results) = lastEnding results := by
  unfold lastEnding
  rw [ran_cons h, List.getLast?_cons_of_ne_nil hmore]

end Results

theorem ran_runSources_eq_nil {sources : List Source} : ∀ {s : Session},
    ran (Session.runSources host settings sources s).1 = [] →
      accepted host settings sources = [] := by
  induction sources with
  | nil => exact fun _ => rfl
  | cons source sources ih =>
    intro s h
    have hstatic := hadStaticError_run host settings source s
    obtain ⟨⟨result, s'⟩, hrun⟩ : ∃ p, s.run host settings source.file source.text = p := ⟨_, rfl⟩
    rw [hrun] at hstatic
    rw [runSources_cons hrun] at h
    rw [accepted_cons]
    cases herrors : (check host settings source.file source.text).report.hasErrors with
    | true =>
      rw [ran_cons_of_rejected (hstatic.trans herrors)] at h
      rw [if_pos rfl]
      exact ih h
    | false =>
      rw [ran_cons (hstatic.trans herrors)] at h
      cases h

section

open Lexical

/-- The trees that a joined source has, run by lexical scoping. -/
abbrev runTrees (host : Host) (settings : Settings) (program : List Stmt) (value : Option String)
    (w : World) : Ending × Option String × World :=
  Lexical.runStatements host (settings.frames host / framesPerLevel) settings.replMode program
    value w

/-- A source of a session does what its tree in the joined source does. -/
theorem run_along {source : Source} {program : List Stmt} {before : String} {x : Snapshot}
    (herrors : (check host settings source.file source.text).report.hasErrors = false)
    (hshape : BodyShape Token.Alike .lexical [] program
      (check host settings source.file source.text).statements [])
    (h : Abreast Token.Alike before x) (value : Option String) : ∃ result ending value' before' y,
      Session.run host settings source.file source.text ⟨x.machine⟩ = (result, ⟨y.machine⟩) ∧
      runTrees host settings program value x.world = (ending, value', y.world) ∧
      Abreast Token.Alike before' y ∧ result.ending.Matches Token.Alike ending ∧
      y.world.machine.output = x.world.machine.output ++ result.output := by
  have hquiet : Abreast Token.Alike x.world.machine.output
      ⟨x.layout, { x.machine with output := "" }, x.world⟩ :=
    h.printed (String.append_empty).symm
  obtain ⟨ending, ending', shown, value', y, hrun', hrun, hy, hmatches, -⟩ :=
    runStatements_abreast id host (settings.frames host / framesPerLevel) settings.replMode none
      value hquiet hshape
  unfold Session.run Session.runChecked
  rw [herrors, if_neg Bool.false_ne_true]
  unfold Lox.interpret
  simp only [hrun']
  exact ⟨_, ending, value', _, y, rfl, hrun, hy, hmatches, hy.mirrors.shares.output⟩

/-- A session does what the trees of its accepted sources do, one after another,
if only the last of them may stop. -/
theorem runSources_along (sources : List Source) : ∀ (programs : List (List Stmt))
    {before : String} {x : Snapshot} (value : Option String),
    Trees host settings (accepted host settings sources) programs →
    Abreast Token.Alike before x →
    (∀ r ∈ (ran (Session.runSources host settings sources ⟨x.machine⟩).1).dropLast,
      r.ending = .finished) →
    ∃ ending value' before' y,
      (Session.runSources host settings sources ⟨x.machine⟩).2 = ⟨y.machine⟩ ∧
      runTrees host settings programs.flatten value x.world = (ending, value', y.world) ∧
      Abreast Token.Alike before' y ∧
      (lastEnding (Session.runSources host settings sources ⟨x.machine⟩).1).Matches
        Token.Alike ending ∧
      y.world.machine.output = x.world.machine.output ++
        String.join ((Session.runSources host settings sources ⟨x.machine⟩).1.map (·.output)) := by
  -- The trees of the rejected sources are not among `programs`, so these are taken off only when
  -- a source was accepted.
  induction sources with
  | nil =>
    rintro _ before x value ⟨⟩ h -
    exact ⟨.finished, value, before, x, rfl, rfl, h, .finished, by simp [Session.runSources]⟩
  | cons source sources ih =>
    intro programs before x value htrees h hfinished
    have hstatic := hadStaticError_run host settings source ⟨x.machine⟩
    rw [accepted_cons] at htrees
    cases herrors : (check host settings source.file source.text).report.hasErrors with
    -- A rejected source adds nothing to either side.
    | true =>
      rw [herrors, if_pos rfl] at htrees
      rw [herrors, run_rejected herrors] at hstatic
      rw [runSources_cons (run_rejected herrors _), ran_cons_of_rejected hstatic] at hfinished
      obtain ⟨ending, value', before', y, hs, hrun, hy, hmatches, houtput⟩ :=
        ih _ value htrees h hfinished
      refine ⟨ending, value', before', y, ?_, hrun, hy, ?_, ?_⟩
      · rw [runSources_cons (run_rejected herrors _)]
        exact hs
      · rw [runSources_cons (run_rejected herrors _), lastEnding_of_rejected hstatic]
        exact hmatches
      · rw [runSources_cons (run_rejected herrors _), List.map_cons, String.join_cons,
          String.empty_append]
        exact houtput
    | false =>
      rw [herrors, if_neg Bool.false_ne_true] at htrees
      rcases htrees with _ | ⟨hshape, htrees⟩
      rename_i program programs
      obtain ⟨result, ending₁, value₁, before₁, y, hsource, hrun₁, hy, hmatches₁, houtput₁⟩ :=
        run_along herrors hshape h value
      rw [hsource, herrors] at hstatic
      rw [runSources_cons hsource, ran_cons hstatic] at hfinished
      rw [runSources_cons hsource, List.flatten_cons, List.map_cons, String.join_cons]
      by_cases hlast : ran (Session.runSources host settings sources ⟨y.machine⟩).1 = []
      · -- No source after this one is run.
        have hnone := ran_runSources_eq_nil hlast
        rw [hnone] at htrees
        cases htrees
        obtain ⟨ending, value', before', z, hs, hrun, hz, -, houtput⟩ :=
          ih [] value₁ (by rw [hnone]; exact .nil) hy (by rw [hlast]; simp)
        have hworld : y.world = z.world := congrArg (fun r => r.2.2) hrun
        rw [List.flatten_nil, List.append_nil, lastEnding_last hstatic hlast]
        refine ⟨ending₁, value₁, before', z, hs, hworld ▸ hrun₁, hz, hmatches₁, ?_⟩
        rw [houtput, houtput₁, String.append_assoc]
      -- Another source is run after this one, so this one did not stop.
      · rw [List.dropLast_cons_of_ne_nil hlast, List.forall_mem_cons] at hfinished
        rw [hfinished.1] at hmatches₁
        cases hmatches₁
        obtain ⟨ending, value', before', z, hs, hrun, hz, hmatches, houtput⟩ :=
          ih _ value₁ htrees hy hfinished.2
        rw [lastEnding_cons hstatic hlast]
        refine ⟨ending, value', before', z, hs, ?_, hz, hmatches, ?_⟩
        · exact (runStatements_append program programs.flatten hrun₁).trans hrun
        · rw [houtput, houtput₁, String.append_assoc]

/-- The text of a global, if there is such a global and it has a text that is found
within so many steps. -/
def Session.globalText? (s : Session) (frames : Nat) (name : String) : Option (Option String) :=
  (s.global? name).map (s.machine.heap.display? frames)

/-- The globals of a machine are those of the cells that are like it. -/
theorem globals_of_abreast {R : Token → Token → Prop} (hR : ∀ {t t'}, R t t' → t.Alike t')
    {before : String} {x : Snapshot} (h : Abreast R before x) :
    Session.globalNames ⟨x.machine⟩ = Forest.sortedNames x.world.globals ∧
      ∀ frames name, Session.globalText? ⟨x.machine⟩ frames name =
        (x.world.globals.get? name).map (x.world.machine.heap.display? frames) := by
  have hvalues : (x.machine.heap.environments.env Machine.globals).values = x.world.globals :=
    h.mirrors.stores.globals
  refine ⟨congrArg Forest.sortedNames hvalues, fun frames name => ?_⟩
  unfold Session.globalText? Session.global?
  rw [hvalues]
  exact congrArg (Option.map · _) (funext fun v => (h.mirrors.display?_eq hR frames v).symm)

/-- Running an accepted source is running its trees by lexical scoping. -/
theorem Accepted.run_trees {file : Option String} {text : String} {ts : List Token}
    {program : List Stmt} {r : Resolved} (h : Accepted host settings file text ts program r)
    {x : Snapshot} (hx : Abreast Token.Itself "" x) (hquiet : x.world.quiet = x.world) :
    ∃ result y, Session.run host settings file text ⟨x.machine⟩ = (result, ⟨y.machine⟩) ∧
      runTrees host settings program none x.world = (result.ending, result.value, y.world) ∧
      result.output = y.world.machine.output ∧ Abreast Token.Itself "" y := by
  obtain ⟨result, y, hrun, hlexical, hy, -⟩ := run_abreast host settings ⟨text, file⟩ hx
  have herrors := hasErrors_eq_false_iff.mpr ⟨ts, program, r, h⟩
  unfold Lexical.run at hlexical
  rw [herrors, if_neg Bool.false_ne_true, h.read_eq.1] at hlexical
  unfold Lexical.interpret at hlexical
  rw [hquiet] at hlexical
  obtain ⟨hresult, hworld⟩ := Prod.mk.inj hlexical
  obtain ⟨houtput, hresult⟩ := Prod.mk.inj hresult
  obtain ⟨hending, hvalue⟩ := Prod.mk.inj hresult
  exact ⟨result, y, hrun, Prod.ext hending (Prod.ext hvalue hworld),
    houtput.symm.trans (congrArg (·.machine.output) hworld), hy⟩

/-- A session that begins where nothing was printed is one run of its accepted
sources. -/
theorem run_joined_abreast (sources : List Source) (file : Option String) {x : Snapshot}
    (hx : Abreast Token.Alike "" x) (hx' : Abreast Token.Itself "" x)
    (hquiet : x.world.quiet = x.world)
    (hfinished : ∀ r ∈ (ran (Session.runSources host settings sources ⟨x.machine⟩).1).dropLast,
      r.ending = .finished) : ∃ (y z : Snapshot) (result : RunResult),
    (check host settings file
      ("\n".intercalate ((accepted host settings sources).map Source.text))).report.hasErrors =
        false ∧
    (Session.runSources host settings sources ⟨x.machine⟩).2 = ⟨y.machine⟩ ∧
    Session.run host settings file
      ("\n".intercalate ((accepted host settings sources).map Source.text)) ⟨x.machine⟩ =
        (result, ⟨z.machine⟩) ∧
    result.output =
      String.join ((Session.runSources host settings sources ⟨x.machine⟩).1.map (·.output)) ∧
    (lastEnding (Session.runSources host settings sources ⟨x.machine⟩).1).Matches Token.Alike
      result.ending ∧
    Session.globalNames ⟨z.machine⟩ = Session.globalNames ⟨y.machine⟩ ∧
    ∀ frames name, Session.globalText? ⟨z.machine⟩ frames name =
      Session.globalText? ⟨y.machine⟩ frames name := by
  obtain ⟨ts, programs, r, haccepted, htrees⟩ := accepted_joined accepted_hasErrors file
  obtain ⟨ending, value, before, y, hs, hrun, hy, hmatches, houtput⟩ :=
    runSources_along sources _ none htrees hx hfinished
  obtain ⟨result, z, hrun', htrees', houtput', hz⟩ := haccepted.run_trees hx' hquiet
  -- The joined source runs the same trees on the same cells.
  obtain ⟨hending, hrest⟩ := Prod.mk.inj (hrun.symm.trans htrees')
  obtain ⟨-, hworld⟩ := Prod.mk.inj hrest
  obtain ⟨hnames, htexts⟩ := globals_of_abreast id hy
  obtain ⟨hnames', htexts'⟩ := globals_of_abreast Token.Itself.alike hz
  refine ⟨y, z, result, hasErrors_eq_false_iff.mpr ⟨ts, _, r, haccepted⟩, hs, hrun', ?_,
    hending ▸ hmatches, ?_, fun frames name => ?_⟩
  · have hnone : x.world.machine.output = "" :=
      congrArg (fun w : World => w.machine.output) hquiet.symm
    rw [houtput', ← hworld, houtput, hnone, String.empty_append]
  · rw [hnames', hnames, hworld]
  · rw [htexts', htexts, hworld]

/-- A session is one run of its accepted sources.  If all of them but the last end
well, they are accepted when they are joined by line feeds, and one run of that
text prints what the session printed, ends as the last of them did, with the same
fault if it is one, and leaves the same globals with the same texts.  The other
sources of the session print nothing and change nothing. -/
theorem run_joined (host : Host) (settings : Settings) (sources : List Source)
    (file : Option String)
    (hfinished : ∀ r ∈ (ran (Session.runSources host settings sources .start).1).dropLast,
      r.ending = .finished) :
    let joined := "\n".intercalate ((accepted host settings sources).map Source.text)
    let session := Session.runSources host settings sources .start
    let single := Session.run host settings file joined .start
    (check host settings file joined).report.hasErrors = false ∧
    single.1.output = String.join (session.1.map (·.output)) ∧
    (lastEnding session.1).Matches Token.Alike single.1.ending ∧
    single.2.globalNames = session.2.globalNames ∧
    (∀ frames name, single.2.globalText? frames name = session.2.globalText? frames name) ∧
    ∀ source ∈ sources, source ∉ accepted host settings sources → ∀ s : Session,
      (s.run host settings source.file source.text).1.output = "" ∧
      (s.run host settings source.file source.text).2 = s := by
  have hstart : Session.start = ⟨Snapshot.initial.machine⟩ := rfl
  rw [hstart] at hfinished ⊢
  obtain ⟨y, z, result, herrors, hs, hrun, houtput, hmatches, hnames, htexts⟩ :=
    run_joined_abreast sources file (abreast_initial Token.Alike) (abreast_initial Token.Itself)
      rfl hfinished
  intro joined session single
  rw [show session.2 = _ from hs, show single = _ from hrun]
  refine ⟨herrors, houtput, hmatches, hnames, htexts, fun source hmem hnot s => ?_⟩
  -- What is not among the accepted sources has an error.
  have hrejected : (check host settings source.file source.text).report.hasErrors = true := by
    by_contra herrors
    exact hnot (List.mem_filter.mpr ⟨hmem, by simpa using herrors⟩)
  rw [run_rejected hrejected]
  exact ⟨rfl, rfl⟩

/-- Whether all is well at the end of a run. -/
def RunResult.isFinished (r : RunResult) : Bool :=
  match r.ending with
  | .finished => true
  | _ => false

theorem RunResult.ending_of_isFinished {r : RunResult} (h : r.isFinished = true) :
    r.ending = .finished := by
  unfold isFinished at h
  split at h
  · assumption
  · cases h

/-- Two sources and a rejected one between them, of which the last has a fault. -/
def sampleSources : List Source :=
  [{ text := "var a = nil; print a;" }, { text := "print a" }, { text := "print a; a();" }]

theorem run_joined_sample :
    (∀ r ∈ (ran (Session.runSources .small {} sampleSources .start).1).dropLast,
      r.ending = .finished) ∧
    (Session.run .small {} none "var a = nil; print a;\nprint a; a();" .start).1.output =
      "nil\nnil\n" := by
  have hfinished : ∀ r ∈ (ran (Session.runSources .small {} sampleSources .start).1).dropLast,
      r.ending = .finished := fun r hr =>
    RunResult.ending_of_isFinished (List.all_eq_true.mp
      (show (ran (Session.runSources .small {} sampleSources .start).1).dropLast.all
        RunResult.isFinished = true by decide +kernel) r hr)
  have hjoined : "\n".intercalate ((accepted .small {} sampleSources).map Source.text) =
      "var a = nil; print a;\nprint a; a();" := by decide +kernel
  have houtput : String.join ((Session.runSources .small {} sampleSources .start).1.map
      (·.output)) = "nil\nnil\n" := by decide +kernel
  refine ⟨hfinished, ?_⟩
  rw [← hjoined, ← houtput]
  exact (run_joined .small {} sampleSources none hfinished).2.1

end

end Lox
