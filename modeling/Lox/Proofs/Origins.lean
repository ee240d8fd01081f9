/-
Where a fault comes from, and the line that is shown for it.

A fault is at a token of some source of the session: of the one that is run, or of one
before it whose functions are called.  The line that is shown is always one of the source
that is run.  It is the line of the token if the token is from there; for a token of an
earlier source it is the line with the same number in another text.

* `Source.line?` — the lines of a source, between line feeds;
* `Scanned` — tokens of accepted sources;
* `runStatements_fault`, `fault_scanned` — the token of a fault is one of them;
* `Session.resultAfter` — what comes of a source after others;
* `fault_shows_run_line` — the line that is shown for a fault;
* `fault_shows_other_source` — a fault in a function of an earlier source.
-/
import Lox.Proofs.Underlining

namespace Lox

open Scope

/-! ### Lines between line feeds -/

namespace Text

/-- No character but the line feed ends a line. -/
def OnlyFeeds (text : List Char) : Prop :=
  ∀ c ∈ text, isLineBreak c → c = '\n'

instance (text : List Char) : Decidable (OnlyFeeds text) :=
  List.decidableBAll _ text

theorem OnlyFeeds.plainBreaks {text : List Char} (h : OnlyFeeds text) (n : Nat) :
    PlainBreaks text n :=
  fun _ _ c hc hbreak => .inl (h c (List.mem_of_getElem? hc) hbreak)

/-- The lines that are shown are those between line feeds, as far as there are any. -/
theorem getElem?_splitLinesFrom {rest : List Char} (h : OnlyFeeds rest) :
    ∀ (line : List Char) {n : Nat} {shown : List Char},
      (splitLinesFrom line rest)[n]? = some shown →
        (rest.splitOnPPrepend (· == '\n') line)[n]? = some shown := by
  induction rest with
  | nil =>
    intro line n shown hn
    unfold splitLinesFrom at hn
    split at hn
    · cases hn
    · exact hn
  | cons c rest ih =>
    intro line n shown hn
    have hrest : OnlyFeeds rest := fun d hd => h d (List.mem_cons_of_mem c hd)
    -- A carriage return would end a line together with the feed behind it.
    have hreturn : c ≠ '\r' := by
      rintro rfl
      exact absurd (h '\r' List.mem_cons_self rfl) (by decide)
    rw [splitLinesFrom_cons hreturn] at hn
    by_cases hc : c = '\n'
    · subst hc
      rw [if_pos (by decide)] at hn
      rw [List.splitOnPPrepend_cons_pos (by decide)]
      cases n with
      | zero => exact hn
      | succ n => exact ih hrest [] hn
    · have hbreak : ¬isLineBreak c := fun hbreak => hc (h c List.mem_cons_self hbreak)
      rw [if_neg hbreak] at hn
      rw [List.splitOnPPrepend_cons_neg (by simpa using hc)]
      exact ih hrest (c :: line) hn

end Text

/-- The line of a source with a number, counted from one. -/
def Source.line? (source : Source) (number : Nat) : Option String :=
  if number = 0 then none
  else ((source.text.toList.splitOn '\n')[number - 1]?).map String.ofList

/-- A line that is shown is that of the source. -/
theorem Source.line?_of_shown {source : Source} (h : Text.OnlyFeeds source.text.toList)
    {number : Nat} {line : String}
    (hline : (Listing.ofText source.text).line? number = some line) :
    source.line? number = some line := by
  unfold Listing.line? at hline
  unfold Source.line?
  split at hline
  · cases hline
  · rename_i hnumber
    unfold Listing.ofText Text.splitLines at hline
    rw [List.getElem?_toArray, List.getElem?_map, Option.map_eq_some_iff] at hline
    obtain ⟨shown, hshown, rfl⟩ := hline
    have hsplit : (source.text.toList.splitOn '\n')[number - 1]? = some shown :=
      Text.getElem?_splitLinesFrom h [] hshown
    rw [if_neg hnumber, hsplit]
    rfl

/-! ### Tokens of a session -/

/-- A token of one of the sources, which is accepted; but not the end of the source. -/
def Source.Holds (host : Host) (settings : Settings) (source : Source) (t : Token) : Prop :=
  (check host settings source.file source.text).report.hasErrors = false ∧
    t ∈ (check host settings source.file source.text).tokens ∧ t.isEnd = false

/-- The same token on both sides, and one of the sources. -/
structure Scanned (host : Host) (settings : Settings) (sources : List Source) (t t' : Token) :
    Prop where
  itself : t.Itself t'
  holds : ∃ source ∈ sources, source.Holds host settings t'

theorem Scanned.alike {host : Host} {settings : Settings} {sources : List Source} {t t' : Token}
    (h : Scanned host settings sources t t') : t.Alike t' :=
  h.itself.alike

/-- The distances of an accepted source, with anything that is known of its tokens. -/
theorem Accepted.lexicalOf {R : Token → Token → Prop} (hR : ∀ {t t'}, R t t' → t.Alike t')
    {host : Host} {settings : Settings} {file : Option String} {source : String}
    {ts : List Token} {program : List Stmt} {r : Resolved}
    (h : Accepted host settings file source ts program r) (hts : ∀ t ∈ ts, R t t) :
    BodyShape R .lexical [] program r.statements [] := by
  have hproper : ∀ s ∈ program, ProperStmt s := h.read_eq.1 ▸ read_proper host settings file source
  obtain ⟨program', hreads, hshape⟩ := h.reads.shape hR (List.forall₂_same.mpr hts)
  obtain rfl := h.reads.unique hreads
  obtain ⟨r', hr', -, hlexical⟩ := resolve_carries hR hshape hproper h.resolved h.quiet
    (Listing.ofText source) settings.blank
  rw [h.resolved] at hr'
  cases hr'
  exact hlexical

/-- The tokens of a tree are those of its source. -/
theorem Accepted.scanned_lexical {host : Host} {settings : Settings} {source : Source}
    {sources : List Source} (hmem : source ∈ sources) {ts : List Token} {program : List Stmt}
    {r : Resolved} (h : Accepted host settings source.file source.text ts program r) :
    BodyShape (Scanned host settings sources) .lexical [] program r.statements [] := by
  refine h.lexicalOf Scanned.alike fun t ht => ⟨⟨rfl, h.spelled t ht⟩, source, hmem, ?_, ?_, ?_⟩
  · exact hasErrors_eq_false_iff.mpr ⟨ts, program, r, h⟩
  · obtain ⟨last, hts, -⟩ := h.scanned
    rw [(check_stages host settings source.file source.text).1, ← Array.mem_toList_iff, hts]
    exact List.mem_append_left _ ht
  · exact Token.isEnd_eq_false_of_spelled (h.spelled t ht)

namespace Lexical

section

variable {R : Token → Token → Prop} (hR : ∀ {t t'}, R t t' → t.Alike t') {before : String}
  {host : Host} {levels : Nat} {record : Bool}

/-- A tree is reported at one of its tokens, if it holds any. -/
theorem firstToken_cases {n n' : Node} (h : NodeShape R n n') :
    n'.firstToken = Token.endOfNothing ∨ ∃ t, R t n'.firstToken := by
  have hrel := firstTokenFrom_rel NodeShape.token? NodeShape.children [n] (.cons h .nil)
  unfold Node.firstToken
  generalize Node.firstTokenFrom [n] = o at hrel
  generalize Node.firstTokenFrom [n'] = o' at hrel
  cases hrel with
  | none => exact .inl rfl
  | some ht => exact .inr ⟨_, ht⟩

/-- A fault was there before, or it stands for a stack that was used up. -/
theorem catchExhausted_fault {α : Type} {p : Eval α} {t u : Token} {f : Fault} {m m' : Machine}
    (h : Eval.catchExhausted u p m = .error (.fault f t) m') :
    p m = .error (.fault f t) m' ∨ p m = .error .exhausted m' ∧ t = u := by
  unfold Eval.catchExhausted at h
  split at h
  · rename_i hp
    cases h
    exact .inr ⟨hp, rfl⟩
  · exact .inl h

include hR in
/-- A statement of the top level has its fault at a token of the session. -/
theorem runTopLevel_fault {x : Snapshot} (h : Abreast R before x) {s s' : Stmt}
    (hs : StmtShape R .lexical [] s s' []) {f : Fault} {t : Token} {m : Machine}
    (hrun : Lox.runTopLevel host levels record s' x.machine = .error (.fault f t) m) :
    t = Token.endOfNothing ∨ ∃ t', R t' t := by
  rcases beside_topLevel hR host levels record h hs with
    ⟨text, text', y, hp, -⟩ | ⟨e, e', y, hp, -, -, -, he⟩
  · rcases catchExhausted_fault hrun with hfault | ⟨hexhausted, -⟩
    · cases hp.symm.trans hfault
    · cases hp.symm.trans hexhausted
  · rcases catchExhausted_fault hrun with hfault | ⟨-, rfl⟩
    · cases hp.symm.trans hfault
      cases he with
      | fault ht => exact .inr ⟨_, ht⟩
    · exact firstToken_cases (.stmt hs)

include hR in
/-- The statements of a unit end with a fault only at a token of the session. -/
theorem runStatements_fault {program program' : List Stmt} : ∀ {x : Snapshot}
    (u : Option String), Abreast R before x → BodyShape R .lexical [] program program' [] →
    ∀ {f t}, (Lox.runStatements host levels record program' u x.machine).1 = .faulted f t →
      t = Token.endOfNothing ∨ ∃ t', R t' t := by
  induction program generalizing program' with
  | nil =>
    rintro x u h ⟨⟩ f t hend
    cases hend
  | cons s program ih =>
    rintro x u h (_ | ⟨hs, hb⟩) f t hend
    -- At the top level a statement declares globals only, and no scope is open.
    obtain rfl := scopes_topLevel hR hs
    unfold Lox.runStatements at hend
    rcases runTopLevel_alongside hR host levels record h hs with
      ⟨text, y, hp, -, hy⟩ | ⟨e, e', y, hp, -⟩
    · rw [hp] at hend
      exact ih _ hy hb hend
    · rw [hp] at hend
      cases e with
      | fault f' t' =>
        cases hend
        exact runTopLevel_fault hR h hs hp
      | _ => cases hend

end

/-! ### Sessions -/

section

variable {host : Host} {settings : Settings} {sources : List Source} {source : Source}

/-- A source of a session is run on the tokens of the session. -/
theorem run_scanned (hmem : source ∈ sources) {x : Snapshot}
    (h : Abreast (Scanned host settings sources) "" x) : ∃ y : Snapshot,
      (Session.run host settings source.file source.text ⟨x.machine⟩).2 = ⟨y.machine⟩ ∧
      Abreast (Scanned host settings sources) "" y ∧
      ∀ {f t}, (Session.run host settings source.file source.text ⟨x.machine⟩).1.ending =
        .faulted f t → t = Token.endOfNothing ∨ ∃ t', Scanned host settings sources t' t := by
  unfold Session.run Session.runChecked
  cases herrors : (check host settings source.file source.text).report.hasErrors with
  | true => exact ⟨x, rfl, h, fun hend => nomatch hend⟩
  | false =>
    obtain ⟨ts, program, r, ha⟩ := hasErrors_eq_false_iff.mp herrors
    obtain ⟨hstatements, hreport⟩ := ha.check_eq
    have hshape := ha.scanned_lexical hmem
    obtain ⟨output, ending, ending', value, y, hrun, -, hy, -⟩ :=
      interpret_abreast Scanned.alike host settings h hshape (Listing.ofText source.text)
        settings.blank
    rw [if_neg Bool.false_ne_true, hstatements, hreport, hrun]
    refine ⟨y, rfl, hy, fun {f t} hend => ?_⟩
    -- The interpreter starts each unit with no output, which the correspondence allows for.
    have hquiet : Abreast (Scanned host settings sources) "" ⟨x.layout, { x.machine with
        output := "" }, x.world.quiet⟩ := h.printed rfl
    have hfault : (Lox.runStatements host (settings.frames host / framesPerLevel)
        settings.replMode r.statements none { x.machine with output := "" }).1 = .faulted f t := by
      obtain ⟨⟨e, v, m⟩, hruns⟩ : ∃ o, Lox.runStatements host
        (settings.frames host / framesPerLevel) settings.replMode r.statements none
        { x.machine with output := "" } = o := ⟨_, rfl⟩
      rw [interpret_of_runStatements settings hruns] at hrun
      cases hrun
      exact (congrArg Prod.fst hruns).trans hend
    exact runStatements_fault Scanned.alike none hquiet hshape hfault

/-- So is a whole session. -/
theorem runSources_scanned (units : List Source) : (∀ unit ∈ units, unit ∈ sources) →
    ∀ {x : Snapshot}, Abreast (Scanned host settings sources) "" x → ∃ y : Snapshot,
      (Session.runSources host settings units ⟨x.machine⟩).2 = ⟨y.machine⟩ ∧
      Abreast (Scanned host settings sources) "" y := by
  induction units with
  | nil => exact fun _ x h => ⟨x, rfl, h⟩
  | cons unit units ih =>
    intro hmem x h
    rw [List.forall_mem_cons] at hmem
    obtain ⟨y, hrun, hy, -⟩ := run_scanned hmem.1 h
    obtain ⟨z, hz, habreast⟩ := ih hmem.2 hy
    refine ⟨z, ?_, habreast⟩
    unfold Session.runSources
    rw [← hz, ← hrun]

end

end Lexical

section

variable {host : Host} {settings : Settings} {sources : List Source} {source : Source}
  {f : Fault} {t : Token}

/-- A token of a source is right before a character that is no white space. -/
theorem Source.Holds.begins (h : source.Holds host settings t) :
    t.span.start.Begins source.text.toList := by
  obtain ⟨-, hmem, hend⟩ := h
  rw [(check_stages host settings source.file source.text).1] at hmem
  rcases (Token.scan_begins source.text source.file settings.blank).1 t hmem with
    hbegins | ⟨hlast, -⟩
  · exact hbegins
  · rw [hend] at hlast
    cases hlast

theorem RunResult.faulted_of_hadRuntimeError {result : RunResult}
    (h : result.hadRuntimeError = true) : ∃ f t, result.ending = .faulted f t := by
  unfold RunResult.hadRuntimeError at h
  split at h
  · exact ⟨_, _, ‹_›⟩
  · cases h

/-- What comes of a source after others. -/
def Session.resultAfter (host : Host) (settings : Settings) (sources : List Source)
    (source : Source) : RunResult :=
  ((runSources host settings sources .start).2.run host settings source.file source.text).1

/-- Whatever was run before, a fault is at a token of the session. -/
theorem fault_scanned (h : (Session.resultAfter host settings sources source).ending =
      .faulted f t) :
    t = Token.endOfNothing ∨ ∃ unit ∈ sources ++ [source], unit.Holds host settings t := by
  have hstart : Session.start = ⟨Lexical.Snapshot.initial.machine⟩ := rfl
  have hmem : source ∈ sources ++ [source] := List.mem_append_right _ (List.mem_singleton.mpr rfl)
  obtain ⟨x, hs, hx⟩ := Lexical.runSources_scanned sources
    (fun unit hunit => List.mem_append_left [source] hunit)
    (Lexical.abreast_initial (Scanned host settings (sources ++ [source])))
  obtain ⟨y, -, -, hfault⟩ := Lexical.run_scanned hmem hx
  unfold Session.resultAfter at h
  rw [hstart, hs] at h
  exact (hfault h).imp_right fun ⟨_, ht⟩ => ht.holds

/-- A fault is the only message of a run, and it shows the line of the source that is run
with the number of its token. -/
theorem report_of_faulted
    (h : (Session.resultAfter host settings sources source).ending = .faulted f t) :
    (Session.resultAfter host settings sources source).report =
      settings.blank.add (f.diagnose t ((Listing.ofText source.text).line? t.line)) := by
  unfold Session.resultAfter at h ⊢
  generalize (Session.runSources host settings sources .start).2 = s at h ⊢
  obtain ⟨⟨ending, value, m⟩, hruns⟩ : ∃ e, runStatements host
    (settings.frames host / framesPerLevel) settings.replMode
    (check host settings source.file source.text).statements none
    { s.machine with output := "" } = e := ⟨_, rfl⟩
  unfold Session.run Session.runChecked at h ⊢
  rw [interpret_of_runStatements settings hruns] at h ⊢
  cases herrors : (check host settings source.file source.text).report.hasErrors with
  | true =>
    rw [if_pos herrors] at h
    cases h
  | false =>
    obtain ⟨ts, program, r, ha⟩ := hasErrors_eq_false_iff.mp herrors
    rw [herrors, if_neg Bool.false_ne_true] at h
    -- The run began with an empty report, to which only the fault is added.
    obtain rfl : ending = .faulted f t := h
    rw [if_neg Bool.false_ne_true, ha.check_eq.2]
    rfl

/-- The line that is shown for a fault.  Whatever was run before, a fault is at a token of
one of the sources of the session.  The line that is shown is always one of the source that
is run, the one with the number of the token.  If the token is from this source, it is shown
there, and its first character is underlined. -/
theorem fault_shows_run_line (host : Host) (settings : Settings) (sources : List Source)
    (source : Source) {f : Fault} {t : Token}
    (hend : (Session.resultAfter host settings sources source).ending = .faulted f t)
    (hfeeds : Text.OnlyFeeds source.text.toList) :
    (t = Token.endOfNothing ∨ ∃ unit ∈ sources ++ [source], unit.Holds host settings t) ∧
    ∃ d, (Session.resultAfter host settings sources source).report = settings.blank.add d ∧
      d.span = t.span ∧
      (∀ line ∈ d.sourceLine, source.line? t.line = some line) ∧
      (source.Holds host settings t →
        d.sourceLine = source.line? t.line ∧ d.Underlines source.text) := by
  refine ⟨fault_scanned hend, _, report_of_faulted hend, rfl,
    fun line hline => Source.line?_of_shown hfeeds hline, fun hholds => ?_⟩
  have hunderlines : (f.diagnose t ((Listing.ofText source.text).line? t.line)).Underlines
      source.text :=
    Diagnostic.underlines_of_begins hholds.begins rfl (hfeeds.plainBreaks _)
  have ⟨line, _, hline, _⟩ := hunderlines
  exact ⟨hline.trans (Source.line?_of_shown hfeeds hline).symm, hunderlines⟩

end

/-- A source with a function that has a fault on its second line. -/
def defining : Source where
  text := "fun f() \x7b\n  return -nil;\n\x7d\n"

/-- A source that calls the function on its second line. -/
def calling : Source where
  text := "print 1;\nf();\n"

theorem fault_shows_run_line_second :
    (∃ f t, (Session.resultAfter .small { recursionLimit := 100 } [defining] negated).ending =
      .faulted f t) ∧
    ∃ d, (Session.resultAfter .small { recursionLimit := 100 } [defining] negated).report =
        (Settings.blank { recursionLimit := 100 }).add d ∧
      d.sourceLine = some "  -nil;" := by
  have hfaulted : (Session.resultAfter .small { recursionLimit := 100 } [defining]
      negated).hadRuntimeError = true := by
    decide +kernel
  have hshown : ∀ d ∈ (Session.resultAfter .small { recursionLimit := 100 } [defining]
      negated).report.diagnostics, d.sourceLine = some "  -nil;" := by
    decide +kernel
  obtain ⟨f, t, hend⟩ := RunResult.faulted_of_hadRuntimeError hfaulted
  obtain ⟨-, d, hreport, -⟩ := fault_shows_run_line .small { recursionLimit := 100 } [defining]
    negated hend (by decide +kernel)
  refine ⟨⟨f, t, hend⟩, d, hreport, hshown d ?_⟩
  rw [hreport]
  exact Array.mem_push_self

/-- A fault in the function of the earlier source shows the line of the call. -/
theorem fault_shows_other_source :
    Text.OnlyFeeds defining.text.toList ∧ Text.OnlyFeeds calling.text.toList ∧
    ∃ f t, (Session.resultAfter .small { recursionLimit := 100 } [defining] calling).ending =
        .faulted f t ∧
      defining.Holds .small { recursionLimit := 100 } t ∧
      defining.line? t.line = some "  return -nil;" ∧
      ∃ d ∈ (Session.resultAfter .small { recursionLimit := 100 } [defining]
        calling).report.diagnostics, d.sourceLine = some "f();" := by
  have hfaulted : (Session.resultAfter .small { recursionLimit := 100 } [defining]
      calling).hadRuntimeError = true := by
    decide +kernel
  have hshown : ∃ d ∈ (Session.resultAfter .small { recursionLimit := 100 } [defining]
      calling).report.diagnostics, d.sourceLine = some "f();" := by
    decide +kernel
  have hplace : ∀ t ∈ (Session.resultAfter .small { recursionLimit := 100 } [defining]
      calling).ending.token?, t.span ≠ Token.endOfNothing.span ∧
        defining.line? t.line = some "  return -nil;" ∧
        ∀ t' ∈ (check .small { recursionLimit := 100 } calling.file calling.text).tokens,
          t.span ≠ t'.span := by
    decide +kernel
  obtain ⟨f, t, hend⟩ := RunResult.faulted_of_hadRuntimeError hfaulted
  obtain ⟨hnothing, hline, hother⟩ := hplace t (by rw [hend]; rfl)
  refine ⟨by decide +kernel, by decide +kernel, f, t, hend, ?_, hline, hshown⟩
  -- The token is that of one of the two sources, and it is not from the second.
  rcases fault_scanned hend with rfl | ⟨unit, hunit, hholds⟩
  · exact absurd rfl hnothing
  · rcases List.mem_pair.mp hunit with rfl | rfl
    · exact hholds
    · exact absurd rfl (hother t hholds.2.1)

end Lox
