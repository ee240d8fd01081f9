/-
The limit of errors.

The limit is looked at in one place only, before every declaration of the top level.
Scanning, resolving and whatever is inside a declaration never look at it, so a lower limit
ends the same reading earlier.

* `Report.within` — a report with another limit;
* `Succession` — declarations that are read one after another;
* `Succession.goesOn` — the one that ends later goes on from the one that ends earlier;
* `program_succession` — a program is such a succession;
* `scan_unseen`, `resolve_unseen` — scanning and resolving do not see a change of the limit;
* `limit_truncates` — two limits side by side;
* `limit_between` — what the limit bounds, and what it does not.
-/
import Lox.Proofs.Checking
import Lox.Proofs.Restarting
import Lox.Proofs.Sequencing
import Lox.Proofs.Sessions

namespace Lox

/-- A report with another limit. -/
def Report.within (limit : Int) (r : Report) : Report :=
  { r with limit }

theorem Report.unseen_within (limit : Int) : Unseen (within limit) :=
  fun _ _ => rfl

/-- The settings with another limit of errors. -/
def Settings.within (limit : Int) (s : Settings) : Settings :=
  { s with maxErrors := limit }

namespace Tree

open Lox.Tree.Parser

/-! ### Declarations one after another -/

/-- Declarations that are read one after another: the cursors before them, the statements
they give, and the cursor after the last. -/
inductive Succession (frames : Nat) : Cursor → List Cursor → List Stmt → Cursor → Prop
  | done {c : Cursor} : Succession frames c [] [] c
  | next {c c' d : Cursor} {stmt? : Option Stmt} {starts : List Cursor} {ss : List Stmt}
      (hfirst : declaration frames false c = .ok stmt? c')
      (hrest : Succession frames c' starts ss d) :
      Succession frames c (c :: starts) (stmt?.toList ++ ss) d

namespace Succession

variable {frames : Nat} {c d d' : Cursor} {starts starts' : List Cursor} {ss ss' : List Stmt}

theorem grows (h : Succession frames c starts ss d) : c.Grows d := by
  induction h with
  | done => exact refl _
  | @next c c' d stmt? starts ss hfirst _ ih =>
    have hgrows := grows_declaration frames false c
    rw [hfirst] at hgrows
    exact IsTrans.trans _ _ _ hgrows ih

theorem starts_grow (h : Succession frames c starts ss d) : ∀ s ∈ starts, c.Grows s := by
  induction h with
  | done => simp
  | @next c c' d stmt? starts ss hfirst _ ih =>
    have hgrows := grows_declaration frames false c
    rw [hfirst] at hgrows
    exact List.forall_mem_cons.mpr ⟨refl c, fun s hs => IsTrans.trans _ _ _ hgrows (ih s hs)⟩

/-- What was reported before is not seen. -/
theorem laid {f : Report → Report} (hf : Report.Unseen f) (h : Succession frames c starts ss d) :
    Succession frames (c.laid f) (starts.map (Cursor.laid f)) ss (d.laid f) := by
  induction h with
  | done => exact .done
  | @next c c' d stmt? starts ss hfirst _ ih =>
    have hblind : Blind f (declaration frames false) := (blind_sentences hf frames).2 false
    refine .next ?_ ih
    rw [hblind.commutes, hfirst]
    rfl

/-- A succession that ends where no declaration may begin goes on from every other one, as
long as that begins declarations only where it may. -/
theorem goesOn {more : Cursor → Bool} (h : Succession frames c starts ss d)
    (hmore : ∀ s ∈ starts, more s = true) (h' : Succession frames c starts' ss' d')
    (hend : more d' = false) :
    ∃ starts₂ ss₂, ss' = ss ++ ss₂ ∧ Succession frames d starts₂ ss₂ d' := by
  induction h generalizing starts' ss' with
  | done => exact ⟨starts', ss', rfl, h'⟩
  | @next c c₁ d stmt? starts ss hfirst _ ih =>
    rw [List.forall_mem_cons] at hmore
    cases h' with
    | done => rw [hmore.1] at hend; cases hend
    | next hfirst' hrest' =>
      rw [hfirst] at hfirst'
      cases hfirst'
      obtain ⟨starts₂, ss₂, rfl, h₂⟩ := ih hmore.2 hrest'
      exact ⟨starts₂, ss₂, by rw [List.append_assoc], h₂⟩

/-- If every declaration begins while there are fewer errors than a limit, and adds at most
so many, then no more than the last of them goes over the limit. -/
theorem errorCount_le {limit : Int} {most : Nat} (h : Succession frames c starts ss d)
    (hroom : ∀ s ∈ starts, (s.report.errorCount : Int) < limit)
    (hmost : ∀ s ∈ starts, (EStateM.Result.final (declaration frames false s)).report.errorCount ≤
      s.report.errorCount + most) :
    (d.report.errorCount : Int) ≤ max (c.report.errorCount : Int) (limit - 1 + most) := by
  induction h with
  | done => omega
  | @next c c' d stmt? starts ss hfirst _ ih =>
    rw [List.forall_mem_cons] at hroom hmost
    have hadded := hmost.1
    rw [hfirst] at hadded
    change c'.report.errorCount ≤ _ at hadded
    have hrest := ih hroom.2 hmost.2
    have hbegun := hroom.1
    omega

/-- Every declaration that begins before the end passes a token. -/
theorem passes {i : Input} {n : Nat} (h : Succession (n + 1) c starts ss d) {tape : Tape}
    (hc : c = tape.cursor i) (ht : tape.On i 0) (hstarts : ∀ s ∈ starts, s.atEnd = false) :
    ∃ tape' : Tape, d = tape'.cursor i ∧ tape'.On i 0 ∧
      tape.position + starts.length ≤ tape'.position := by
  induction h generalizing tape with
  | done => exact ⟨tape, hc, ht, Nat.le_refl _⟩
  | @next c c₁ d stmt? starts ss hfirst _ ih =>
    subst hc
    rw [List.forall_mem_cons, atEnd_eq ht, decide_eq_false_iff_not] at hstarts
    obtain ⟨stmt', tape₁, -, hparser, hlt, hon⟩ :=
      declaration_passes n ht (Nat.lt_of_le_of_ne ht.position hstarts.1)
    have hboth := hfirst.symm.trans hparser
    cases hboth
    obtain ⟨tape', hd, hon', hle⟩ := ih rfl hon hstarts.2
    refine ⟨tape', hd, hon', ?_⟩
    rw [List.length_cons]
    omega

end Succession

/-! ### Programs -/

theorem recovers (n : Nat) (inLoop : Bool) (c : Cursor) :
    ∃ stmt? c', declaration (n + 1) inLoop c = .ok stmt? c' :=
  recovering_ok _ _

/-- The loop over the declarations of a program, turn by turn. -/
theorem manyFrom_succession (n : Nat) (fuel : Nat) : ∀ (found : Array Stmt) (c : Cursor),
    ∃ starts ss d,
      manyFrom inProgram (declaration (n + 1) false) fuel found c = .ok (found.toList ++ ss) d ∧
      Succession (n + 1) c starts ss d ∧ (∀ s ∈ starts, inProgram s = true) ∧
      (starts.length = fuel ∨ inProgram d = false) := by
  induction fuel with
  | zero => exact fun found c => ⟨[], [], c, by simp [manyFrom]; rfl, .done, by simp, .inl rfl⟩
  | succ fuel ih =>
    intro found c
    rw [manyFrom_succ]
    cases hc : inProgram c with
    | false => exact ⟨[], [], c, by simp; rfl, .done, by simp, .inr hc⟩
    | true =>
      -- A declaration never fails, since it recovers within itself.
      obtain ⟨stmt?, c', hfirst⟩ := recovers n false c
      obtain ⟨starts, ss, d, hrun, hrest, hstarts, hend⟩ := ih (stmt?.elim found found.push) c'
      refine ⟨c :: starts, stmt?.toList ++ ss, d, ?_, .next hfirst hrest,
        List.forall_mem_cons.mpr ⟨hc, hstarts⟩, ?_⟩
      · rw [if_pos rfl, bind_ok hfirst, hrun]
        cases stmt? with
        | none => simp
        | some s => simp
      · rw [List.length_cons]
        exact hend.imp (congrArg Nat.succ) id

/-- A program is a succession of declarations, each begun before the end of the input and
while the report is not full; and it ends at one of the two. -/
theorem program_succession (n : Nat) (before : List Token) {last : Token}
    (hlast : last.isEnd = true) (listing : Listing) (report : Report) :
    ∃ starts ss d,
      program (n + 1) (Cursor.ofTokens (before ++ [last]) listing report) = .ok ss d ∧
      Succession (n + 1) (Cursor.ofTokens (before ++ [last]) listing report) starts ss d ∧
      (∀ s ∈ starts, inProgram s = true) ∧ inProgram d = false := by
  let i := Input.ending before hlast
  have hstart : Tape.On i 0 { tokens := before ++ [last], listing, report } :=
    ⟨rfl, Nat.zero_le _, Nat.zero_le _, rfl⟩
  obtain ⟨starts, ss, d, hrun, hss, hstarts, hend⟩ := manyFrom_succession n
    (Cursor.ofTokens (before ++ [last]) listing report).ahead.length #[]
    (Cursor.ofTokens (before ++ [last]) listing report)
  refine ⟨starts, ss, d, hrun, hss, hstarts, hend.elim (fun hfuel => ?_) id⟩
  -- As many declarations as there are tokens have passed all of them.
  have hopen : ∀ s ∈ starts, s.atEnd = false := fun s hs => by
    have hs := hstarts s hs
    simp only [inProgram, Bool.and_eq_true, Bool.not_eq_true'] at hs
    exact hs.1
  obtain ⟨tape, rfl, hon, hle⟩ := hss.passes rfl hstart hopen
  have hlength : starts.length = i.stop := hfuel
  have hposition : tape.position = i.stop := Nat.le_antisymm hon.position (by omega)
  rw [inProgram, atEnd_eq hon, decide_eq_true hposition]
  rfl

theorem inProgram_iff {c : Cursor} : inProgram c = true ↔
    c.atEnd = false ∧ (c.report.errorCount : Int) < c.report.limit := by
  simp [inProgram, Report.isFull]

/-- What is read is given by a succession of declarations.  Each begins before the end of the
input and while there are fewer errors than the limit, and the last ends at one of the two. -/
theorem parse_succession (frames : Nat) (before : List Token) {last : Token}
    (hlast : last.isEnd = true) (listing : Listing) (report : Report) :
    let read := parse frames (before ++ [last]) listing report
    ∃ starts d,
      Succession frames (Cursor.ofTokens (before ++ [last]) listing report) starts read.1 d ∧
      d.report = read.2 ∧ (∀ s ∈ starts, s.atEnd = false ∧ (s.report.errorCount : Int) <
        report.limit) ∧
      (frames = 0 ∨ d.atEnd = true ∨ report.limit ≤ (d.report.errorCount : Int)) := by
  intro read
  cases frames with
  | zero =>
    have hread : read = ([], report) := parse_nothing (.inl rfl) _ _
    rw [hread]
    exact ⟨[], _, .done, rfl, by simp, .inl rfl⟩
  | succ n =>
    obtain ⟨starts, ss, d, hrun, hss, hstarts, hend⟩ :=
      program_succession n before hlast listing report
    have hread : read = (ss, d.report) := parse_eq _ _ _ _ hrun
    rw [hread]
    refine ⟨starts, d, hss, rfl, fun s hs => ?_, .inr ?_⟩
    -- The limit never changes, so what stopped the loop can be asked of the first report.
    · have hlimit : s.report.limit = report.limit := (hss.starts_grow s hs).report.1.symm
      rw [← hlimit]
      exact inProgram_iff.mp (hstarts s hs)
    · have hlimit : d.report.limit = report.limit := hss.grows.report.1.symm
      rw [← hlimit]
      by_contra hopen
      simp only [not_or, Bool.not_eq_true, Int.not_le] at hopen
      rw [inProgram_iff.mpr hopen] at hend
      cases hend

/-- Reading with a lower limit is the beginning of reading with a higher one. -/
theorem parse_truncates {few many : Int} (hle : few ≤ many) (frames : Nat) (before : List Token)
    {last : Token} (hlast : last.isEnd = true) (listing : Listing) :
    let low := parse frames (before ++ [last]) listing { limit := few }
    let high := parse frames (before ++ [last]) listing { limit := many }
    low.1 <+: high.1 ∧ low.2.diagnostics.toList <+: high.2.diagnostics.toList := by
  intro low high
  obtain ⟨starts, d, hlow, hd, hstarts, -⟩ :=
    parse_succession frames before hlast listing { limit := few }
  obtain ⟨starts', d', hhigh, hd', -, hend⟩ :=
    parse_succession frames before hlast listing { limit := many }
  rcases hend with rfl | hend
  · have hnothing : ∀ limit : Int, parse 0 (before ++ [last]) listing { limit } =
        ([], { limit }) := fun limit => parse_nothing (.inl rfl) _ _
    rw [show low = _ from hnothing few, show high = _ from hnothing many]
    exact ⟨List.prefix_refl _, List.prefix_refl _⟩
  · -- The declarations that are read with the lower limit, under the higher one.
    have hlaid := hlow.laid (Report.unseen_within many)
    -- Where there was room for another declaration under the lower limit, there is under the
    -- higher.
    have hmore : ∀ s ∈ starts.map (Cursor.laid (Report.within many)),
        (!s.atEnd && decide ((s.report.errorCount : Int) < many)) = true := by
      intro s hs
      obtain ⟨t, ht, rfl⟩ := List.mem_map.mp hs
      obtain ⟨hopen, hroom⟩ := hstarts t ht
      have hopen' : (t.laid (Report.within many)).atEnd = false := hopen
      have hroom' : ((t.laid (Report.within many)).report.errorCount : Int) < many :=
        Int.lt_of_lt_of_le hroom hle
      rw [hopen', decide_eq_true hroom']
      rfl
    have hover : (!d'.atEnd && decide ((d'.report.errorCount : Int) < many)) = false := by
      rcases hend with hend | hfull
      · rw [hend]
        rfl
      · rw [decide_eq_false (Int.not_lt.mpr hfull), Bool.and_false]
    -- The higher limit goes on from where the lower one stopped.
    obtain ⟨starts₂, ss₂, hss, hrest⟩ := hlaid.goesOn hmore hhigh hover
    obtain ⟨-, errors, herrors, -⟩ := hrest.grows.report
    refine ⟨⟨ss₂, hss.symm⟩, ⟨errors, ?_⟩⟩
    rw [← hd, ← hd', herrors]
    rfl

end Tree

/-! ### The other stages -/

/-- Scanning does not see what was reported before. -/
theorem Token.scan_unseen {f : Report → Report} (hf : Report.Unseen f) (source : String)
    (file : Option String) (report : Report) :
    scan source file (f report) = ((scan source file report).1, f (scan source file report).2) := by
  have hsteps : ∀ (ss : List Segment) (p : Progress),
      ss.foldl (Progress.step (Listing.ofText source)) { p with report := f p.report } =
        let q := ss.foldl (Progress.step (Listing.ofText source)) p
        { q with report := f q.report } := by
    intro ss
    induction ss with
    | nil => exact fun _ => rfl
    | cons s ss ih =>
      intro p
      rw [List.foldl_cons, List.foldl_cons, ← ih]
      congr 1
      unfold Progress.step
      -- Only a mistake reaches the report, and the change commutes with adding to it.
      cases s.piece with
      | blank => rfl
      | token kind literal => rfl
      | mistake m => exact congrArg (Progress.mk _ _) (hf _ _)
  have hrun := hsteps (segments source.toList).toList { place := { file }, report }
  simp only [scan, ← Array.foldl_toList]
  rw [hrun]

/-- Resolving does not see what was reported before. -/
theorem Scope.resolve_unseen {f : Report → Report} (hf : Report.Unseen f) (frames : Nat)
    (program : List Stmt) (listing : Listing) (report : Report) :
    resolve frames program listing (f report) =
      (resolve frames program listing report).map fun r => { r with report := f r.report } := by
  have htidy : Tidy (fun _ => ()) #[] f (program.mapM (topLevel frames)) :=
    .mapM (tidy_topLevel hf frames) program
  have hrun := htidy.commutes { listing, report }
  have hstart : Context.laid #[] f { listing, report } = { listing, report := f report } := by
    simp [Context.laid]
  rw [hstart] at hrun
  unfold resolve
  rw [hrun]
  cases program.mapM (topLevel frames) { listing, report } with
  | ok ss c => simp [EStateM.Result.onState, Context.laid, Except.map]
  | error e c =>
    cases e with
    | noStatement kind => rfl
    | noExpression kind => rfl
    | tooDeep => simp [EStateM.Result.onState, Context.laid, Except.map]

section Checking

variable {host : Host} {settings : Settings} {file : Option String} {source : String}
  {ts : List Token} {program : List Stmt} {r : Scope.Resolved}

/-- What is accepted within a limit is accepted within any other. -/
theorem Accepted.within {limit : Int} (hpos : 1 ≤ settings.maxErrors) (hlimit : 1 ≤ limit)
    (h : Accepted host settings file source ts program r) :
    Accepted host (settings.within limit) file source ts program
      { r with report := r.report.within limit } where
  clean := h.clean
  scanned := by
    have hscan := Token.scan_unseen (Report.unseen_within limit) source file settings.blank
    obtain ⟨last, hts, hlast⟩ := h.scanned
    refine ⟨last, ?_, hlast⟩
    rw [show (settings.within limit).blank = settings.blank.within limit from rfl, hscan, hts]
  words := h.words
  spelled := h.spelled
  reads := by
    -- A limit of one or more leaves room at the start, and nothing is reported after that.
    have hroom : (settings.within limit).blank.isFull = false :=
      decide_eq_false (Int.not_le.mpr (by exact hlimit))
    have hfull : settings.blank.isFull = false :=
      decide_eq_false (Int.not_le.mpr (by exact hpos))
    cases h.reads with
    | nothing hn =>
      refine .nothing (.inl (hn.resolve_right ?_))
      rw [hfull]
      exact Bool.false_ne_true
    | all hf _ hp => exact .all hf hroom hp
  resolved := by
    have hresolve := Scope.resolve_unseen (Report.unseen_within limit) (settings.frames host)
      program (Listing.ofText source) settings.blank
    rw [h.resolved] at hresolve
    exact hresolve
  quiet := congrArg (Report.within limit) h.quiet

theorem hasErrors_within {few many : Int} (hfew : 1 ≤ few) (hmany : 1 ≤ many) :
    (check host (settings.within few) file source).report.hasErrors =
      (check host (settings.within many) file source).report.hasErrors := by
  have hone : ∀ {limit limit' : Int}, 1 ≤ limit → 1 ≤ limit' →
      (check host (settings.within limit) file source).report.hasErrors = false →
      (check host (settings.within limit') file source).report.hasErrors = false := by
    intro limit limit' hlimit hlimit' h
    obtain ⟨ts, program, r, haccepted⟩ := hasErrors_eq_false_iff.mp h
    have hlow : 1 ≤ (settings.within limit).maxErrors := hlimit
    have hwithin := haccepted.within hlow hlimit'
    exact hasErrors_eq_false_iff.mpr ⟨ts, program, _, hwithin⟩
  rw [Bool.eq_iff_iff, ← not_iff_not, Bool.not_eq_true, Bool.not_eq_true]
  exact ⟨hone hfew hmany, hone hmany hfew⟩

/-- A limit of errors only cuts reading off.  With the lower of two limits the statements and
the messages are the first of those with the higher one, and every declaration of the top
level begins while there are fewer errors than the limit.  Whether a source has an error does
not depend on the limit, so a source with an error is never run. -/
theorem limit_truncates {few many : Int} (hpos : 1 ≤ few) (hle : few ≤ many) :
    (∀ (frames : Nat) (before : List Token) (last : Token), last.isEnd = true →
      ∀ listing : Listing,
      let tokens := before ++ [last]
      let low := Tree.parse frames tokens listing { limit := few }
      let high := Tree.parse frames tokens listing { limit := many }
      low.1 <+: high.1 ∧ low.2.diagnostics.toList <+: high.2.diagnostics.toList ∧
      ∃ starts c,
        Tree.Succession frames (Tree.Cursor.ofTokens tokens listing { limit := few }) starts
          low.1 c ∧ c.report = low.2 ∧
        (∀ s ∈ starts, s.atEnd = false ∧ (s.report.errorCount : Int) < few) ∧
        (frames = 0 ∨ c.atEnd = true ∨ few ≤ (c.report.errorCount : Int))) ∧
    ∀ (host : Host) (settings : Settings) (file : Option String) (source : String),
      let low := check host (settings.within few) file source
      let high := check host (settings.within many) file source
      low.report.hasErrors = high.report.hasErrors ∧
      (high.report.hasErrors = true → ∀ s : Session,
        s.run host (settings.within few) file source =
          ({ ending := .rejected, report := low.report }, s)) := by
  refine ⟨fun frames before last hlast listing => ?_, fun host settings file source => ?_⟩
  · obtain ⟨hstatements, hmessages⟩ :=
      Tree.parse_truncates hle frames before hlast listing
    exact ⟨hstatements, hmessages, Tree.parse_succession frames before hlast listing _⟩
  -- Whether there is an error at all is settled by the first, which any limit lets in.
  · have hsame : (check host (settings.within few) file source).report.hasErrors =
        (check host (settings.within many) file source).report.hasErrors :=
      hasErrors_within hpos (Int.le_trans hpos hle)
    refine ⟨hsame, fun herrors s => ?_⟩
    unfold Session.run Session.runChecked
    rw [if_pos (hsame.trans herrors)]

/-- Three statements without an expression, and one with. -/
def threeMistakes : List Token :=
  [{ kind := .printKeyword }, { kind := .semicolon }, { kind := .printKeyword },
    { kind := .nilKeyword }, { kind := .semicolon }, { kind := .printKeyword },
    { kind := .semicolon }, { kind := .printKeyword }, { kind := .semicolon }]

theorem limit_truncates_threeMistakes :
    (1 : Int) ≤ 2 ∧ (2 : Int) ≤ 3 ∧ Tree.endMark.isEnd = true ∧
    let low := Tree.parse 20 (threeMistakes ++ [Tree.endMark]) default { limit := 2 }
    let high := Tree.parse 20 (threeMistakes ++ [Tree.endMark]) default { limit := 3 }
    low.1.length = 1 ∧ low.2.errorCount = 2 ∧ high.2.errorCount = 3 ∧
      low.2.diagnostics.toList <+: high.2.diagnostics.toList := by
  have htruncates := @limit_truncates 2 3 (by decide) (by decide)
  exact ⟨by decide, by decide, rfl, by decide +kernel, by decide +kernel, by decide +kernel,
    (htruncates.1 20 threeMistakes Tree.endMark rfl default).2.1⟩

/-- What scanning finds is the same under every limit. -/
theorem scanned_within (other : Int) : (check host (settings.within other) file source).scanned =
    (check host settings file source).scanned.within other := by
  rw [(check_stages host settings file source).2.1,
    (check_stages host (settings.within other) file source).2.1]
  change (Token.scan source file (settings.blank.within other)).2 = _
  rw [Token.scan_unseen (Report.unseen_within other)]

/-- What resolving finds is the same under every limit. -/
theorem resolves_within (other : Int) : ∃ r,
    Scope.resolve (settings.frames host) (Lexical.read host settings file source)
      (Listing.ofText source) ((check host settings file source).parsed.within other) = .ok r ∧
    r.report = (check host settings file source).report.within other := by
  obtain ⟨r, hresolve, -, hreport⟩ := check_resolves host settings file source
  refine ⟨{ r with report := r.report.within other }, ?_, ?_⟩
  · rw [Scope.resolve_unseen (Report.unseen_within other), hresolve]
    rfl
  · rw [hreport]

/-- Nothing is read once scanning has reached the limit. -/
theorem check_full (hfull : (check host settings file source).scanned.isFull = true) :
    Lexical.read host settings file source = [] ∧
      (check host settings file source).report = (check host settings file source).scanned := by
  obtain ⟨-, -, hparsed⟩ := check_stages host settings file source
  obtain ⟨r, hresolve, -, hreport⟩ := check_resolves host settings file source
  rw [Tree.parse_nothing (.inr hfull)] at hparsed
  obtain ⟨hread, hscanned⟩ := Prod.mk.inj hparsed
  rw [← hread, ← hscanned] at hresolve
  cases hresolve
  exact ⟨hread.symm, hreport⟩

/-- What is read is a succession of declarations that begin within the limit. -/
theorem check_succession (host : Host) (settings : Settings) (file : Option String)
    (source : String) : let checked := check host settings file source
    ∃ starts c,
      Tree.Succession (settings.frames host)
        (.ofTokens checked.tokens.toList (Listing.ofText source) checked.scanned) starts
        (Lexical.read host settings file source) c ∧ c.report = checked.parsed ∧
      (∀ s ∈ starts, s.atEnd = false ∧ (s.report.errorCount : Int) < settings.maxErrors) ∧
      (settings.frames host = 0 ∨ c.atEnd = true ∨
        settings.maxErrors ≤ (checked.parsed.errorCount : Int)) := by
  intro checked
  obtain ⟨htokens, -, hparsed⟩ := check_stages host settings file source
  obtain ⟨ts, last, hts, -, hlast, -⟩ := Token.scan_tokens source file settings.blank
  have hlimit : checked.scanned.limit = settings.maxErrors :=
    (check_grows host settings file source).1.1.symm
  obtain ⟨starts, c, hstarts, hc, hroom, hend⟩ := Tree.parse_succession (settings.frames host) ts
    hlast (Listing.ofText source) checked.scanned
  rw [← hts, ← htokens, hparsed] at hstarts hc
  dsimp only at hstarts hc
  rw [hlimit] at hroom hend
  rw [hc] at hend
  exact ⟨starts, c, hstarts, hc, hroom, hend⟩

/-- What the limit of errors does.  It is looked at between two declarations of the top level,
where no further one begins once it is reached; so if scanning reaches it, nothing is read.
What scanning finds, what is found inside a declaration, in whatever lists of declarations it
holds, and what resolving finds is the same under every limit.  So reading goes over the
limit by at most what is found in one declaration, less one. -/
theorem limit_between (host : Host) (settings : Settings) (file : Option String)
    (source : String) :
    let limit := settings.maxErrors
    let frames := settings.frames host
    let listing := Listing.ofText source
    let read := Lexical.read host settings file source
    let checked := check host settings file source
    (∀ other, (check host (settings.within other) file source).scanned =
      checked.scanned.within other) ∧
    (∀ n inLoop other c, Tree.declaration n inLoop (c.laid (Report.within other)) =
      EStateM.Result.onState (Tree.Cursor.laid (Report.within other))
        (Tree.declaration n inLoop c)) ∧
    (∀ other, ∃ r, Scope.resolve frames read listing (checked.parsed.within other) = .ok r ∧
      r.report = checked.report.within other) ∧
    (limit ≤ (checked.scanned.errorCount : Int) →
      read = [] ∧ checked.report = checked.scanned) ∧
    ∃ starts c,
      Tree.Succession frames (.ofTokens checked.tokens.toList listing checked.scanned) starts
        read c ∧ c.report = checked.parsed ∧
      (∀ s ∈ starts, s.atEnd = false ∧ (s.report.errorCount : Int) < limit) ∧
      (frames = 0 ∨ c.atEnd = true ∨ limit ≤ (checked.parsed.errorCount : Int)) ∧
      ∀ most : Nat, (∀ s ∈ starts,
          (EStateM.Result.final (Tree.declaration frames false s)).report.errorCount ≤
            s.report.errorCount + most) →
        (checked.parsed.errorCount : Int) ≤
          max (checked.scanned.errorCount : Int) (limit - 1 + most) := by
  intro limit frames listing read checked
  refine ⟨fun other => scanned_within other, fun n inLoop other c => ?_,
    fun other => resolves_within other, fun hfull => ?_, ?_⟩
  · have hblind : Tree.Blind (Report.within other) (Tree.declaration n inLoop) :=
      (Tree.blind_sentences (Report.unseen_within other) n).2 inLoop
    exact hblind.commutes c
  · have hlimit : checked.scanned.limit = limit :=
      (check_grows host settings file source).1.1.symm
    rw [← hlimit] at hfull
    exact check_full (decide_eq_true hfull)
  · obtain ⟨starts, c, hstarts, hc, hroom, hend⟩ := check_succession host settings file source
    refine ⟨starts, c, hstarts, hc, hroom, hend, fun most hmost => ?_⟩
    -- Each declaration starts below the limit, and adds at most what one declaration adds.
    have hcount := hstarts.errorCount_le (fun s hs => (hroom s hs).2) hmost
    rw [hc] at hcount
    exact hcount

/-- Scanning, one block and resolving go over the limit of one error. -/
theorem limit_overrun :
    let settings : Settings := { maxErrors := 1 }
    (check Host.small settings none "@@").report.errorCount = 2 ∧
    (check Host.small settings none "{ print; print; }").report.errorCount = 2 ∧
    (check Host.small settings none "return; return;").report.errorCount = 2 := by
  decide +kernel

end Checking

end Lox
