/-
What checking accepts.

A source is accepted if scanning, reading and resolving add nothing to the
report.  Then its words are a program of the grammar, and the program has a
distance for every use of a local name.  Nothing but the words of a source
matters to this, so sources that are accepted one by one are accepted together,
with line feeds between them.

* `Reads` — what reading gives when it adds nothing to the report;
* `Accepted` — a source that is accepted, with its tokens and its trees;
* `hasErrors_eq_false_iff` — the sources that are accepted;
* `Accepted.lexical` — the distances of an accepted source.
-/
import Lox.Proofs.Grammar.Programs
import Lox.Proofs.Lexical
import Lox.Proofs.Resolution

namespace Lox

/-! ### Tokens -/

namespace Token

theorem isEnd_eq_false_of_spelled {t : Token} (h : t.word.Spelled) : t.isEnd = false := by
  have hkind : t.kind ≠ .endOfInput := h.notEnd
  simp [isEnd, hkind]

/-- A text is scanned to its words, and the end of the input. -/
theorem scan_tokens (source : String) (file : Option String) (report : Report) :
    ∃ ts last, (scan source file report).1.toList = ts ++ [last] ∧
      ts.map word = words source.toList ∧ last.isEnd = true ∧ ∀ t ∈ ts, t.word.Spelled := by
  have hwords := scan_words source file report
  obtain ⟨ts, rest, htokens, hts, hrest⟩ := List.map_eq_append_iff.mp hwords
  obtain ⟨last, tail, rfl, hlast, htail⟩ := List.map_eq_cons_iff.mp hrest
  obtain rfl := List.map_eq_nil_iff.mp htail
  refine ⟨ts, last, htokens, hts, ?_, fun t ht => ?_⟩
  · have hkind : last.kind = .endOfInput := congrArg Word.kind hlast
    simp [isEnd, hkind]
  · refine words_spelled source.toList _ ?_
    rw [← hts]
    exact List.mem_map_of_mem ht

/-- The same token, spelled as it should be. -/
structure Itself (t t' : Token) : Prop where
  same : t = t'
  spelled : t.word.Spelled

theorem Itself.alike {t t' : Token} (h : t.Itself t') : t.Alike t' :=
  ⟨congrArg word h.same, h.spelled⟩

theorem forall₂_itself {ts : List Token} (hs : ∀ t ∈ ts, t.word.Spelled) :
    List.Forall₂ Itself ts ts :=
  List.forall₂_same.mpr fun t ht => ⟨rfl, hs t ht⟩

/-- Tokens with the same words are alike, if the words are spelled as they should
be. -/
theorem alike_of_words {ts ts' : List Token} (h : ts.map word = ts'.map word)
    (hs : ∀ t ∈ ts, t.word.Spelled) : List.Forall₂ Alike ts ts' := by
  induction ts generalizing ts' with
  | nil =>
    obtain rfl := List.map_eq_nil_iff.mp h.symm
    exact .nil
  | cons t ts ih =>
    obtain ⟨t', ts', rfl, ht, hts⟩ := List.map_eq_cons_iff.mp h.symm
    rw [List.forall_mem_cons] at hs
    exact .cons ⟨ht.symm, hs.1⟩ (ih hts.symm hs.2)

end Token

/-! ### Reading -/

namespace Tree

open Lox.Tree.Parser

theorem parse_grows (frames : Nat) (tokens : List Token) (listing : Listing) (report : Report) :
    report.Extends (parse frames tokens listing report).2 :=
  (parse_placed (T := Anywhere) frames listing report (fun _ _ => trivial) trivial).2.grows

/-- What reading gives when it adds nothing to the report.  Without a frame, or
without room in the report, nothing is read. -/
inductive Reads (frames : Nat) (report : Report) (ts : List Token) : List Stmt → Prop
  | nothing (h : frames = 0 ∨ report.isFull) : Reads frames report ts []
  | all {program : List Stmt} (hf : 0 < frames) (hr : report.isFull = false)
      (hp : Program true frames ts program) : Reads frames report ts program

theorem parse_nothing {frames : Nat} {report : Report} (h : frames = 0 ∨ report.isFull)
    (tokens : List Token) (listing : Listing) :
    parse frames tokens listing report = ([], report) := by
  obtain ⟨c, hc⟩ : ∃ c, c = Cursor.ofTokens tokens listing report := ⟨_, rfl⟩
  have hreport : c.report = report := by
    rw [hc]
    rfl
  -- The loop ends before its first step, or that step has no frame.
  have hloop : ∀ fuel, manyFrom inProgram (declaration frames false) fuel #[] c = .ok [] c ∨
      manyFrom inProgram (declaration frames false) fuel #[] c = .error .tooDeep c := by
    intro fuel
    cases fuel with
    | zero => exact .inl rfl
    | succ fuel =>
      change (if inProgram c then _ else _ : Parser (List Stmt)) c = _ ∨
        (if inProgram c then _ else _ : Parser (List Stmt)) c = _
      rcases h with rfl | h
      · by_cases hp : inProgram c
        · rw [if_pos hp, declaration]
          exact .inr rfl
        · rw [if_neg hp]
          exact .inl rfl
      · have hp : inProgram c = false := by simp [inProgram, hreport, h]
        rw [hp, if_neg Bool.false_ne_true]
        exact .inl rfl
  unfold parse
  rw [← hc]
  rcases hloop c.ahead.length with hrun | hrun
  · rw [show program frames c = _ from hrun, ← hreport]
  · rw [show program frames c = _ from hrun, ← hreport]

theorem parse_iff_reads {frames : Nat} {ts : List Token} {last : Token} (listing : Listing)
    {report : Report} (hts : ∀ t ∈ ts, t.isEnd = false) (hlast : last.isEnd = true)
    {statements : List Stmt} :
    parse frames (ts ++ [last]) listing report = (statements, report) ↔
      Reads frames report ts statements := by
  by_cases h : frames = 0 ∨ report.isFull
  · rw [parse_nothing h, Prod.mk.injEq]
    constructor
    · rintro ⟨rfl, -⟩
      exact .nothing h
    · rintro (_ | ⟨hf, hr, -⟩)
      · exact ⟨rfl, rfl⟩
      · rcases h with rfl | h
        · exact absurd hf (Nat.lt_irrefl 0)
        · exact absurd h (hr ▸ Bool.false_ne_true)
  -- With a frame and room for an error the loop runs, and then grammar decides.
  · have hroom : 0 < frames ∧ report.isFull = false := by
      rw [not_or, Bool.not_eq_true] at h
      exact ⟨Nat.pos_of_ne_zero h.1, h.2⟩
    rw [parse_quiet_iff hroom.1 hts hlast hroom.2]
    constructor
    · exact .all hroom.1 hroom.2
    · rintro (hn | ⟨-, -, hp⟩)
      · exact absurd hn h
      · exact hp

namespace Reads

variable {R : Token → Token → Prop} {frames : Nat} {report : Report} {ts ts' : List Token}
  {program program' : List Stmt}

theorem room (hf : 0 < frames) (hr : report.isFull = false) : ¬(frames = 0 ∨ report.isFull) := by
  rw [hr]
  simp [Nat.ne_of_gt hf]

theorem unique (h : Reads frames report ts program) (h' : Reads frames report ts program') :
    program = program' := by
  cases h with
  | nothing hn =>
    cases h' with
    | nothing _ => rfl
    | all hf hr _ => exact absurd hn (room hf hr)
  | all hf hr hp =>
    cases h' with
    | nothing hn => exact absurd hn (room hf hr)
    | all _ _ hp' => exact hp.unique hp'

/-- Tokens with the same words are read as statements of the same shape. -/
theorem shape (hR : ∀ {t t'}, R t t' → t.Alike t') (h : Reads frames report ts program)
    (hts : List.Forall₂ R ts ts') : ∃ program', Reads frames report ts' program' ∧
      List.Forall₂ (Category.declaration.Fits R) program program' := by
  cases h with
  | nothing hn => exact ⟨[], .nothing hn, .nil⟩
  | all hf hr hp =>
    obtain ⟨program', hp', hfits⟩ := hp.shape hR hts
    exact ⟨program', .all hf hr hp', hfits⟩

theorem nil : Reads frames report [] [] := by
  by_cases h : frames = 0 ∨ report.isFull
  · exact .nothing h
  · rw [not_or, Bool.not_eq_true] at h
    exact .all (Nat.pos_of_ne_zero h.1) h.2 ⟨[], rfl, rfl, by simp⟩

/-- Tokens that are read part by part are read together. -/
theorem append (h : Reads frames report ts program) (h' : Reads frames report ts' program') :
    Reads frames report (ts ++ ts') (program ++ program') := by
  cases h with
  | nothing hn =>
    cases h' with
    | nothing _ => exact .nothing hn
    | all hf hr _ => exact absurd hn (room hf hr)
  | all hf hr hp =>
    cases h' with
    | nothing hn => exact absurd hn (room hf hr)
    | all _ _ hp' =>
      obtain ⟨parts, rfl, rfl, hall⟩ := hp
      obtain ⟨parts', rfl, rfl, hall'⟩ := hp'
      refine .all hf hr ⟨parts ++ parts', by simp, by simp, fun p hmem => ?_⟩
      rcases List.mem_append.mp hmem with hmem | hmem
      · exact hall p hmem
      · exact hall' p hmem

end Reads

end Tree

/-! ### Checking -/

/-- The report before a source is checked. -/
def Settings.blank (s : Settings) : Report :=
  { limit := s.maxErrors }

section

variable {host : Host} {settings : Settings} {file : Option String} {source : String}

/-- What checking gives, stage by stage. -/
theorem check_stages (host : Host) (settings : Settings) (file : Option String)
    (source : String) : let checked := check host settings file source
    checked.tokens = (Token.scan source file settings.blank).1 ∧
      checked.scanned = (Token.scan source file settings.blank).2 ∧
      Tree.parse (settings.frames host) checked.tokens.toList (Listing.ofText source)
        checked.scanned = (Lexical.read host settings file source, checked.parsed) := by
  unfold Lexical.read check
  simp only
  split
  · exact ⟨rfl, rfl, rfl⟩
  · exact ⟨rfl, rfl, rfl⟩

theorem read_proper (host : Host) (settings : Settings) (file : Option String) (source : String) :
    ∀ s ∈ Lexical.read host settings file source, ProperStmt s :=
  Tree.parse_proper _ _ _ _

/-- Resolving never stops at a node that has no place where it stands. -/
theorem check_resolves (host : Host) (settings : Settings) (file : Option String)
    (source : String) : ∃ r,
      Scope.resolve (settings.frames host) (Lexical.read host settings file source)
        (Listing.ofText source) (check host settings file source).parsed = .ok r ∧
      (check host settings file source).statements = r.statements ∧
      (check host settings file source).report = r.report := by
  obtain ⟨ss, c, -, hr⟩ := Scope.resolve_proper (settings.frames host) (Listing.ofText source)
    (check host settings file source).parsed (read_proper host settings file source)
  refine ⟨_, hr, ?_⟩
  obtain ⟨htokens, hscanned, hparsed⟩ := check_stages host settings file source
  rw [htokens, hscanned] at hparsed
  have hstages := congrArg (fun p : List Stmt × Report =>
    Scope.resolve (settings.frames host) p.1 (Listing.ofText source) p.2) hparsed
  dsimp only at hstages
  have hresolve := hstages.trans hr
  unfold Settings.blank at hresolve
  unfold check
  simp only [hresolve, and_self]

/-- Every stage adds to the report of the one before. -/
theorem check_grows (host : Host) (settings : Settings) (file : Option String)
    (source : String) : let checked := check host settings file source
    settings.blank.Extends checked.scanned ∧ checked.scanned.Extends checked.parsed ∧
      checked.parsed.Extends checked.report := by
  obtain ⟨r, hr, -, hreport⟩ := check_resolves host settings file source
  obtain ⟨htokens, hscanned, hparsed⟩ := check_stages host settings file source
  have hparse := Tree.parse_grows (settings.frames host)
    (check host settings file source).tokens.toList (Listing.ofText source)
    (check host settings file source).scanned
  rw [hparsed] at hparse
  refine ⟨?_, hparse, ?_⟩
  · rw [hscanned]
    exact (Token.scan_report source file settings.blank).1
  · rw [hreport]
    exact Scope.resolve_grows (read_proper host settings file source) hr

/-- A source that is accepted: its text is clean, its tokens `ts` are read as
`program`, and this is resolved to `r`, all without a problem. -/
structure Accepted (host : Host) (settings : Settings) (file : Option String) (source : String)
    (ts : List Token) (program : List Stmt) (r : Scope.Resolved) : Prop where
  clean : Token.Clean source.toList
  scanned : ∃ last, (Token.scan source file settings.blank).1.toList = ts ++ [last] ∧
    last.isEnd = true
  words : ts.map Token.word = Token.words source.toList
  spelled : ∀ t ∈ ts, t.word.Spelled
  reads : Tree.Reads (settings.frames host) settings.blank ts program
  resolved : Scope.resolve (settings.frames host) program (Listing.ofText source) settings.blank
    = .ok r
  quiet : r.report = settings.blank

variable {ts : List Token} {program : List Stmt} {r : Scope.Resolved}

theorem Accepted.read_eq (h : Accepted host settings file source ts program r) :
    Lexical.read host settings file source = program ∧
      (check host settings file source).parsed = settings.blank := by
  obtain ⟨htokens, hscanned, hparsed⟩ := check_stages host settings file source
  obtain ⟨last, hts, hlast⟩ := h.scanned
  rw [htokens, hscanned, hts, (Token.scan_report source file settings.blank).2.mpr h.clean,
    (Tree.parse_iff_reads _ (fun t ht => Token.isEnd_eq_false_of_spelled (h.spelled t ht))
      hlast).mpr h.reads] at hparsed
  obtain ⟨hread, hreport⟩ := Prod.mk.inj hparsed
  exact ⟨hread.symm, hreport.symm⟩

/-- Checking an accepted source gives its resolved tree, and nothing else. -/
theorem Accepted.check_eq (h : Accepted host settings file source ts program r) :
    (check host settings file source).statements = r.statements ∧
      (check host settings file source).report = settings.blank := by
  obtain ⟨r', hr', hstatements, hreport⟩ := check_resolves host settings file source
  obtain ⟨hread, hparsed⟩ := h.read_eq
  rw [hread, hparsed, h.resolved] at hr'
  cases hr'
  exact ⟨hstatements, hreport.trans h.quiet⟩

/-- The sources that are accepted are those for which checking finds no error. -/
theorem hasErrors_eq_false_iff : (check host settings file source).report.hasErrors = false ↔
    ∃ ts program r, Accepted host settings file source ts program r := by
  constructor
  · intro herrors
    obtain ⟨r, hr, -, hreport⟩ := check_resolves host settings file source
    obtain ⟨htokens, hscanned, hparsed⟩ := check_stages host settings file source
    obtain ⟨hscan, hparse, hresolve⟩ := check_grows host settings file source
    have hclean := (Token.scan_report source file settings.blank).2
    rw [hreport] at hresolve
    rw [← hscanned] at hclean
    -- No stage has added anything, since nothing was added in the end.
    have hblank : settings.blank = r.report :=
      ((hscan.trans hparse).trans hresolve).eq_of_hasErrors (hreport ▸ herrors)
    have hfirst : (check host settings file source).scanned = settings.blank :=
      (hscan.antisymm (hblank ▸ hparse.trans hresolve)).symm
    have hsecond : (check host settings file source).parsed = settings.blank :=
      ((hscan.trans hparse).antisymm (hblank ▸ hresolve)).symm
    obtain ⟨ts, last, hts, hwords, hlast, hspelled⟩ := Token.scan_tokens source file settings.blank
    rw [hfirst, hsecond, htokens, hts] at hparsed
    rw [hsecond] at hr
    refine ⟨ts, Lexical.read host settings file source, r, hclean.mp hfirst, ⟨last, hts, hlast⟩,
      hwords, hspelled, ?_, hr, hblank.symm⟩
    exact (Tree.parse_iff_reads _ (fun t ht => Token.isEnd_eq_false_of_spelled (hspelled t ht))
      hlast).mp hparsed
  · rintro ⟨ts, program, r, h⟩
    rw [h.check_eq.2]
    rfl

/-- In an accepted source every use has the distance of its declaration. -/
theorem Accepted.lexical (h : Accepted host settings file source ts program r) :
    Scope.BodyShape Token.Itself .lexical [] program r.statements [] := by
  have hproper : ∀ s ∈ program, ProperStmt s := h.read_eq.1 ▸ read_proper host settings file source
  obtain ⟨program', hreads, hshape⟩ := h.reads.shape Token.Itself.alike
    (Token.forall₂_itself h.spelled)
  obtain rfl := h.reads.unique hreads
  obtain ⟨r', hr', -, hlexical⟩ := Scope.resolve_carries Token.Itself.alike hshape hproper
    h.resolved h.quiet (Listing.ofText source) settings.blank
  rw [h.resolved] at hr'
  cases hr'
  exact hlexical

end

end Lox
