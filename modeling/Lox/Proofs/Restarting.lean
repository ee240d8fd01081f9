/-
Reading goes on as if nothing had been read.

A parser adds to its report, but never looks at it; only the loop over the declarations of
a program does, for the limit of errors.  So where a declaration ends, read or given up,
a parser of the tokens from there on would do the same.

* `Cursor.Grows` — reports that go on;
* `inherited_blind`, `blind_sentences` — a parser does not see what was reported before;
* `manyFrom_unlimited` — the limit of errors does nothing if it is not reached;
* `manyFrom_found`, `manyFrom_fuel` — the loop over declarations, after some of them;
* `parse_restarts` — a program is its first declaration, and then the program that is read
  from the tokens behind it.
-/
import Lox.Proofs.Inheritance
import Lox.Proofs.Oblivious
import Lox.Proofs.Totality

namespace Lox.Tree

open Lox.Tree.Parser

/-! ### Reports before and after -/

/-- The same source, and a report that goes on from the other. -/
structure Cursor.Grows (c c' : Cursor) : Prop where
  listing : c'.listing = c.listing
  report : c.report.Extends c'.report

instance : IsPreorder Cursor Cursor.Grows where
  refl c := ⟨rfl, .refl c.report⟩
  trans _ _ _ h h' := ⟨h'.listing.trans h.listing, h.report.trans h'.report⟩

/-- A parser that does not see what was reported before, and adds to the report. -/
abbrev Blind {α : Type} (f : Report → Report) (p : Parser α) : Prop :=
  Oblivious (Cursor.laid f) (fun _ => Cursor.Grows) p

section Tokens

variable {α : Type} {f : Report → Report}

theorem Cursor.grows_of_ahead (c : Cursor) (ahead : List Token) :
    c.Grows { c with ahead := ahead } :=
  ⟨rfl, .refl c.report⟩

theorem blind_peek : Blind f peek :=
  .getBind (fun _ => rfl) fun _ => .pure _

theorem blind_advance : Blind f advance :=
  .modifyGet (fun _ => rfl) fun c => c.grows_of_ahead _

theorem blind_synchronize : Blind f synchronize := by
  refine .modify (fun c => ?_) fun c => ?_
  · obtain ⟨ahead, last, listing, report⟩ := c
    cases ahead with
    | nil => rfl
    | cons t rest => rfl
  · obtain ⟨ahead, last, listing, report⟩ := c
    cases ahead with
    | nil => exact refl _
    | cons t rest => exact Cursor.grows_of_ahead _ _

/-- A loop whose condition does not see the change. -/
theorem blind_manyFrom {more : Cursor → Bool} {step : Parser (Option α)}
    (hmore : ∀ c : Cursor, more (c.laid f) = more c) (h : Blind f step) (fuel : Nat) :
    ∀ found, Blind f (manyFrom more step fuel found) := by
  induction fuel with
  | zero => exact fun found => .pure _
  | succ fuel ih =>
    refine fun found => .getBind (fun c => ?_) fun c => .ite (.bind h fun _ => ih _) (.pure _)
    rw [hmore]

theorem blind_many {more : Cursor → Bool} {step : Parser (Option α)}
    (hmore : ∀ c : Cursor, more (c.laid f) = more c) (h : Blind f step) :
    Blind f (many more step) :=
  .getBind (fun _ => rfl) fun _ => blind_manyFrom hmore h _ _

variable (hf : Report.Unseen f)

include hf

theorem blind_complain (t : Token) (why : Complaint) : Blind f (complain t why) := by
  refine .modify (fun c => ?_) fun c => ⟨rfl, .add c.report (why.static t _)⟩
  unfold Cursor.complain Cursor.laid
  rw [hf]

/-- Recovery complains and goes on, whatever was reported before. -/
theorem blind_recovering {p : Parser α} (h : Blind f p) : Blind f (recovering p) := by
  -- Both ways of failing end in a complaint and a skip, which take no note of the report.
  have hcomplained : ∀ t why, Blind f (do complain t why; synchronize; pure none :
      Parser (Option α)) := fun t why =>
    .bind (blind_complain hf t why) fun _ => .bind blind_synchronize fun _ => .pure none
  have hdeep : Blind f (do complain (← peek) .tooDeep; synchronize; pure none :
      Parser (Option α)) :=
    .bind blind_peek fun t => hcomplained t .tooDeep
  refine ⟨fun c => ?_, fun c => ?_⟩
  · unfold recovering
    rw [h.commutes]
    cases p c with
    | ok a c' => rfl
    | error e c' =>
      cases e with
      | complaint t why => exact (hcomplained t why).commutes c'
      | tooDeep => exact hdeep.commutes c'
  · have hkeeps := h.keeps c
    unfold recovering
    generalize p c = r at hkeeps ⊢
    cases r with
    | ok a c' => exact hkeeps
    | error e c' =>
      cases e with
      | complaint t why => exact IsTrans.trans _ _ _ hkeeps ((hcomplained t why).keeps c')
      | tooDeep => exact IsTrans.trans _ _ _ hkeeps (hdeep.keeps c')

/-- What was reported before is seen by no rule of the grammar. -/
theorem inherited_blind : Inherited (Blind f) where
  pure := .pure
  bind := .bind
  look hsame := .getBind fun c => hsame f c
  choose hk := .bind blind_peek fun t =>
    (hk t).elim id fun ⟨_, h⟩ => h ▸ .throw _
  advance := blind_advance
  complain := blind_complain hf
  tooDeep := .throw _
  recovering := blind_recovering hf

theorem blind_sentences (n : Nat) :
    (∀ inLoop, Blind f (statement n inLoop)) ∧ ∀ inLoop, Blind f (declaration n inLoop) :=
  (inherited_blind hf).sentences n

end Tokens

/-! ### Loops over declarations -/

section Loops

variable {α : Type} {more : Cursor → Bool} {step : Parser (Option α)}

theorem manyFrom_succ (fuel : Nat) (found : Array α) (c : Cursor) :
    manyFrom more step (fuel + 1) found c =
      (if more c then step >>= fun a? => manyFrom more step fuel (a?.elim found found.push)
      else pure found.toList : Parser (List α)) c :=
  rfl

/-- The limit of errors does nothing as long as it is not reached. -/
theorem manyFrom_unlimited (hstep : Blind (fun r => r) step) (fuel : Nat) :
    ∀ (found : Array α) (c : Cursor),
      (EStateM.Result.final (manyFrom (fun c => more c && !c.report.isFull) step fuel found
          c)).report.isFull = false ∨
        (EStateM.Result.final (manyFrom more step fuel found c)).report.isFull = false →
      manyFrom (fun c => more c && !c.report.isFull) step fuel found c =
        manyFrom more step fuel found c := by
  induction fuel with
  | zero => exact fun _ _ _ => rfl
  | succ fuel ih =>
    intro found c h
    -- What is not full in the end was not full at the beginning.
    have hfull : c.report.isFull = false :=
      h.elim ((blind_manyFrom (fun _ => rfl) hstep _ _).keeps c).report.isFull
        ((blind_manyFrom (fun _ => rfl) hstep _ _).keeps c).report.isFull
    have hmore : (more c && !c.report.isFull) = more c := by
      rw [hfull, Bool.not_false, Bool.and_true]
    rw [manyFrom_succ, manyFrom_succ, hmore] at h ⊢
    cases hc : more c with
    | false => rfl
    | true =>
      rw [hc, if_pos rfl, if_pos rfl] at h
      rw [if_pos rfl, if_pos rfl]
      cases hrun : step c with
      | error e c' => rw [bind_error hrun, bind_error hrun]
      | ok a? c' =>
        rw [bind_ok hrun, bind_ok hrun] at h ⊢
        exact ih _ c' h

/-- What was found before stands before what is found. -/
theorem manyFrom_found (fuel : Nat) : ∀ found : Array α,
    manyFrom more step fuel found = (found.toList ++ ·) <$> manyFrom more step fuel #[] := by
  induction fuel with
  | zero => exact fun found => by simp [manyFrom]
  | succ fuel ih =>
    intro found
    unfold manyFrom
    rw [map_bind]
    refine bind_congr fun c => ?_
    split
    · rw [map_bind]
      refine bind_congr fun a? => ?_
      rw [ih (a?.elim found found.push), ih (a?.elim #[] (Array.push #[])), Functor.map_map]
      cases a? with
      | none => simp
      | some a => simp
    · simp

end Loops

/-! ### Programs -/

section Programs

variable {i : Input} {depth : Nat}

/-- Reading adds to the report. -/
theorem grows_declaration (n : Nat) (inLoop : Bool) (c : Cursor) :
    c.Grows (EStateM.Result.final (declaration n inLoop c)) :=
  have hquiet : Blind (fun r => r) (declaration n inLoop) :=
    (blind_sentences (fun _ _ => rfl) n).2 inLoop
  hquiet.keeps c

theorem grows_program (n : Nat) (c : Cursor) :
    c.Grows (EStateM.Result.final (program n c)) :=
  have hquiet : Blind (fun r => r) (program n) :=
    blind_many (fun _ => rfl) ((blind_sentences (fun _ _ => rfl) n).2 false)
  hquiet.keeps c

/-- Two parsers beside one reader come to the same. -/
theorem Alike.unique {α : Type} {start start' least least' : Nat}
    {r : EStateM.Result Tape.Stop Tape α} {r₁ r₂ : EStateM.Result Halt Cursor α}
    (h₁ : Alike i depth start least r r₁) (h₂ : Alike i depth start' least' r r₂) : r₁ = r₂ := by
  cases h₁ with
  | ok =>
    cases h₂
    rfl
  | error =>
    cases h₂
    rfl

/-- As every declaration passes a token, more turns than there are tokens ahead do nothing. -/
theorem manyFrom_fuel (n : Nat) {tape : Tape} (ht : tape.On i 0) {fuel : Nat}
    (hfuel : i.stop - tape.position ≤ fuel) (found : Array Stmt) :
    manyFrom (fun c => !c.atEnd && !c.report.isFull) (declaration n false) fuel found
        (tape.cursor i) =
      manyFrom (fun c => !c.atEnd && !c.report.isFull) (declaration n false)
        (tape.cursor i).ahead.length found (tape.cursor i) :=
  have halike {fuel : Nat} := whileFrom_alike inProgram_condition (follows_sentences n 0).2
    (i.tokens.length + 1) fuel found ht (left_lt_turns tape)
  (halike hfuel).unique (halike (Nat.le_of_eq Tape.ahead_length.symm))

/-- The cursor behind some tokens is one before the tokens that are left. -/
theorem ofTokens_drop {position : Nat} (h : position ≤ i.stop) (listing : Listing)
    (report : Report) :
    Cursor.ofTokens (i.tokens.drop position) listing report =
      { ahead := i.front.drop position, last := i.last, listing, report } := by
  obtain ⟨hlast, hfront, rest, htokens⟩ := i.cut
  have hdrop : i.tokens.drop position = i.front.drop position ++ i.last :: rest := by
    rw [htokens, List.drop_append_of_le_length h]
  have hkept : ∀ t ∈ i.front.drop position, (!t.isEnd) = true := fun t ht => by
    rw [hfront t (List.mem_of_mem_drop ht)]
    rfl
  have hfind : (i.front.drop position).find? (·.isEnd) = none :=
    List.find?_eq_none.mpr fun t ht => by
      rw [hfront t (List.mem_of_mem_drop ht)]
      exact Bool.false_ne_true
  unfold Cursor.ofTokens
  rw [hdrop, List.takeWhile_append_of_pos hkept, List.takeWhile_cons_of_neg (by simp [hlast]),
    List.append_nil, List.find?_append, hfind, List.find?_cons_of_pos hlast]
  rfl

/-- A program that is read with messages before it is read as without, as long as the limit
of errors is not reached. -/
theorem program_behind (n : Nat) (c : Cursor)
    (h : (EStateM.Result.final (program n c)).report.isFull = false) :
    program n c = EStateM.Result.onState (Cursor.laid (Report.behind c.report.diagnostics))
      (program n { c with report := { limit := c.report.limit } }) := by
  have hunseen : Report.Unseen (Report.behind c.report.diagnostics) := Report.unseen_behind _
  have hblind : Blind (Report.behind c.report.diagnostics)
      (manyFrom (fun c => !c.atEnd) (declaration n false) c.ahead.length #[]) :=
    blind_manyFrom (fun _ => rfl) ((blind_sentences hunseen n).2 false) _ _
  have hstart : Cursor.laid (Report.behind c.report.diagnostics)
      { c with report := { limit := c.report.limit } } = c := by
    unfold Cursor.laid Report.behind
    rw [Array.append_empty]
  have hquiet : Blind (fun r => r) (declaration n false) := (blind_sentences (fun _ _ => rfl) n).2 _
  -- Without the limit in the condition of the loop nothing looks at the report.
  have hrun : program n c = _ := manyFrom_unlimited hquiet c.ahead.length #[] c (.inl h)
  have hcommutes := hblind.commutes { c with report := { limit := c.report.limit } }
  rw [hstart] at hcommutes
  have hroom : (EStateM.Result.final (manyFrom (fun c => !c.atEnd) (declaration n false)
      c.ahead.length #[] { c with report := { limit := c.report.limit } })).report.isFull =
        false := by
    rw [hrun, hcommutes, EStateM.Result.final_onState] at h
    exact Report.isFull_of_behind h
  have hfresh : program n { c with report := { limit := c.report.limit } } = _ :=
    manyFrom_unlimited hquiet c.ahead.length #[] _ (.inr hroom)
  rw [hrun, hcommutes, hfresh]

/-- The first declaration, and then what is read from the place where it ends. -/
theorem program_cons (limit : Nat) {tape tape' : Tape} (ht : tape.On i 0)
    (hp : tape.position < i.stop) (hfull : tape.report.isFull = false) {stmt? : Option Stmt}
    (hdecl : declaration (limit + 1) false (tape.cursor i) = .ok stmt? (tape'.cursor i))
    (hlt : tape.position < tape'.position) (ht' : tape'.On i 0) {ss : List Stmt} {c : Cursor}
    (hrest : program (limit + 1) (tape'.cursor i) = .ok ss c) :
    program (limit + 1) (tape.cursor i) = .ok (stmt?.toList ++ ss) c := by
  have hlength : (tape.cursor i).ahead.length = i.stop - tape.position := Tape.ahead_length
  obtain ⟨k, hk⟩ : ∃ k, (tape.cursor i).ahead.length = k + 1 :=
    Nat.exists_eq_succ_of_ne_zero (by omega)
  have hmore : (!(tape.cursor i).atEnd && !(tape.cursor i).report.isFull) = true := by
    rw [atEnd_eq ht, decide_eq_false (Nat.ne_of_lt hp), show (tape.cursor i).report = tape.report
      from rfl, hfull]
    rfl
  have hfound : (stmt?.elim #[] (Array.push #[])).toList = stmt?.toList := by
    cases stmt? with
    | none => rfl
    | some s => rfl
  -- One turn is used up, and at least one token is passed.
  have hleft : i.stop - tape'.position ≤ k := by omega
  have hturns := (manyFrom_fuel (limit + 1) ht' hleft #[]).trans hrest
  change manyFrom _ _ (tape.cursor i).ahead.length #[] (tape.cursor i) = _
  rw [hk, manyFrom_succ, hmore, if_pos rfl, bind_ok hdecl, manyFrom_found, hfound,
    map_eq_pure_bind, bind_ok hturns]
  rfl

theorem parse_eq (frames : Nat) (tokens : List Token) (listing : Listing) (report : Report)
    {ss : List Stmt} {c : Cursor}
    (h : program frames (Cursor.ofTokens tokens listing report) = .ok ss c) :
    parse frames tokens listing report = (ss, c.report) := by
  unfold parse
  rw [h]

/-- A program has a first token, if it does not begin with the end of the input. -/
theorem stop_pos (h : ∀ t ∈ i.tokens.head?, t.isEnd = false) : 0 < i.stop := by
  obtain ⟨hlast, -, rest, htokens⟩ := i.cut
  cases hfront : i.front with
  | nil =>
    have hend := h i.last (by rw [htokens, hfront]; rfl)
    rw [hlast] at hend
    cases hend
  | cons t front =>
    unfold Input.stop
    rw [hfront]
    exact Nat.succ_pos _

/-- A fresh parser of the tokens that are left reads the same, and reports what is new. -/
theorem parse_behind (limit : Nat) {tape : Tape} (ht : tape.On i 0) {ss : List Stmt} {c : Cursor}
    (hrun : program (limit + 1) (tape.cursor i) = .ok ss c) (hroom : c.report.isFull = false) :
    ∃ r, parse (limit + 1) (i.tokens.drop tape.position) tape.listing
        { limit := tape.report.limit } = (ss, r) ∧ c.report = tape.report.append r := by
  have hbehind := program_behind (limit + 1) (tape.cursor i) (by rw [hrun]; exact hroom)
  have hfresh : Cursor.ofTokens (i.tokens.drop tape.position) tape.listing
      { limit := tape.report.limit } =
      { tape.cursor i with report := { limit := (tape.cursor i).report.limit } } :=
    ofTokens_drop ht.position _ _
  obtain ⟨ss', c', hrun'⟩ := program_ok (Nat.succ_pos limit) (Cursor.ofTokens
    (i.tokens.drop tape.position) tape.listing { limit := tape.report.limit })
  have hgrows := grows_program (limit + 1) (Cursor.ofTokens (i.tokens.drop tape.position)
    tape.listing { limit := tape.report.limit })
  rw [hrun'] at hgrows
  rw [hrun, ← hfresh, hrun'] at hbehind
  obtain ⟨rfl, rfl⟩ := EStateM.Result.ok.inj hbehind
  exact ⟨c'.report, parse_eq _ _ _ _ hrun',
    Report.behind_append tape.report c'.report hgrows.report.1.symm⟩

/-- Recovery keeps no memory.  The first declaration of a program may be read or given up, in
the middle of whatever loops and functions: where it ends no loop is around the position, and
as long as the limit of errors is not reached, the program is this declaration, if it was
read, and what a fresh parser reads from the tokens that are left; and so are the messages. -/
theorem parse_restarts (limit : Nat) (before : List Token) {last : Token}
    (hlast : last.isEnd = true) (listing : Listing) (report : Report)
    (hfirst : ∀ t ∈ (before ++ [last]).head?, t.isEnd = false)
    (hroom : (parse (limit + 1) (before ++ [last]) listing report).2.isFull = false) :
    let tokens := before ++ [last]
    ∃ stmt? tape,
      Reader.declaration (limit + 1) { tokens, listing, report } = .ok stmt? tape ∧
      tape.loopDepth = 0 ∧ 0 < tape.position ∧ tape.position < tokens.length ∧
      declaration (limit + 1) false (Cursor.ofTokens tokens listing report) =
        .ok stmt? (Cursor.ofTokens (tokens.drop tape.position) listing tape.report) ∧
      let rest := parse (limit + 1) (tokens.drop tape.position) listing { limit := report.limit }
      parse (limit + 1) tokens listing report =
        (stmt?.toList ++ rest.1, tape.report.append rest.2) := by
  intro tokens
  let i := Input.ending before hlast
  have hstart : Tape.On i 0 { tokens, listing, report } :=
    ⟨rfl, Nat.zero_le _, Nat.zero_le _, rfl⟩
  obtain ⟨stmt?, tape, hreader, hparser, hlt, hon⟩ :=
    declaration_passes limit hstart (stop_pos hfirst)
  have hgrows : Cursor.Grows (Cursor.ofTokens tokens listing report) (tape.cursor i) := by
    have h := grows_declaration (limit + 1) false (Cursor.ofTokens tokens listing report)
    rwa [show declaration (limit + 1) false (Cursor.ofTokens tokens listing report) = _ from
      hparser] at h
  have hlisting : tape.listing = listing := hgrows.listing
  have hlimit : tape.report.limit = report.limit := hgrows.report.1.symm
  -- The limit was not reached in the end, so not before either.
  have hfull : report.isFull = false := by
    obtain ⟨ss, c, hrun⟩ := program_ok (Nat.succ_pos limit) (Cursor.ofTokens tokens listing report)
    have h := grows_program (limit + 1) (Cursor.ofTokens tokens listing report)
    rw [hrun] at h
    rw [parse_eq _ _ _ _ hrun] at hroom
    exact h.report.isFull hroom
  obtain ⟨ss, c, hrest⟩ := program_ok (Nat.succ_pos limit) (tape.cursor i)
  have hparse : parse (limit + 1) tokens listing report = (stmt?.toList ++ ss, c.report) :=
    parse_eq _ _ _ _ (program_cons limit hstart (stop_pos hfirst) hfull hparser hlt hon hrest)
  have hroom : c.report.isFull = false := (congrArg (·.2.isFull) hparse).symm.trans hroom
  obtain ⟨r, hfresh, hreport⟩ := parse_behind limit hon hrest hroom
  rw [hlisting, hlimit] at hfresh
  refine ⟨stmt?, tape, hreader, hon.loopDepth, hlt, ?_, ?_, ?_⟩
  · exact Nat.lt_of_le_of_lt hon.position i.stop_lt_length
  · have hcursor : tape.cursor i =
        Cursor.ofTokens (tokens.drop tape.position) listing tape.report := by
      rw [← hlisting]
      exact (ofTokens_drop hon.position tape.listing tape.report).symm
    exact hparser.trans (congrArg (EStateM.Result.ok stmt?) hcursor)
  · rw [hparse, show parse (limit + 1) (tokens.drop tape.position) listing
      { limit := report.limit } = (ss, r) from hfresh, hreport]

/-- A mistake inside two loops, and a `break` behind it that is in none. -/
def strayBreak : List Token :=
  [{ kind := .whileKeyword }, { kind := .leftParen }, { kind := .trueKeyword },
    { kind := .rightParen }, { kind := .whileKeyword }, { kind := .leftParen },
    { kind := .trueKeyword }, { kind := .rightParen }, { kind := .plus }, { kind := .semicolon },
    { kind := .breakKeyword }, { kind := .semicolon }]

/-- The end of the input. -/
def endMark : Token where
  kind := .endOfInput

theorem parse_restarts_strayBreak :
    (parse 30 (strayBreak ++ [endMark]) default {}).2.isFull = false ∧
    (parse 30 (strayBreak ++ [endMark]) default {}).2.diagnostics.map (·.code) =
      #["E101", "E105"] ∧
    ∃ stmt? tape,
      Reader.declaration 30 ⟨strayBreak ++ [endMark], 0, 0, 0, default, {}⟩ = .ok stmt? tape ∧
      tape.loopDepth = 0 ∧ 0 < tape.position := by
  have hfirst : ∀ t ∈ (strayBreak ++ [endMark]).head?, t.isEnd = false := by
    decide +kernel
  have hroom : (parse 30 (strayBreak ++ [endMark]) default {}).2.isFull = false := by
    decide +kernel
  obtain ⟨stmt?, tape, hrun, hdepth, hpos, -⟩ :=
    @parse_restarts 29 strayBreak endMark rfl default {} hfirst hroom
  exact ⟨hroom, by decide +kernel, stmt?, tape, hrun, hdepth, hpos⟩

end Programs

end Lox.Tree
