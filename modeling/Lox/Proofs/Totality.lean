/-
Reading comes to an end, whatever the tokens are.

Each rule of the grammar with a position follows the rule without, so it makes no
slip.  A declaration passes at least one token, also when it is given up, and
leaves the loops around the position as they were.

* `follows_expression`, `follows_sentences` — the grammar, by recursion on the
  frames;
* `declaration_passes` — a declaration passes a token;
* `program_total` — whole programs.
-/
import Lox.Proofs.Grammar.Programs
import Lox.Proofs.Repetition

namespace Lox.Tree

/-! ### The grammar -/

section Grammar

open Reader

variable {α : Type} {i : Input} {depth least : Nat}

/-- A choice is passed over if another kind of token is ahead. -/
theorem passed_over {tape : Tape} (ht : tape.On i depth) {wanted : Token.Kind → Bool}
    (hkind : wanted (i.token tape.position).kind = false) {p p' : Reader α} :
    (do if ← accept wanted then p else p' : Reader α) tape = p' tape := by
  rw [bind_ok (accept_run_not ht wanted hkind)]
  rfl

/-- A choice is taken if its kind of token is ahead. -/
theorem alike_taken {tape : Tape} (ht : tape.On i depth) {wanted : Token.Kind → Bool}
    (hw : wanted .endOfInput = false) (hkind : wanted (i.token tape.position).kind = true)
    {p p' : Reader α} {q : Parser α} {more : Nat}
    (h : tape.next.On i depth → Alike i depth tape.next.position
      (min (tape.next.position + more) i.stop) (p tape.next) (q (tape.next.cursor i)))
    (hm : least ≤ more + 1) :
    Alike i depth tape.position (min (tape.position + least) i.stop)
      ((do if ← accept wanted then p else p' : Reader α) tape)
      ((do let _ ← Parser.advance; q) (tape.cursor i)) := by
  have hnext : tape.next.position = tape.position + 1 := rfl
  rw [bind_ok (accept_run ht wanted hw hkind), if_pos rfl]
  change Alike i depth _ _ _ (q (tape.cursor i).next)
  rw [Tape.cursor_next]
  exact (h (ht.next (lt_stop_of_wanted ht wanted hw hkind))).mono (Nat.le_succ _) (by omega)

/-- The token behind the position is the one that was passed. -/
theorem alike_behind {tape : Tape} (ht : tape.On i depth) {f : Token → Reader α} {q : Parser α}
    (h : Follows i depth least (f (i.token tape.position)) q) (hnext : tape.next.On i depth) :
    Alike i depth tape.next.position (min (tape.next.position + least) i.stop)
      ((previous >>= f) tape.next) (q (tape.next.cursor i)) := by
  rw [bind_ok (previous_run ht)]
  exact h.run hnext

theorem follows_primary {inner : Reader Expr} {inner' : Parser Expr}
    (hi : Follows i depth 0 inner inner') :
    Follows i depth 0 (Reader.primary inner) (Lox.Tree.primary inner') := by
  refine ⟨fun {tape} ht => ?_⟩
  unfold Reader.primary Lox.Tree.primary
  rw [bind_ok (current_run ht), bind_ok peek_run]
  -- The first token chooses; each case takes it on both sides.
  by_cases hliteral : isLiteral (i.token tape.position).kind = true
  · rw [if_pos hliteral]
    exact alike_taken ht rfl hliteral (Follows.pure _).run (Nat.zero_le _)
  rw [if_neg hliteral, passed_over ht (Bool.eq_false_iff.mpr hliteral)]
  by_cases hsuper : (i.token tape.position).kind = .superKeyword
  · rw [hsuper]
    have hsuperRef : ∀ t, Follows i depth 0
        (do
          let _ ← consume .dot "Expect '.' after 'super'."
          let method ← consume .identifier "Expect superclass method name."
          pure (Expr.superRef { token := t } method) : Reader Expr)
        (do
          let _ ← Parser.expect .dot "Expect '.' after 'super'."
          let method ← Parser.expect .identifier "Expect superclass method name."
          pure (Expr.superRef { token := t } method)) := fun t =>
      (follows_consume (by decide) _).after fun _ =>
        (follows_consume (by decide) _).after fun method => .pure _
    exact alike_taken ht rfl (by simpa using hsuper) (hsuperRef _).run (Nat.zero_le _)
  rw [passed_over ht (by simpa using hsuper)]
  by_cases hthis : (i.token tape.position).kind = .thisKeyword
  · rw [hthis]
    exact alike_taken ht rfl (by simpa using hthis) (Follows.pure _).run (Nat.zero_le _)
  rw [passed_over ht (by simpa using hthis)]
  by_cases hname : (i.token tape.position).kind = .identifier
  · rw [hname]
    exact alike_taken ht rfl (by simpa using hname) (Follows.pure _).run (Nat.zero_le _)
  rw [passed_over ht (by simpa using hname)]
  by_cases hparen : (i.token tape.position).kind = .leftParen
  · rw [hparen]
    have hgrouping : Follows i depth 0
        (do
          let e ← inner
          let _ ← consume .rightParen "Expect ')' after expression."
          pure (Expr.grouping e) : Reader Expr)
        (do
          let e ← inner'
          let _ ← Parser.expect .rightParen "Expect ')' after expression."
          pure (Expr.grouping e)) :=
      hi.after fun e => (follows_consume (by decide) _).after fun _ => .pure _
    exact alike_taken ht rfl (by simpa using hparen) hgrouping.run (Nat.zero_le _)
  rw [passed_over ht (by simpa using hparen)]
  -- No expression begins with this token: both stop at it.
  generalize (i.token tape.position).kind = k at hsuper hthis hname hparen ⊢
  cases k with
  | superKeyword | thisKeyword | identifier | leftParen => contradiction
  | _ => exact (Follows.throw _).run ht

theorem follows_finishCall {inner : Reader Expr} {inner' : Parser Expr}
    (hi : Follows i depth 0 inner inner') (callee : Expr) :
    Follows i depth 0 (Reader.finishCall inner callee) (Lox.Tree.finishCall inner' callee) :=
  (follows_commaList "arguments" hi).after fun _ =>
    (follows_consume (by decide) _).after fun _ => .pure _

theorem follows_assignTo (target : Expr) (equals : Token) (value : Expr) :
    Follows i depth 0 (Reader.assignTo target equals value)
      (Lox.Tree.assignTo target equals value) := by
  cases target with
  | var ref => exact .pure (Expr.assign ref value)
  | get object name => exact .pure (Expr.set object name value)
  | _ => exact (follows_complain equals .invalidTarget).after fun _ => .pure _

/-- Expressions need no token: they may be stopped by the budget. -/
theorem follows_expression (n : Nat) : ∀ level : Level,
    Follows i depth 0 (Reader.expression n level) (Lox.Tree.expression n level) := by
  induction n with
  | zero =>
    intro level
    exact .throw .tooDeep
  | succ n ih =>
    intro level
    cases level with
    | assignment =>
      -- The left side is read as an expression first, and judged as a target on meeting the sign.
      refine .after (ih .disjunction) fun e => ?_
      refine follows_accept rfl (fun equals => ?_) (.pure e) (Nat.zero_le (0 + 1))
      exact (ih .assignment).after fun value => follows_assignTo e equals value
    | disjunction => exact follows_chain rfl .logical (ih .conjunction)
    | conjunction => exact follows_chain rfl .logical (ih .equality)
    | equality => exact follows_chain rfl .binary (ih .comparison)
    | comparison => exact follows_chain rfl .binary (ih .term)
    | term => exact follows_chain rfl .binary (ih .factor)
    | factor => exact follows_chain rfl .binary (ih .unary)
    | unary =>
      exact follows_accept rfl (fun op => (ih .unary).map (Expr.unary op)) (ih .call)
        (Nat.zero_le _)
    | call => exact follows_suffixes (follows_finishCall (ih .assignment)) (ih .primary)
    | primary => exact follows_primary (ih .assignment)

/-! #### Statements -/

section Statements

variable {value : Reader Expr} {value' : Parser Expr}

theorem follows_expressionStatement (hv : Follows i depth 0 value value') :
    Follows i depth 1 (Reader.expressionStatement value)
      (Lox.Tree.expressionStatement value') :=
  hv.after fun _ => (follows_consume (by decide) _).before fun _ => .pure _

theorem follows_printStatement (hv : Follows i depth 0 value value') :
    Follows i depth 0 (Reader.printStatement value) (Lox.Tree.printStatement value') :=
  hv.after fun _ => (follows_consume (by decide) _).after fun _ => .pure _

theorem follows_varDeclaration (hv : Follows i depth 0 value value') :
    Follows i depth 0 (Reader.varDeclaration value) (Lox.Tree.varDeclaration value') := by
  refine .after (follows_consume (by decide) _) fun name => ?_
  refine follows_skips_after (by decide) (hv.map some) (.pure none) fun init => ?_
  exact .after (follows_consume (by decide) _) fun _ => .pure _

theorem follows_whileStatement (hv : Follows i depth 0 value value') {body : Reader Stmt}
    {body' : Parser Stmt} (hb : Follows i (depth + 1) 0 body body') :
    Follows i depth 0 (Reader.whileStatement value body)
      (Lox.Tree.whileStatement value' body') := by
  refine .after (follows_consume (by decide) _) fun _ => .after hv fun condition => ?_
  exact .after (follows_consume (by decide) _) fun _ => (follows_inLoop hb).map _

theorem follows_ifStatement (hv : Follows i depth 0 value value') {branch : Reader Stmt}
    {branch' : Parser Stmt} (hb : Follows i depth 0 branch branch') :
    Follows i depth 0 (Reader.ifStatement value branch)
      (Lox.Tree.ifStatement value' branch') := by
  refine .after (follows_consume (by decide) _) fun _ => .after hv fun condition => ?_
  refine .after (follows_consume (by decide) _) fun _ => .after hb fun thenBranch => ?_
  exact follows_skips_after (by decide) (hb.map some) (.pure none) fun elseBranch => .pure _

theorem follows_forInit (hv : Follows i depth 0 value value') :
    Follows i depth 0 (Reader.forInit value) (Lox.Tree.forInit value') :=
  follows_skips (by decide) (.pure none)
    (follows_skips (by decide) ((follows_varDeclaration hv).map some)
      (((follows_expressionStatement hv).mono (Nat.zero_le _)).map some) (Nat.zero_le _))
    (Nat.zero_le _)

theorem follows_forStatement (hv : Follows i depth 0 value value') {body : Reader Stmt}
    {body' : Parser Stmt} (hb : Follows i (depth + 1) 0 body body') :
    Follows i depth 0 (Reader.forStatement value body)
      (Lox.Tree.forStatement value' body') := by
  refine .after (follows_consume (by decide) _) fun _ => .after (follows_forInit hv) fun init => ?_
  refine follows_sees_after .semicolon (.pure none) (hv.map some) fun condition => ?_
  refine .after (follows_consume (by decide) _) fun _ => ?_
  refine follows_sees_after .rightParen (.pure none) (hv.map some) fun increment => ?_
  exact .after (follows_consume (by decide) _) fun _ => (follows_inLoop hb).map _

theorem atEnd_eq {tape : Tape} (ht : tape.On i depth) :
    (tape.cursor i).atEnd = decide (tape.position = i.stop) := by
  rw [Bool.eq_iff_iff, decide_eq_true_iff, Cursor.atEnd, List.isEmpty_iff]
  refine ⟨fun h => ?_, ahead_nil⟩
  have hlength : (tape.cursor i).ahead.length = i.stop - tape.position := Tape.ahead_length
  -- Nothing is ahead of a cursor whose position has come to the stop.
  rw [h, List.length_nil] at hlength
  have hle := ht.position
  omega

theorem inBody_condition :
    Condition i depth Reader.inBody fun c => !c.sees .rightBrace && !c.atEnd where
  same {tape} ht := by
    unfold Reader.inBody
    rw [bind_ok (sees_run ht _), atEnd_eq ht]
    cases (tape.cursor i).sees .rightBrace with
    | true => rfl
    | false =>
      rw [if_neg Bool.false_ne_true, bind_ok (isAtEnd_run ht)]
      rfl
  atEnd {tape} ht hp := by
    rw [Cursor.atEnd, ahead_nil hp]
    exact Bool.and_false _

theorem follows_block {declaration : Reader (Option Stmt)} {declaration' : Parser (Option Stmt)}
    (hd : Follows i depth 1 declaration declaration') :
    Follows i depth 0 (Reader.block declaration) (Lox.Tree.block declaration') :=
  (follows_whileMore inBody_condition hd).after fun _ =>
    (follows_consume (by decide) _).after fun _ => .pure _

theorem follows_function (kind : String) {body : Reader (List Stmt)} {body' : Parser (List Stmt)}
    (hb : Follows i 0 0 body body') :
    Follows i depth 1 (Reader.function kind body) (Lox.Tree.function kind body') := by
  refine .before (follows_consume (by decide) _) fun name => ?_
  refine .after (follows_consume (by decide) _) fun _ => ?_
  refine .after (follows_commaList "parameters"
    ((follows_consume (by decide) _).mono (Nat.zero_le _))) fun params => ?_
  refine .after (follows_consume (by decide) _) fun _ => ?_
  exact .after (follows_consume (by decide) _) fun _ => (follows_inFunction hb).map _

theorem follows_superclass : Follows i depth 0 Reader.superclass Lox.Tree.superclass :=
  follows_skips (by decide) (follows_consume_previous (by decide) _ fun _ => .pure _)
    (.pure none) (Nat.zero_le _)

theorem follows_classDeclaration {body : Reader (List Stmt)} {body' : Parser (List Stmt)}
    (hb : Follows i 0 0 body body') :
    Follows i depth 0 (Reader.classDeclaration body) (Lox.Tree.classDeclaration body') := by
  refine .after (follows_consume (by decide) _) fun name => ?_
  refine .after follows_superclass fun parent => ?_
  refine .after (follows_consume (by decide) _) fun _ => ?_
  refine .after (follows_whileMore inBody_condition ((follows_function "method" hb).map some))
    fun methods => ?_
  exact .after (follows_consume (by decide) _) fun _ => .pure _

end Statements

/-- A `break` is complained about if no loop is around it. -/
theorem follows_break (keyword : Token) :
    Follows i depth 0
      (do
        if (← get).loopDepth = 0 then complain keyword .breakOutsideLoop
        let _ ← consume .semicolon "Expect ';' after 'break'."
        pure (Stmt.breakLoop keyword) : Reader Stmt)
      (Lox.Tree.breakStatement keyword (decide (depth ≠ 0))) := by
  have hend : Follows i depth 0
      (do
        let _ ← consume .semicolon "Expect ';' after 'break'."
        pure (Stmt.breakLoop keyword) : Reader Stmt)
      (do
        let _ ← Parser.expect .semicolon "Expect ';' after 'break'."
        pure (Stmt.breakLoop keyword)) :=
    .after (follows_consume (by decide) _) fun _ => .pure _
  refine ⟨fun {tape} ht => ?_⟩
  unfold Lox.Tree.breakStatement
  rw [bind_ok (get_run tape), ht.loopDepth]
  by_cases hdepth : depth = 0
  · subst hdepth
    exact ((follows_complain keyword .breakOutsideLoop).after fun _ => hend).run ht
  · -- The depth is an integer on the tape and a flag beside the parser.
    have hcast : ¬(depth : Int) = 0 := Int.natCast_ne_zero.mpr hdepth
    rw [if_neg hcast, decide_eq_true hdepth]
    exact ((Follows.pure ()).after fun _ => hend).run ht

theorem follows_return {value : Reader Expr} {value' : Parser Expr}
    (hv : Follows i depth 0 value value') (keyword : Token) :
    Follows i depth 0
      (do
        let e ← if ← sees .semicolon then pure none else some <$> value
        let _ ← consume .semicolon "Expect ';' after return value."
        pure (Stmt.returnWith keyword e) : Reader Stmt)
      (Lox.Tree.returnStatement keyword value') :=
  follows_sees_after .semicolon (.pure none) (hv.map some) fun _ =>
    .after (follows_consume (by decide) _) fun _ => .pure _

/-- One more frame: a statement is chosen by its first token. -/
theorem follows_statement_succ {n : Nat}
    (hs : ∀ depth, Follows i depth 0 (Reader.statement n)
      (Lox.Tree.statement n (decide (depth ≠ 0))))
    (hd : Follows i depth 1 (Reader.declaration n)
      (Lox.Tree.declaration n (decide (depth ≠ 0)))) :
    Follows i depth 1 (Reader.statement (n + 1))
      (Lox.Tree.statement (n + 1) (decide (depth ≠ 0))) := by
  have hv : Follows i depth 0 (Reader.expression n .assignment)
      (Lox.Tree.expression n .assignment) := follows_expression n .assignment
  -- The body of a loop is read one loop deeper.
  have hbody : Follows i (depth + 1) 0 (Reader.statement n) (Lox.Tree.statement n true) := by
    have h := hs (depth + 1)
    rwa [decide_eq_true (Nat.succ_ne_zero depth)] at h
  refine ⟨fun {tape} ht => ?_⟩
  rw [Reader.statement, Lox.Tree.statement, bind_ok peek_run]
  by_cases hprint : (i.token tape.position).kind = .printKeyword
  · rw [hprint]
    exact alike_taken ht rfl (by simpa using hprint) (follows_printStatement hv).run
      (Nat.le_refl _)
  rw [passed_over ht (by simpa using hprint)]
  by_cases hreturn : (i.token tape.position).kind = .returnKeyword
  · rw [hreturn]
    exact alike_taken ht rfl (by simpa using hreturn) (alike_behind ht (follows_return hv _))
      (Nat.le_refl _)
  rw [passed_over ht (by simpa using hreturn)]
  by_cases hwhile : (i.token tape.position).kind = .whileKeyword
  · rw [hwhile]
    exact alike_taken ht rfl (by simpa using hwhile) (follows_whileStatement hv hbody).run
      (Nat.le_refl _)
  rw [passed_over ht (by simpa using hwhile)]
  by_cases hfor : (i.token tape.position).kind = .forKeyword
  · rw [hfor]
    exact alike_taken ht rfl (by simpa using hfor) (follows_forStatement hv hbody).run
      (Nat.le_refl _)
  rw [passed_over ht (by simpa using hfor)]
  by_cases hif : (i.token tape.position).kind = .ifKeyword
  · rw [hif]
    exact alike_taken ht rfl (by simpa using hif) (follows_ifStatement hv (hs depth)).run
      (Nat.le_refl _)
  rw [passed_over ht (by simpa using hif)]
  by_cases hbreak : (i.token tape.position).kind = .breakKeyword
  · rw [hbreak]
    exact alike_taken ht rfl (by simpa using hbreak) (alike_behind ht (follows_break _))
      (Nat.le_refl _)
  rw [passed_over ht (by simpa using hbreak)]
  by_cases hbrace : (i.token tape.position).kind = .leftBrace
  · rw [hbrace]
    exact alike_taken ht rfl (by simpa using hbrace) ((follows_block hd).map _).run
      (Nat.le_refl _)
  rw [passed_over ht (by simpa using hbrace)]
  generalize (i.token tape.position).kind = k at hprint hreturn hwhile hfor hif hbreak hbrace ⊢
  cases k with
  | printKeyword | returnKeyword | whileKeyword | forKeyword | ifKeyword | breakKeyword
  | leftBrace => contradiction
  | _ => exact (follows_expressionStatement hv).run ht

/-- A declaration is chosen by its first token. -/
theorem follows_declared {n : Nat}
    (hs : Follows i depth 1 (Reader.statement n) (Lox.Tree.statement n (decide (depth ≠ 0))))
    (hd : Follows i 0 1 (Reader.declaration n) (Lox.Tree.declaration n false)) :
    Follows i depth 1
      (declared (Reader.expression n .assignment) (Reader.declaration n) (Reader.statement n))
      (do
        if ← Parser.skips .classKeyword then
          Lox.Tree.classDeclaration (Lox.Tree.block (Lox.Tree.declaration n false))
        else if ← Parser.skips .funKeyword then
          .funDecl <$> Lox.Tree.function "function"
            (Lox.Tree.block (Lox.Tree.declaration n false))
        else if ← Parser.skips .varKeyword then
          Lox.Tree.varDeclaration (Lox.Tree.expression n .assignment)
        else Lox.Tree.statement n (decide (depth ≠ 0))) := by
  have hbody := follows_block hd
  refine follows_skips (by decide) (follows_classDeclaration hbody) ?_ (Nat.le_refl _)
  refine follows_skips (by decide)
    (((follows_function "function" hbody).mono (Nat.zero_le _)).map _) ?_ (Nat.le_refl _)
  exact follows_skips (by decide) (follows_varDeclaration (follows_expression n .assignment)) hs
    (Nat.le_refl _)

theorem follows_sentences (n : Nat) : ∀ depth,
    Follows i depth 1 (Reader.statement n) (Lox.Tree.statement n (decide (depth ≠ 0))) ∧
    Follows i depth 1 (Reader.declaration n) (Lox.Tree.declaration n (decide (depth ≠ 0))) := by
  -- Statements and declarations take turns, one frame after another.
  induction n with
  | zero =>
    intro depth
    exact ⟨.throw .tooDeep, .throw .tooDeep⟩
  | succ n ih =>
    intro depth
    exact ⟨follows_statement_succ (fun depth => (ih depth).1.mono (Nat.zero_le _)) (ih depth).2,
      follows_recovering (follows_declared (ih depth).1 (ih 0).2)⟩

theorem inProgram_condition :
    Condition i depth Reader.inProgram fun c => !c.atEnd && !c.report.isFull where
  same {tape} ht := by
    unfold Reader.inProgram
    rw [bind_ok (isAtEnd_run ht), atEnd_eq ht]
    cases decide (tape.position = i.stop) with
    | true => rfl
    | false =>
      rw [if_neg Bool.false_ne_true, bind_ok (get_run tape)]
      rfl
  atEnd {tape} ht hp := by
    rw [Cursor.atEnd, ahead_nil hp]
    rfl

theorem follows_program (n : Nat) :
    Follows i 0 0 (Reader.program n) (Lox.Tree.program n) :=
  follows_whileMore inProgram_condition (follows_sentences n 0).2

end Grammar

/-! ### Nothing stops a program -/

section Programs

open Reader

variable {α : Type} {i : Input} {depth : Nat}

/-- A run beside one that gives a result gives the same. -/
theorem Alike.of_ok {start least : Nat} {r : EStateM.Result Tape.Stop Tape α} {a : α} {c : Cursor}
    (h : Alike i depth start least r (.ok a c)) : ∃ tape : Tape, r = .ok a tape ∧
      c = tape.cursor i ∧ tape.On i depth ∧ least ≤ tape.position := by
  cases h with
  | ok ht _ hp => exact ⟨_, rfl, rfl, ht, hp⟩

/-- A parser stops where the reader stops that follows it. -/
theorem Follows.halts {least : Nat} {p : Reader α} {q : Parser α} (h : Follows i depth least p q)
    {tape tape' : Tape} (ht : tape.On i depth) {why : Halt}
    (hp : p tape = .error (.halt why) tape') : q (tape.cursor i) = .error why (tape'.cursor i) := by
  have halike := h.run ht
  rw [hp] at halike
  generalize q (tape.cursor i) = r at halike
  cases halike
  rfl

/-- Reading recovers from the limit of frames, and reports it. -/
theorem follows_recovering_tooDeep {p : Reader α} {q : Parser α} (h : Follows i depth 1 p q)
    {tape tape' deepest : Tape} (ht : tape.On i depth) {a? : Option α}
    (hrun : recovering p tape = .ok a? tape') (hp : p tape = .error (.halt .tooDeep) deepest) :
    a? = none ∧ tape'.report = deepest.report.add
      (Complaint.tooDeep.diagnose (i.token deepest.position) deepest.listing) := by
  obtain ⟨c, hc, hreport⟩ := recovering_error (h.halts ht hp)
  have halike := (follows_recovering h).run ht
  rw [hc] at halike
  obtain ⟨tape'', hrun', rfl, -, -⟩ := halike.of_ok
  rw [hrun'] at hrun
  cases hrun
  exact ⟨rfl, hreport⟩

/-- A declaration passes a token, and leaves the loops around it as they were. -/
theorem declaration_passes (n : Nat) {tape : Tape} (ht : tape.On i depth)
    (hp : tape.position < i.stop) :
    ∃ stmt? tape', Reader.declaration (n + 1) tape = .ok stmt? tape' ∧
      Lox.Tree.declaration (n + 1) (decide (depth ≠ 0)) (tape.cursor i) =
        .ok stmt? (tape'.cursor i) ∧
      tape.position < tape'.position ∧ tape'.On i depth := by
  have halike := (follows_sentences (n + 1) depth).2.run ht
  obtain ⟨stmt?, c, hc⟩ : ∃ stmt? c, Lox.Tree.declaration (n + 1) (decide (depth ≠ 0))
      (tape.cursor i) = .ok stmt? c := recovering_ok _ _
  rw [hc] at halike
  obtain ⟨tape', hrun, rfl, hon, hle⟩ := halike.of_ok
  exact ⟨stmt?, tape', hrun, hc, by omega, hon⟩

/-- Whatever the tokens are, as long as they end with an end of the input, and
whatever the limits of frames and of problems are: reading comes to an end, and
no slip is made on the way, as a slip would stop it for good.  The position was
never behind the first end of the input, and there are no loops around it when
all is read.  Every declaration that begins before the end passes a token; if it
comes to the limit of frames, that is reported as `E106`, and reading goes on. -/
theorem program_total (limit : Nat) (before : List Token) {last : Token}
    (hlast : last.isEnd = true) (listing : Listing) (report : Report) :
    let i := Input.ending before hlast
    (∃ statements tape,
      Reader.program (limit + 1) { tokens := before ++ [last], listing, report } =
          .ok statements tape ∧
        parse (limit + 1) (before ++ [last]) listing report = (statements, tape.report) ∧
        tape.On i 0) ∧
      ∀ (n depth : Nat) (tape : Tape), tape.On i depth → tape.position < i.stop →
        ∃ stmt? tape', Reader.declaration (n + 1) tape = .ok stmt? tape' ∧
          Lox.Tree.declaration (n + 1) (decide (depth ≠ 0)) (tape.cursor i) =
            .ok stmt? (tape'.cursor i) ∧
          tape.position < tape'.position ∧ tape'.On i depth ∧
          ∀ deepest, declared (Reader.expression n .assignment) (Reader.declaration n)
              (Reader.statement n) tape = .error (.halt .tooDeep) deepest →
            let d := Complaint.tooDeep.diagnose (i.token deepest.position) deepest.listing
            d.code = "E106" ∧ stmt? = none ∧ tape'.report = deepest.report.add d := by
  intro i
  refine ⟨?_, fun n depth tape ht hp => ?_⟩
  · -- The tape begins before the first token, outside of all loops.
    have hstart : Tape.On i 0 { tokens := before ++ [last], listing, report } :=
      ⟨rfl, Nat.zero_le _, Nat.zero_le _, rfl⟩
    have halike := (follows_program (limit + 1)).run hstart
    obtain ⟨statements, c, hc⟩ := program_ok (Nat.succ_pos limit)
      (Cursor.ofTokens (before ++ [last]) listing report)
    rw [show Tape.cursor i _ = Cursor.ofTokens (before ++ [last]) listing report from rfl,
      hc] at halike
    obtain ⟨tape, hrun, rfl, hon, -⟩ := halike.of_ok
    refine ⟨statements, tape, hrun, ?_, hon⟩
    rw [parse, hc]
    rfl
  -- Recovering passes a token if the declaration itself did not.
  · obtain ⟨stmt?, tape', hrun, hc, hlt, hon⟩ := declaration_passes n ht hp
    refine ⟨stmt?, tape', hrun, hc, hlt, hon, fun deepest hdeep => ?_⟩
    obtain ⟨hs, hd⟩ := follows_sentences (i := i) n depth
    exact ⟨rfl, follows_recovering_tooDeep
      (follows_declared hs (follows_sentences n 0).2) ht hrun hdeep⟩

/-- A block that is not closed and has mistakes in it, an early end of the input,
and a brace behind it. -/
def unclosed : List Token :=
  [{ kind := .leftBrace }, { kind := .plus }, { kind := .breakKeyword }, { kind := .leftParen },
    { kind := .endOfInput }, { kind := .rightBrace }]

theorem program_total_unclosed :
    ({ kind := .endOfInput } : Token).isEnd = true ∧ ∃ statements tape,
      Reader.program 9 ⟨unclosed ++ [{ kind := .endOfInput }], 0, 0, 0, default, {}⟩ =
        .ok statements tape ∧ tape.furthest ≤ 4 ∧ tape.loopDepth = 0 := by
  obtain ⟨statements, tape, hrun, -, hon⟩ :=
    (@program_total 8 unclosed { kind := .endOfInput } rfl default {}).1
  exact ⟨rfl, statements, tape, hrun, hon.furthest, hon.loopDepth⟩

end Programs

end Lox.Tree
