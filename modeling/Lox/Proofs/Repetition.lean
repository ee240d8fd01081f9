/-
Reading repeatedly comes to an end.

A loop of a reader has a budget of turns, and using it up is a slip.  Every turn
but the last passes a token, so none of the budgets is ever used up: neither
that of the reader nor the number of tokens ahead, which is the parser's.
Recovery passes a token too, unless there is none before the end of the input.

* `Condition` — what a loop goes on for; it fails at the end of the input;
* `follows_whileMore`, `follows_chain`, `follows_commaList`, `follows_suffixes` —
  loops;
* `follows_synchronize`, `follows_recovering` — recovery;
* `follows_inLoop`, `follows_inFunction` — the loops around the position are
  those of before, however a body ends.
-/
import Lox.Proofs.Following

namespace Lox.Tree

/-! ### Loops

The budget of a loop is more than the number of tokens ahead.  Every turn but the
last passes a token, so it stays so. -/

section Loops

open Reader

variable {α : Type} {i : Input} {depth : Nat}

theorem turns_run {tape : Tape} (h : tape.On i depth) :
    turns tape = .ok (i.tokens.length + 1) tape := by
  unfold turns
  rw [bind_ok (get_run tape), h.tokens]
  rfl

theorem left_lt_turns (tape : Tape) : i.stop - tape.position < i.tokens.length + 1 := by
  have hlt := i.stop_lt_length
  omega

/-- What the condition of a loop is on both sides.  It fails at the end of the
input. -/
structure Condition (i : Input) (depth : Nat) (more : Reader Bool) (more' : Cursor → Bool) :
    Prop where
  same : ∀ {tape : Tape}, tape.On i depth → more tape = .ok (more' (tape.cursor i)) tape
  atEnd : ∀ {tape : Tape}, tape.On i depth → tape.position = i.stop → more' (tape.cursor i) = false

theorem whileFrom_alike {more : Reader Bool} {more' : Cursor → Bool} {step : Reader (Option α)}
    {step' : Parser (Option α)} (hmore : Condition i depth more more')
    (hstep : Follows i depth 1 step step') : ∀ (budget fuel : Nat) (found : Array α) {tape : Tape},
    tape.On i depth → i.stop - tape.position < budget → i.stop - tape.position ≤ fuel →
      Alike i depth tape.position tape.position (whileFrom more step budget found tape)
        (Parser.manyFrom more' step' fuel found (tape.cursor i)) := by
  intro budget
  induction budget with
  | zero => exact fun _ _ _ _ hb => absurd hb (Nat.not_lt_zero _)
  | succ budget ih =>
    intro fuel found tape ht hb hf
    unfold whileFrom
    rw [bind_ok (hmore.same ht)]
    cases hcondition : more' (tape.cursor i) with
    | false =>
      have hstopped : Parser.manyFrom more' step' fuel found (tape.cursor i) =
          .ok found.toList (tape.cursor i) := by
        cases fuel with
        | zero => rfl
        | succ fuel =>
          unfold Parser.manyFrom
          rw [bind_ok (get_run _), hcondition, if_neg Bool.false_ne_true]
          rfl
      rw [hstopped, if_neg Bool.false_ne_true]
      exact .ok ht (Nat.le_refl _) (Nat.le_refl _)
    | true =>
      have hlt : tape.position < i.stop := by
        refine Nat.lt_of_le_of_ne ht.position fun hstop => ?_
        rw [hmore.atEnd ht hstop] at hcondition
        cases hcondition
      obtain ⟨fuel, rfl⟩ : ∃ k, fuel = k + 1 := Nat.exists_eq_succ_of_ne_zero (by omega)
      unfold Parser.manyFrom
      rw [bind_ok (get_run _), hcondition, if_pos rfl, if_pos rfl]
      -- The step passes a token, so what is left is still within both budgets.
      refine (hstep.run ht).bind fun a tape' ht' hs hm => ?_
      exact (ih fuel _ ht' (by omega) (by omega)).mono hs hs

/-- Steps that pass a token are repeated to an end. -/
theorem follows_whileMore {more : Reader Bool} {more' : Cursor → Bool}
    {step : Reader (Option α)} {step' : Parser (Option α)} (hmore : Condition i depth more more')
    (hstep : Follows i depth 1 step step') :
    Follows i depth 0 (whileMore more step) (Parser.many more' step') := by
  refine ⟨fun {tape} ht => ?_⟩
  unfold whileMore Parser.many
  rw [bind_ok (turns_run ht), bind_ok (get_run _)]
  exact (whileFrom_alike hmore hstep _ _ #[] ht (left_lt_turns tape)
    (Nat.le_of_eq Tape.ahead_length.symm)).mono (Nat.le_refl _) (Nat.min_le_left _ _)

/-- Without an operator ahead the loop ends at once, on whatever budget. -/
theorem chainLeftFrom_run {isOperator : Token.Kind → Bool} {join : Expr → Token → Expr → Expr}
    {operand : Parser Expr} {fuel : Nat} {left : Expr} {tape : Tape}
    (hkind : isOperator (i.token tape.position).kind = false) :
    Parser.chainLeftFrom isOperator join operand fuel left (tape.cursor i) =
      .ok left (tape.cursor i) := by
  cases fuel with
  | zero => rfl
  | succ fuel =>
    unfold Parser.chainLeftFrom
    rw [bind_ok (parserAccept_run_not hkind)]
    rfl

theorem chainFrom_alike {isOperator : Token.Kind → Bool} (hw : isOperator .endOfInput = false)
    (join : Expr → Token → Expr → Expr) {operand : Reader Expr} {operand' : Parser Expr}
    (ho : Follows i depth 0 operand operand') : ∀ (budget fuel : Nat) (left : Expr) {tape : Tape},
    tape.On i depth → i.stop - tape.position < budget → i.stop - tape.position ≤ fuel →
      Alike i depth tape.position tape.position (chainFrom isOperator join operand budget left tape)
        (Parser.chainLeftFrom isOperator join operand' fuel left (tape.cursor i)) := by
  intro budget
  induction budget with
  | zero => exact fun _ _ _ _ hb => absurd hb (Nat.not_lt_zero _)
  | succ budget ih =>
    intro fuel left tape ht hb hf
    have hnext : tape.next.position = tape.position + 1 := rfl
    unfold chainFrom
    cases hkind : isOperator (i.token tape.position).kind with
    | true =>
      -- Both are more than the tokens left, and an operator takes one of these.
      have hlt := lt_stop_of_wanted ht isOperator hw hkind
      obtain ⟨fuel, rfl⟩ : ∃ k, fuel = k + 1 := Nat.exists_eq_succ_of_ne_zero (by omega)
      unfold Parser.chainLeftFrom
      rw [bind_ok (accept_run ht isOperator hw hkind), bind_ok (parserAccept_run hkind),
        if_pos rfl, bind_ok (previous_run ht)]
      refine ((ho.run (ht.next hlt)).bind fun right tape' ht' hs _ => ?_).mono
        (Nat.le_succ _) (Nat.le_succ _)
      exact (ih fuel _ ht' (by omega) (by omega)).mono hs hs
    | false =>
      rw [bind_ok (accept_run_not ht isOperator hkind), if_neg Bool.false_ne_true,
        chainLeftFrom_run hkind]
      exact .ok ht (Nat.le_refl _) (Nat.le_refl _)

/-- Operators and operands are read to an end. -/
theorem follows_chain {isOperator : Token.Kind → Bool} (hw : isOperator .endOfInput = false)
    (join : Expr → Token → Expr → Expr) {operand : Reader Expr} {operand' : Parser Expr}
    (ho : Follows i depth 0 operand operand') :
    Follows i depth 0 (chain isOperator join operand)
      (Parser.chainLeft isOperator join operand') := by
  refine .after ho fun left => ⟨fun {tape} ht => ?_⟩
  rw [bind_ok (turns_run ht), bind_ok peek_run]
  have hloop := (chainFrom_alike hw join ho _ _ left ht (left_lt_turns tape)
    (Nat.le_of_eq Tape.ahead_length.symm)).mono (Nat.le_refl _)
      (Nat.min_le_left (tape.position + 0) i.stop)
  cases hkind : isOperator (i.token tape.position).kind with
  | true =>
    rw [if_pos rfl, bind_ok (get_run _)]
    exact hloop
  | false =>
    rw [chainLeftFrom_run hkind] at hloop
    rw [if_neg Bool.false_ne_true]
    exact hloop

/-- Each item but the last is followed by a comma. -/
theorem commaListFrom_alike (what : String) {item : Reader α} {item' : Parser α}
    (hi : Follows i depth 0 item item') : ∀ (budget fuel : Nat) (found : Array α) {tape : Tape},
    tape.On i depth → i.stop - tape.position < budget → i.stop - tape.position < fuel →
      Alike i depth tape.position tape.position (commaListFrom what item budget found tape)
        (Parser.commaListFrom what item' fuel found (tape.cursor i)) := by
  intro budget
  induction budget with
  | zero => exact fun _ _ _ _ hb => absurd hb (Nat.not_lt_zero _)
  | succ budget ih =>
    intro fuel found tape ht hb hf
    obtain ⟨fuel, rfl⟩ : ∃ k, fuel = k + 1 := Nat.exists_eq_succ_of_ne_zero (by omega)
    -- An item, and what follows if there is a comma behind it.
    have hrest : ∀ {tape : Tape}, tape.On i depth → i.stop - tape.position < budget + 1 →
        i.stop - tape.position < fuel + 1 → Alike i depth tape.position tape.position
          ((item >>= fun a => accept (· == Token.Kind.comma) >>= fun more =>
            if more then commaListFrom what item budget (found.push a)
            else pure (found.push a).toList) tape)
          ((item' >>= fun a => Parser.skips Token.Kind.comma >>= fun more =>
            if more then Parser.commaListFrom what item' fuel (found.push a)
            else pure (found.push a).toList) (tape.cursor i)) := by
      intro tape ht hb hf
      refine (hi.run ht).bind fun a tape' ht' hs _ => ?_
      have hnext : tape'.next.position = tape'.position + 1 := rfl
      cases hkind : (i.token tape'.position).kind == Token.Kind.comma with
      | true =>
        have hend : (Token.Kind.endOfInput == Token.Kind.comma) = false := rfl
        have hlt := lt_stop_of_wanted ht' (· == Token.Kind.comma) hend hkind
        rw [bind_ok (accept_run ht' (· == Token.Kind.comma) hend hkind),
          bind_ok (parserSkips_run hkind), if_pos rfl, if_pos rfl]
        exact (ih fuel _ (ht'.next hlt) (by omega) (by omega)).mono (by omega) (by omega)
      | false =>
        rw [bind_ok (accept_run_not ht' (· == Token.Kind.comma) hkind),
          bind_ok (parserSkips_run_not hkind), if_neg Bool.false_ne_true,
          if_neg Bool.false_ne_true]
        exact .ok ht' hs hs
    unfold commaListFrom Parser.commaListFrom
    by_cases hfull : maxArguments ≤ found.size
    · rw [if_pos hfull, if_pos hfull]
      refine (follows_current.run ht).bind fun t tape₁ ht₁ hs₁ _ => ?_
      refine Alike.mono (Alike.bind ((follows_complain t (.tooMany what)).run ht₁)
        fun _ tape₂ ht₂ hs₂ _ => ?_) hs₁ hs₁
      exact (hrest ht₂ (by omega) (by omega)).mono hs₂ hs₂
    · rw [if_neg hfull, if_neg hfull]
      exact hrest ht hb hf

theorem follows_commaList (what : String) {item : Reader α} {item' : Parser α}
    (hi : Follows i depth 0 item item') :
    Follows i depth 0 (commaList what item) (Parser.commaList what item') := by
  refine follows_sees .rightParen (.pure []) ⟨fun {tape} ht => ?_⟩
  rw [bind_ok (turns_run ht), bind_ok (get_run _)]
  exact (commaListFrom_alike what hi _ _ #[] ht (left_lt_turns tape)
    (by rw [Tape.ahead_length]; omega)).mono (Nat.le_refl _) (Nat.min_le_left _ _)

/-- Without a suffix ahead the loop ends at once, on whatever budget. -/
theorem suffixesFrom_run {inner : Parser Expr} {fuel : Nat} {e : Expr} {tape : Tape}
    (hkind : isSuffix (i.token tape.position).kind = false) :
    Lox.Tree.suffixesFrom inner fuel e (tape.cursor i) = .ok e (tape.cursor i) := by
  cases fuel with
  | zero => rfl
  | succ fuel =>
    obtain ⟨hparen, hdot⟩ := Bool.or_eq_false_iff.mp hkind
    unfold Lox.Tree.suffixesFrom
    rw [bind_ok (parserSkips_run_not hparen), if_neg Bool.false_ne_true,
      bind_ok (parserSkips_run_not hdot), if_neg Bool.false_ne_true]
    rfl

/-- Every suffix begins with a parenthesis or a dot. -/
theorem suffixesFrom_alike {inner : Reader Expr} {inner' : Parser Expr}
    (hcall : ∀ e, Follows i depth 0 (Reader.finishCall inner e) (Lox.Tree.finishCall inner' e)) :
    ∀ (budget fuel : Nat) (e : Expr) {tape : Tape}, tape.On i depth →
      i.stop - tape.position < budget → i.stop - tape.position ≤ fuel →
        Alike i depth tape.position tape.position (Reader.suffixesFrom inner budget e tape)
          (Lox.Tree.suffixesFrom inner' fuel e (tape.cursor i)) := by
  intro budget
  induction budget with
  | zero => exact fun _ _ _ _ hb => absurd hb (Nat.not_lt_zero _)
  | succ budget ih =>
    intro fuel e tape ht hb hf
    have hnext : tape.next.position = tape.position + 1 := rfl
    -- What is read behind the first token of a suffix, and then the further suffixes.
    have hrest : ∀ {β : Type} {p : Reader β} {q : Parser β} (f : β → Expr) {fuel : Nat},
        Follows i depth 0 p q → i.stop - tape.next.position ≤ fuel → tape.position < i.stop →
        Alike i depth tape.position tape.position
          ((p >>= fun a => Reader.suffixesFrom inner budget (f a)) tape.next)
          ((q >>= fun a => Lox.Tree.suffixesFrom inner' fuel (f a)) (tape.next.cursor i)) := by
      intro β p q f fuel hp hf hlt
      refine ((hp.run (ht.next hlt)).bind fun a tape' ht' hs _ => ?_).mono
        (Nat.le_succ _) (Nat.le_succ _)
      exact (ih fuel (f a) ht' (by omega) (by omega)).mono hs hs
    cases hkind : isSuffix (i.token tape.position).kind with
    | false =>
      obtain ⟨hparen, hdot⟩ := Bool.or_eq_false_iff.mp hkind
      rw [suffixesFrom_run hkind]
      unfold Reader.suffixesFrom
      rw [bind_ok (accept_run_not ht (· == Token.Kind.leftParen) hparen),
        if_neg Bool.false_ne_true,
        bind_ok (accept_run_not ht (· == Token.Kind.dot) hdot), if_neg Bool.false_ne_true]
      exact .ok ht (Nat.le_refl _) (Nat.le_refl _)
    | true =>
      have hlt := lt_stop_of_wanted ht isSuffix rfl hkind
      obtain ⟨fuel, rfl⟩ : ∃ k, fuel = k + 1 := Nat.exists_eq_succ_of_ne_zero (by omega)
      unfold Reader.suffixesFrom Lox.Tree.suffixesFrom
      cases hparen : (i.token tape.position).kind == Token.Kind.leftParen with
      | true =>
        rw [bind_ok (accept_run ht (· == Token.Kind.leftParen) rfl hparen),
          bind_ok (parserSkips_run hparen), if_pos rfl, if_pos rfl]
        exact hrest (fun e => e) (hcall e) (by omega) hlt
      | false =>
        have hdot : ((i.token tape.position).kind == Token.Kind.dot) = true :=
          (Bool.or_eq_true_iff.mp hkind).resolve_left (by rw [hparen]; exact Bool.false_ne_true)
        rw [bind_ok (accept_run_not ht (· == Token.Kind.leftParen) hparen),
          bind_ok (parserSkips_run_not hparen), if_neg Bool.false_ne_true,
          if_neg Bool.false_ne_true,
          bind_ok (accept_run ht (· == Token.Kind.dot) rfl hdot),
          bind_ok (parserSkips_run hdot), if_pos rfl, if_pos rfl]
        exact hrest (.get e) ((follows_consume (by decide) _).mono (Nat.zero_le 1))
          (by omega) hlt

/-- Calls and properties are read to an end. -/
theorem follows_suffixes {inner operand : Reader Expr} {inner' operand' : Parser Expr}
    (hcall : ∀ e, Follows i depth 0 (Reader.finishCall inner e) (Lox.Tree.finishCall inner' e))
    (ho : Follows i depth 0 operand operand') :
    Follows i depth 0 (Reader.suffixes inner operand) (Lox.Tree.suffixes inner' operand') := by
  refine .after ho fun e => ⟨fun {tape} ht => ?_⟩
  rw [bind_ok (turns_run ht), bind_ok peek_run]
  have hloop := (suffixesFrom_alike hcall _ _ e ht (left_lt_turns tape)
    (Nat.le_of_eq Tape.ahead_length.symm)).mono (Nat.le_refl _)
      (Nat.min_le_left (tape.position + 0) i.stop)
  cases hkind : isSuffix (i.token tape.position).kind with
  | true =>
    rw [if_pos rfl, bind_ok (get_run _)]
    exact hloop
  | false =>
    rw [suffixesFrom_run hkind] at hloop
    rw [if_neg Bool.false_ne_true]
    exact hloop

end Loops

/-! ### Recovery -/

section Recovery

open Reader

variable {α : Type} {i : Input} {depth least : Nat}

theorem ahead_cons {tape : Tape} (hp : tape.position < i.stop) :
    (tape.cursor i).ahead = i.token tape.position :: (tape.next.cursor i).ahead := by
  change i.front.drop tape.position = _
  rw [List.drop_eq_getElem_cons hp]
  unfold Input.token
  rw [List.drop_eq_getElem_cons hp]
  rfl

theorem ahead_nil {tape : Tape} (hp : tape.position = i.stop) : (tape.cursor i).ahead = [] := by
  change i.front.drop tape.position = []
  rw [hp]
  exact List.drop_length

theorem synchronize_nil {c : Cursor} (h : c.ahead = []) : Parser.synchronize c = .ok () c := by
  cases c
  subst h
  rfl

theorem synchronize_cons {c : Cursor} {t : Token} {rest : List Token} (h : c.ahead = t :: rest) :
    Parser.synchronize c = .ok () { c with ahead := Parser.resumeAfter t rest } := by
  cases c
  subst h
  rfl

/-- Skipping goes on behind a token that was passed, so there is one to look back
at. -/
theorem skipFrom_run (budget : Nat) : ∀ {tape : Tape}, tape.On i depth →
    tape.position < i.stop → i.stop - tape.next.position < budget →
      ∃ tape', skipFrom budget tape.next = .ok () tape' ∧ tape'.On i depth ∧
        tape.next.position ≤ tape'.position ∧
        tape'.cursor i = { tape.next.cursor i with
          ahead := Parser.resumeAfter (i.token tape.position) (tape.next.cursor i).ahead } := by
  -- The budget is more than what is left of the tokens, and both go down by one with each token.
  induction budget with
  | zero => exact fun _ _ hb => absurd hb (Nat.not_lt_zero _)
  | succ budget ih =>
    intro tape ht hp hb
    have ht' := ht.next hp
    unfold skipFrom
    rw [bind_ok (isAtEnd_run ht')]
    by_cases hend : tape.next.position = i.stop
    · rw [decide_eq_true hend, ahead_nil hend, if_pos rfl]
      refine ⟨_, rfl, ht', Nat.le_refl _, ?_⟩
      rw [Parser.resumeAfter, ← ahead_nil hend]
    · have hlt : tape.next.position < i.stop := Nat.lt_of_le_of_ne ht'.position hend
      rw [decide_eq_false hend, ahead_cons hlt, if_neg Bool.false_ne_true,
        bind_ok (previous_run ht), Parser.resumeAfter]
      cases hsemicolon : (i.token tape.position).kind == Token.Kind.semicolon with
      | true =>
        refine ⟨_, rfl, ht', Nat.le_refl _, ?_⟩
        rw [Bool.true_or, if_pos rfl, ← ahead_cons hlt]
      | false =>
        rw [if_neg Bool.false_ne_true, bind_ok (current_run ht'), Bool.false_or]
        cases hstarts : (i.token tape.next.position).kind.startsStatement with
        | true =>
          refine ⟨_, rfl, ht', Nat.le_refl _, ?_⟩
          rw [if_pos rfl, ← ahead_cons hlt]
        | false =>
          rw [if_neg Bool.false_ne_true, bind_ok (advance_run ht' hlt)]
          have hnext : tape.next.next.position = tape.next.position + 1 := rfl
          obtain ⟨tape', hrun, hon, hle, hcursor⟩ := ih ht' hlt (by omega)
          exact ⟨tape', hrun, hon, by omega, hcursor⟩

/-- Recovery passes a token, and ends where a statement may begin. -/
theorem follows_synchronize : Follows i depth 1 synchronize Parser.synchronize := by
  refine ⟨fun {tape} ht => ?_⟩
  unfold synchronize
  rcases Nat.lt_or_eq_of_le ht.position with hp | hp
  · obtain ⟨tape', hrun, hon, hle, hcursor⟩ :=
      skipFrom_run _ ht hp (left_lt_turns (i := i) tape.next)
    have hparser : Parser.synchronize (tape.cursor i) = .ok () (tape'.cursor i) := by
      rw [hcursor, synchronize_cons (ahead_cons hp)]
      rfl
    rw [bind_ok (advance_run ht hp), bind_ok (turns_run (ht.next hp)), hrun, hparser]
    exact .ok hon (Nat.le_of_succ_le hle) (Nat.le_trans (Nat.min_le_left _ _) hle)
  · have hskip : skipFrom (i.tokens.length + 1) tape = .ok () tape := by
      unfold skipFrom
      rw [bind_ok (isAtEnd_run ht), decide_eq_true hp]
      rfl
    rw [bind_ok (advance_run_end ht hp), bind_ok (turns_run ht), hskip,
      synchronize_nil (ahead_nil hp)]
    exact .ok ht (Nat.le_refl _) (by omega)

/-- A computation that recovers passes a token, also when it is given up. -/
theorem follows_recovering {p : Reader α} {q : Parser α} (h : Follows i depth 1 p q) :
    Follows i depth 1 (recovering p) (Parser.recovering q) := by
  refine ⟨fun {tape} ht => ?_⟩
  have halike := h.run ht
  unfold recovering Parser.recovering
  generalize p tape = r at halike
  generalize q (tape.cursor i) = r' at halike
  cases halike with
  | ok ht' hs hp => exact .ok ht' hs hp
  | @error why tape' ht' hs =>
    have hskip : Follows i depth 1 (do synchronize; pure (none : Option α))
        (do Parser.synchronize; pure none) := follows_synchronize.before fun _ => .pure none
    cases why with
    | complaint t c =>
      exact ((Follows.after (follows_complain t c) fun _ => hskip).run ht').mono hs (by omega)
    | tooDeep =>
      exact ((Follows.after follows_current fun t =>
        (follows_complain t .tooDeep).after fun _ => hskip).run ht').mono hs (by omega)

end Recovery

/-! ### Loops and functions around the position -/

section Depth

open Reader

variable {α : Type} {i : Input} {depth inner start least : Nat}

theorem Alike.leaving {f : Int → Int} (hf : f inner = depth) {p : Reader α} {tape : Tape}
    {r : EStateM.Result Halt Cursor α} (h : Alike i inner start least (p tape) r) :
    Alike i depth start least
      (leaving p (fun tape => { tape with loopDepth := f tape.loopDepth }) tape) r := by
  have hon : ∀ {tape : Tape}, tape.On i inner →
      Tape.On i depth { tape with loopDepth := f tape.loopDepth } := fun ht =>
    ⟨ht.tokens, ht.position, ht.furthest, by rw [ht.loopDepth, hf]⟩
  unfold Reader.leaving
  generalize p tape = r' at h
  cases h with
  | ok ht hs hp => exact .ok (hon ht) hs hp
  | error ht hs => exact .error (hon ht) hs

/-- After the body of a loop, the loops around are those before it. -/
theorem follows_inLoop {p : Reader α} {q : Parser α} (h : Follows i (depth + 1) least p q) :
    Follows i depth least (inLoop p) q := by
  refine ⟨fun {tape} ht => ?_⟩
  have hon : Tape.On i (depth + 1) { tape with loopDepth := tape.loopDepth + 1 } :=
    ⟨ht.tokens, ht.position, ht.furthest, by rw [ht.loopDepth]; rfl⟩
  exact (h.run hon).leaving (f := (· - 1)) (by omega)

/-- The body of a function is in no loop, and after it the loops around are those
before it. -/
theorem follows_inFunction {p : Reader α} {q : Parser α} (h : Follows i 0 least p q) :
    Follows i depth least (inFunction p) q := by
  refine ⟨fun {tape} ht => ?_⟩
  have hon : Tape.On i 0 { tape with loopDepth := 0 } :=
    ⟨ht.tokens, ht.position, ht.furthest, rfl⟩
  exact (h.run hon).leaving (f := fun _ => tape.loopDepth) ht.loopDepth

end Depth

end Lox.Tree
