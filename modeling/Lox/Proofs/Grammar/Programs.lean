/-
Whole programs are read exactly as the grammar derives them.

* `program_quiet_iff` — the quiet runs over a list of tokens are its derivations;
* `Program.unique` — a list of tokens has at most one tree;
* `parse_quiet_iff` — reading adds nothing to the report if and only if there is
  a derivation within the frames, and then gives its tree;
* `parse_iff_grammar` — the same for the grammar without a bound, in either
  reading of `else`, when the text is not nested too deeply.
-/
import Lox.Proofs.Grammar.Readings
import Lox.Proofs.Grammar.Sentences

namespace Lox.Tree

open Lox.Tree.Parser

/-! ### Programs and their derivations -/

/-- Whether a cursor is before a further declaration of a program. -/
def inProgram (c : Cursor) : Bool :=
  !c.atEnd && !c.report.isFull

theorem inProgram_eq_false_of_ahead {c : Cursor} (h : c.ahead = []) : inProgram c = false := by
  simp [inProgram, Cursor.atEnd, h]

theorem ahead_of_inProgram_eq_false {c : Cursor} (hr : c.report.isFull = false)
    (h : inProgram c = false) : c.ahead = [] := by
  simpa [inProgram, Cursor.atEnd, hr] using h

/-- The quiet runs over all the tokens are the derivations within the frames. -/
theorem program_quiet_iff {frames : Nat} {c : Cursor} (hc : c.Ended)
    (hr : c.report.isFull = false) {statements : List Stmt} :
    (∃ c', Quiet (program frames) c statements c') ↔
      Program true frames c.ahead statements := by
  have hmany := denotes_many inProgram (denotes_declaration frames false)
    Declared.ne_nil fun _ => inProgram_eq_false_of_ahead
  -- Where a run ends nothing is ahead, so it is before the end of the input.
  have hloop : ∀ (c' : Cursor) {ts : List Token}, c'.Ended → c'.ahead = [] →
      c'.report.isFull = false → _ :=
    fun c' ts hc' ha hr' => loop_declared_iff frames false ts statements (c := c')
      (inProgram_eq_false_of_ahead ha)
      (by
        rw [Cursor.current, ha, List.headD_nil, hc']
        decide)
      fun {t us} _ => by
        simp only [inProgram, Cursor.atEnd, Cursor.ahead_back, List.cons_append, List.isEmpty_cons]
        exact congrArg not hr'
  constructor
  · rintro ⟨c', hq⟩
    obtain ⟨ts, rfl, found, hfound, hl⟩ := hmany.sound.quiet hq hc
    have ha := ahead_of_inProgram_eq_false (c := c') hr hl.parts.1
    rw [Cursor.ahead_back, ha, List.append_nil]
    exact (hloop c' hc ha hr).mp ⟨found, hfound, hl⟩
  · intro hp
    refine ⟨c.moved [], ?_⟩
    have hl := (hloop (c.moved []) hc rfl hr).mpr hp
    have hq := hmany.complete (c := c.moved []) hc hl
    rwa [show (c.moved []).back c.ahead = c by simp [Cursor.back, Cursor.moved]] at hq

/-- A list of tokens has at most one tree. -/
theorem Program.unique {n n' : Nat} {ts : List Token} {p p' : List Stmt}
    (h : Program true n ts p) (h' : Program true n' ts p') : p = p' := by
  let c : Cursor :=
    { ahead := ts, last := { kind := .endOfInput }, listing := default, report := {} }
  have hquiet : ∀ {m q}, m ≤ max n n' → Program true m ts q → ∃ c',
      Quiet (program (max n n')) c q c' :=
    fun hm hq => (program_quiet_iff (c := c) rfl rfl).mpr (hq.mono hm)
  obtain ⟨c₁, h₁⟩ := hquiet (Nat.le_max_left n n') h
  obtain ⟨c₂, h₂⟩ := hquiet (Nat.le_max_right n n') h'
  exact (h₁.unique h₂).1

/-! ### Reading to the end -/

theorem recovering_ok {α : Type} (p : Parser α) (c : Cursor) :
    ∃ o c', recovering p c = .ok o c' := by
  unfold recovering
  split
  · exact ⟨_, _, rfl⟩
  · exact ⟨_, _, rfl⟩
  · exact ⟨_, _, rfl⟩

theorem manyFrom_ok {α : Type} {more : Cursor → Bool} {step : Parser (Option α)}
    (hs : ∀ c, ∃ o c', step c = .ok o c') : ∀ (fuel : Nat) (found : Array α) (c : Cursor),
    ∃ as c', manyFrom more step fuel found c = .ok as c' := by
  intro fuel
  induction fuel with
  | zero => exact fun found c => ⟨_, _, rfl⟩
  | succ fuel ih =>
    intro found c
    by_cases hm : more c
    · obtain ⟨o, c₁, h₁⟩ := hs c
      obtain ⟨as, c₂, h₂⟩ := ih (o.elim found found.push) c₁
      refine ⟨as, c₂, ?_⟩
      calc manyFrom more step (fuel + 1) found c
          = (step >>= fun o => manyFrom more step fuel (o.elim found found.push)) c := by
            change (if more c then _ else _ : Parser (List α)) c = _
            rw [if_pos hm]
        _ = .ok as c₂ := by
            change EStateM.bind step _ c = _
            rw [EStateM.bind, h₁]
            exact h₂
    · refine ⟨found.toList, c, ?_⟩
      change (if more c then _ else _ : Parser (List α)) c = _
      rw [if_neg hm]
      rfl

/-- With a frame for each declaration, a program is read to its end. -/
theorem program_ok {frames : Nat} (hf : 0 < frames) (c : Cursor) :
    ∃ statements c', program frames c = .ok statements c' := by
  obtain ⟨n, rfl⟩ := Nat.exists_eq_add_one_of_ne_zero (Nat.ne_of_gt hf)
  refine manyFrom_ok (fun c => ?_) c.ahead.length #[] c
  rw [declaration]
  exact recovering_ok _ c

/-- Reading adds nothing to the report if and only if there is a derivation
within the frames, and then it gives the tree. -/
theorem parse_quiet_iff {frames : Nat} {ts : List Token} {last : Token} {listing : Listing}
    {report : Report} (hf : 0 < frames) (hts : ∀ t ∈ ts, t.isEnd = false)
    (hlast : last.isEnd = true) (hr : report.isFull = false) {statements : List Stmt} :
    parse frames (ts ++ [last]) listing report = (statements, report) ↔
      Program true frames ts statements := by
  -- There is one end of the input, the last token.
  have hcursor : Cursor.ofTokens (ts ++ [last]) listing report = ⟨ts, last, listing, report⟩ := by
    have htake : (ts ++ [last]).takeWhile (!·.isEnd) = ts := by
      rw [List.takeWhile_append_of_pos fun t ht => by simp [hts t ht]]
      simp [hlast]
    have hfind : (ts ++ [last]).find? (·.isEnd) = some last := by
      rw [List.find?_append, List.find?_eq_none.mpr fun t ht => by simp [hts t ht]]
      simp [hlast]
    simp only [Cursor.ofTokens, htake, hfind, Option.getD_some]
  have hended : (⟨ts, last, listing, report⟩ : Cursor).Ended := by
    simpa [Token.isEnd, Cursor.Ended] using hlast
  have hiff : (∃ c', Quiet (program frames) ⟨ts, last, listing, report⟩ statements c') ↔
      Program true frames ts statements := program_quiet_iff hended hr
  rw [← hiff, parse, hcursor]
  obtain ⟨statements', c', hrun⟩ := program_ok hf ⟨ts, last, listing, report⟩
  rw [hrun]
  constructor
  · rintro h
    cases h
    exact ⟨c', hrun, rfl⟩
  · rintro ⟨c'', hq⟩
    have he := hq.1.symm.trans hrun
    cases he
    exact Prod.ext rfl hq.2

/-! ### The grammar without a bound -/

/-- A list of tokens is nested at most `n` deep: whatever bound its derivation
takes, one within `n` is there too. -/
def Within (n : Nat) (ts : List Token) : Prop :=
  ∀ {m : Nat} {program : List Stmt}, Program true m ts program → Program true n ts program

/-- No list of tokens is nested deeper than ten frames for every token. -/
theorem within_of_length {n : Nat} {ts : List Token} (h : 10 * ts.length + 1 ≤ n) :
    Within n ts :=
  fun hp => hp.shallow.mono h

/-- Reading is exact.  For tokens that end with the only end of input, with room
in the report and frames for their nesting, nothing is added to the report if
and only if the tokens are a sequence of declarations of the grammar; and then
the statements are the only tree that the tokens have when every `else` belongs
to the nearest `if`. -/
theorem parse_iff_grammar {frames : Nat} {ts : List Token} {last : Token} {listing : Listing}
    {report : Report} (hf : 0 < frames) (hts : ∀ t ∈ ts, t.isEnd = false)
    (hlast : last.isEnd = true) (hr : report.isFull = false) (hn : Within frames ts) :
    ((parse frames (ts ++ [last]) listing report).2 = report ↔
      ∃ n program, Program false n ts program) ∧
    ((parse frames (ts ++ [last]) listing report).2 = report →
      Program true frames ts (parse frames (ts ++ [last]) listing report).1 ∧
      ∀ n program, Program true n ts program →
        program = (parse frames (ts ++ [last]) listing report).1) := by
  have hiff : ∀ {statements}, parse frames (ts ++ [last]) listing report = (statements, report) ↔
      Program true frames ts statements := parse_quiet_iff hf hts hlast hr
  have hprogram : (parse frames (ts ++ [last]) listing report).2 = report →
      Program true frames ts (parse frames (ts ++ [last]) listing report).1 :=
    fun h => hiff.mp (Prod.ext rfl h)
  refine ⟨⟨fun h => ?_, ?_⟩, fun h => ⟨hprogram h, fun n program hp => hp.unique (hprogram h)⟩⟩
  · exact exists_program_nearest_iff.mpr ⟨frames, _, hprogram h⟩
  · intro h
    obtain ⟨n, program, hp⟩ := exists_program_nearest_iff.mp h
    rw [hiff.mpr (hn hp)]

/-- The tokens of `if (a) if (b) c; else d;`. -/
def danglingElse : List Token :=
  let name := fun s : String => ({ kind := .identifier, lexeme := s } : Token)
  let sign := fun k : Token.Kind => ({ kind := k } : Token)
  [sign .ifKeyword, sign .leftParen, name "a", sign .rightParen,
   sign .ifKeyword, sign .leftParen, name "b", sign .rightParen,
   name "c", sign .semicolon, sign .elseKeyword, name "d", sign .semicolon]

theorem parse_danglingElse_iff_grammar :
    (∃ n program, Program false n danglingElse program) ∧
      ∀ n program, Program true n danglingElse program →
        program = (parse 200 (danglingElse ++ [{ kind := .endOfInput }]) default {}).1 := by
  have h := @parse_iff_grammar 200 danglingElse { kind := .endOfInput } default {} (by decide)
    (by decide) (by decide) (by decide) (within_of_length (by decide))
  have hquiet : (parse 200 (danglingElse ++ [{ kind := .endOfInput }]) default {}).2 = {} := by
    rfl
  exact ⟨h.1.mp hquiet, (h.2 hquiet).2⟩

end Lox.Tree
