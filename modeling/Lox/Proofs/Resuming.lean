/-
Where reading goes on after a mistake.

A declaration that is given up stopped at the token ahead of it.  This token is passed,
also if a statement begins with it, and then all tokens up to the next place where a
statement may begin.

* `Resumable` — the places from a mistake on where a statement may begin;
* `inherited_expects` — a parser stops with a complaint about the token ahead;
* `resumeAfter_least`, `synchronize_resumes` — the next place behind a token;
* `recovery_resumes` — where the declaration ends in which the mistake is;
* `recovery_swallows` — a statement that begins at the mistake is lost.
-/
import Lox.Proofs.Inheritance
import Lox.Proofs.Totality
import Mathlib.Order.Bounds.Defs

namespace Lox.Tree

open Lox.Tree.Parser

/-! ### Where a parser stops -/

/-- A parser that stops with a complaint was looking for something else than the token
ahead. -/
def Expects {α : Type} (p : Parser α) : Prop :=
  ∀ {c c' : Cursor} {t : Token} {why : Complaint}, p c = .error (.complaint t why) c' →
    t = c'.current ∧ ∃ text, why = .expected text

section Stopping

variable {α β : Type} {p : Parser α}

theorem Expects.bind {g : α → Parser β} (hp : Expects p) (hg : ∀ a, Expects (g a)) :
    Expects (p >>= g) := by
  intro c c' t why h
  cases hrun : p c with
  | ok a c₁ =>
    rw [bind_ok hrun] at h
    exact hg a h
  | error e c₁ =>
    rw [bind_error hrun] at h
    cases h
    exact hp hrun

/-- A parser that refuses the token ahead. -/
theorem Expects.choose {k : Token → Parser α}
    (hk : ∀ t, Expects (k t) ∨ ∃ text, k t = throw (.complaint t (.expected text))) :
    Expects (peek >>= k) := by
  intro c c' t why h
  have hpeek : peek c = .ok c.current c := rfl
  rw [bind_ok hpeek] at h
  rcases hk c.current with hgoes | ⟨text, hthrow⟩
  · exact hgoes h
  · rw [hthrow] at h
    cases h
    exact ⟨rfl, text, rfl⟩

theorem expects_recovering : Expects (recovering p) := by
  intro c c' t why h
  obtain ⟨a?, c'', hok⟩ := recovering_ok p c
  rw [hok] at h
  cases h

theorem inherited_expects : Inherited Expects where
  pure a := by
    intro c c' t why h
    cases h
  bind := Expects.bind
  look _ hk := by
    intro c c' t why h
    exact hk c h
  choose := Expects.choose
  advance := by
    intro c c' t why h
    cases h
  complain t why := by
    intro c c' t' why' h
    cases h
  tooDeep := by
    intro α c c' t why h
    cases h
  recovering _ := expects_recovering

end Stopping

/-! ### The next place where a statement may begin -/

/-- The places where reading may go on after a mistake at the token `e`: a word there that
begins a statement, the end of the input, or a semicolon before it from `e` on. -/
def Resumable (tokens : List Token) (e p : Nat) : Prop :=
  e ≤ p ∧ ∃ t, tokens[p]? = some t ∧ (t.kind.startsStatement = true ∨ t.isEnd = true ∨
    e < p ∧ ∃ s, tokens[p - 1]? = some s ∧ s.kind = .semicolon)

section Places

variable {i : Input} {e p : Nat}

theorem resumable_iff (hp : p ≤ i.stop) :
    Resumable i.tokens e p ↔ e ≤ p ∧ ((i.token p).kind.startsStatement = true ∨ p = i.stop ∨
      e < p ∧ (i.token (p - 1)).kind = .semicolon) := by
  unfold Resumable
  rw [i.tokens_getElem? hp, i.tokens_getElem? (Nat.le_trans (Nat.sub_le p 1) hp)]
  simp [i.token_isEnd_iff hp]

theorem resumable_stop (he : e ≤ i.stop) : Resumable i.tokens e i.stop :=
  (resumable_iff (Nat.le_refl _)).mpr ⟨he, .inr (.inl rfl)⟩

/-- A later mistake rules out no place behind it. -/
theorem resumable_succ (hp : p ≤ i.stop) (hlt : e + 1 < p) :
    Resumable i.tokens (e + 1) p ↔ Resumable i.tokens e p := by
  rw [resumable_iff hp, resumable_iff hp]
  simp [hlt, Nat.le_of_lt hlt, show e ≤ p by omega, show e < p by omega]

/-- Whether reading goes on right behind the token that is given up. -/
theorem resumable_next (hlt : e + 1 < i.stop) : Resumable i.tokens e (e + 1) ↔
    ((i.token e).kind == .semicolon || (i.token (e + 1)).kind.startsStatement) = true := by
  rw [resumable_iff (Nat.le_of_lt hlt), Nat.add_sub_cancel]
  simp [Nat.ne_of_lt hlt, or_comm]

/-- The tokens that are left begin at the least place behind the one that is given up. -/
theorem resumeAfter_least (left : Nat) : ∀ {e : Nat}, e < i.stop → i.stop - e = left →
    ∃ p ≤ i.stop, resumeAfter (i.token e) (i.front.drop (e + 1)) = i.front.drop p ∧
      IsLeast {p | e < p ∧ Resumable i.tokens e p} p := by
  -- By induction on the number of tokens ahead.
  induction left with
  | zero => intro e he hleft; omega
  | succ left ih =>
    intro e he hleft
    by_cases hend : e + 1 = i.stop
    · have hnil : i.front.drop (e + 1) = [] := by
        rw [hend]
        exact List.drop_length
      refine ⟨e + 1, he, by rw [hnil, resumeAfter], ⟨Nat.lt_succ_self e, ?_⟩, fun q hq => hq.1⟩
      rw [hend]
      exact resumable_stop (Nat.le_of_lt he)
    · have hlt : e + 1 < i.stop := Nat.lt_of_le_of_ne he hend
      have hcons : i.front.drop (e + 1) = i.token (e + 1) :: i.front.drop (e + 2) := by
        unfold Input.token
        rw [List.drop_eq_getElem_cons hlt, List.headD_cons]
      rw [hcons, resumeAfter]
      by_cases hhere : Resumable i.tokens e (e + 1)
      · refine ⟨e + 1, he, ?_, ⟨Nat.lt_succ_self e, hhere⟩, fun q hq => hq.1⟩
        rw [if_pos ((resumable_next hlt).mp hhere), hcons]
      · obtain ⟨p, hp, hdrop, ⟨hbehind, hresumable⟩, hleast⟩ := ih hlt (by omega)
        refine ⟨p, hp, ?_, ⟨by omega, (resumable_succ hp hbehind).mp hresumable⟩, ?_⟩
        · rw [if_neg (mt (resumable_next hlt).mpr hhere), hdrop]
        · rintro q ⟨hq, hqresumable⟩
          rcases Nat.le_total q i.stop with hle | hle
          · -- The place right behind the token is none, so `q` is behind the next one too.
            have hne : q ≠ e + 1 := by
              rintro rfl
              exact hhere hqresumable
            exact hleast ⟨by omega, (resumable_succ hle (by omega)).mpr hqresumable⟩
          · exact Nat.le_trans hp hle

/-- The token that is given up is itself no such place, unless a statement begins with it or
the input ends. -/
theorem isLeast_resumable (he : e < i.stop)
    (hstarts : (i.token e).kind.startsStatement = false)
    (h : IsLeast {p | e < p ∧ Resumable i.tokens e p} p) :
    IsLeast {p | Resumable i.tokens e p} p := by
  refine ⟨h.1.2, fun q hq => h.2 ⟨Nat.lt_of_le_of_ne hq.1 ?_, hq⟩⟩
  rintro rfl
  obtain ⟨-, hplace⟩ := (resumable_iff (Nat.le_of_lt he)).mp hq
  simp [hstarts, Nat.ne_of_lt he] at hplace

end Places

/-! ### Recovery -/

section Recovery

variable {i : Input} {depth : Nat}

/-- Two places that leave the same tokens are the same. -/
theorem position_of_drop {p q : Nat} (hp : p ≤ i.stop) (hq : q ≤ i.stop)
    (h : i.front.drop p = i.front.drop q) : p = q := by
  have hlength := congrArg List.length h
  simp only [List.length_drop] at hlength
  change i.stop - p = i.stop - q at hlength
  omega

/-- Skipping ends at the least place behind the token at the position; at the end of the
input nothing is skipped. -/
theorem synchronize_resumes {tape : Tape} (ht : tape.On i depth) :
    ∃ tape', Reader.synchronize tape = .ok () tape' ∧
      Parser.synchronize (tape.cursor i) = .ok () (tape'.cursor i) ∧
      tape'.report = tape.report ∧
      (tape.position = i.stop → tape'.position = i.stop) ∧
      (tape.position < i.stop → IsLeast
        {p | tape.position < p ∧ Resumable i.tokens tape.position p} tape'.position) := by
  have halike := follows_synchronize.run ht
  -- The parser tells only the tokens it leaves; how many these are gives the position.
  rcases Nat.lt_or_eq_of_le ht.position with hlt | hstop
  · have hparser := synchronize_cons (ahead_cons hlt)
    rw [hparser] at halike
    obtain ⟨tape', hrun, hcursor, hon, -⟩ := halike.of_ok
    obtain ⟨p, hp, hdrop, hleast⟩ := resumeAfter_least _ hlt rfl
    have hahead : i.front.drop p = i.front.drop tape'.position :=
      hdrop.symm.trans (congrArg Cursor.ahead hcursor)
    refine ⟨tape', hrun, hparser.trans (congrArg _ hcursor), ?_, ?_, ?_⟩
    · exact (congrArg Cursor.report hcursor).symm
    · omega
    · intro _
      rwa [position_of_drop hp hon.position hahead] at hleast
  · have hparser := synchronize_nil (ahead_nil hstop)
    rw [hparser] at halike
    obtain ⟨tape', hrun, hcursor, hon, -⟩ := halike.of_ok
    have hahead : i.front.drop tape.position = i.front.drop tape'.position :=
      congrArg Cursor.ahead hcursor
    have hposition := position_of_drop ht.position hon.position hahead
    refine ⟨tape', hrun, hparser.trans (congrArg _ hcursor), ?_, ?_, ?_⟩
    · exact (congrArg Cursor.report hcursor).symm
    · omega
    · omega

/-- A computation that is given up reports the mistake, and ends where skipping ends. -/
theorem recovering_resumes {α : Type} {p : Reader α} {tape deepest : Tape} {t : Token}
    {why : Complaint} (hstop : p tape = .error (.halt (.complaint t why)) deepest)
    (hon : deepest.On i depth) :
    ∃ tape', Reader.recovering p tape = .ok none tape' ∧
      tape'.report = deepest.report.add (why.diagnose t deepest.listing) ∧
      (deepest.position = i.stop → tape'.position = i.stop) ∧
      (deepest.position < i.stop → IsLeast
        {p | deepest.position < p ∧ Resumable i.tokens deepest.position p} tape'.position) := by
  let told : Tape :=
    { deepest with report := deepest.report.add (why.diagnose t deepest.listing) }
  have htold : told.On i depth := ⟨hon.tokens, hon.position, hon.furthest, hon.loopDepth⟩
  obtain ⟨tape', hrun, -, hreport, hresumes⟩ := synchronize_resumes htold
  have hcomplain : Reader.complain t why deepest = .ok () told := rfl
  refine ⟨tape', ?_, hreport, hresumes⟩
  unfold Reader.recovering
  rw [hstop]
  change (do Reader.complain t why; Reader.synchronize; pure none : Reader (Option α)) deepest = _
  rw [bind_ok hcomplain, bind_ok hrun]
  rfl

/-- What a declaration in the middle of a program does with a mistake.  The mistake is at the
token where reading stopped, and it is reported there.  If no statement begins with this
token, reading goes on at the least place from there on where one may begin; if one does,
the token is passed all the same, and reading goes on at the least place behind it. -/
theorem recovery_resumes (before : List Token) {last : Token} (hlast : last.isEnd = true)
    (n : Nat) {tape deepest : Tape} {t : Token} {why : Complaint}
    (ht : tape.On (Input.ending before hlast) depth)
    (hstop : Reader.declared (Reader.expression n .assignment) (Reader.declaration n)
      (Reader.statement n) tape = .error (.halt (.complaint t why)) deepest) :
    let tokens := before ++ [last]
    let e := deepest.position
    let d := why.diagnose t deepest.listing
    tokens[e]? = some t ∧ d.code = (if t.isEnd then "E102" else "E101") ∧
    ∃ tape', Reader.declaration (n + 1) tape = .ok none tape' ∧
      Lox.Tree.declaration (n + 1) (decide (depth ≠ 0)) (tape.cursor (Input.ending before hlast)) =
        .ok none (tape'.cursor (Input.ending before hlast)) ∧
      tape'.report = deepest.report.add d ∧
      (t.kind.startsStatement = false → IsLeast {p | Resumable tokens e p} tape'.position) ∧
      (t.kind.startsStatement = true →
        IsLeast {p | e < p ∧ Resumable tokens e p} tape'.position) := by
  intro tokens e d
  let i := Input.ending before hlast
  obtain ⟨hs, -⟩ := follows_sentences (i := i) n depth
  obtain ⟨-, hd⟩ := follows_sentences (i := i) n 0
  have hbody := follows_declared hs hd
  -- The parser beside the reader stops at the same token, and it is the token ahead.
  have hparser := hbody.halts ht hstop
  obtain ⟨hcurrent, text, hwhy⟩ := inherited_expects.declared
    ((inherited_expects.sentences n).1 (decide (depth ≠ 0)))
    ((inherited_expects.sentences n).2 false) hparser
  have hon : deepest.On i depth := by
    have halike := hbody.run ht
    rw [hstop, hparser] at halike
    cases halike with
    | error h _ => exact h
  have htoken : tokens[e]? = some t := by
    rw [hcurrent]
    exact i.tokens_getElem? hon.position
  obtain ⟨tape', hrun, hreport, hend, hbehind⟩ := recovering_resumes hstop hon
  have hparser' : Lox.Tree.declaration (n + 1) (decide (depth ≠ 0)) (tape.cursor i) =
      .ok none (tape'.cursor i) := by
    have halike := (follows_sentences (n + 1) depth).2.run ht
    rw [Reader.declaration, hrun] at halike
    generalize Lox.Tree.declaration (n + 1) _ (tape.cursor i) = r at halike ⊢
    cases halike
    rfl
  have htoken' : t = i.token e := hcurrent
  refine ⟨htoken, congrArg (·.code t) hwhy, tape', by rw [Reader.declaration, hrun], hparser',
    hreport, fun hstarts => ?_, fun hstarts => hbehind (Nat.lt_of_le_of_ne hon.position ?_)⟩
  · rcases Nat.lt_or_eq_of_le hon.position with hlt | hstop
    · exact isLeast_resumable hlt (htoken' ▸ hstarts) (hbehind hlt)
    · rw [hend hstop]
      exact ⟨hstop ▸ resumable_stop hon.position, fun q hq => hstop ▸ hq.1⟩
  · -- No statement begins with the end of the input.
    intro hstop
    have hkind : (i.token e).kind = .endOfInput := by
      simpa [Token.isEnd] using (i.token_isEnd_iff hon.position).mpr hstop
    rw [htoken', hkind] at hstarts
    cases hstarts

/-- A mistake in a block, in front of another statement of the block. -/
def mistakeInBlock : List Token :=
  [{ kind := .leftBrace }, { kind := .identifier }, { kind := .rightParen }, { kind := .plus },
    { kind := .printKeyword }, { kind := .number }, { kind := .semicolon },
    { kind := .rightBrace }]

/-- The place before the statement with the mistake. -/
def inBlock : Tape :=
  { tokens := mistakeInBlock ++ [{ kind := .endOfInput }], position := 1, furthest := 1
    listing := default, report := {} }

theorem recovery_resumes_inBlock :
    let deepest : Tape := { inBlock with position := 2, furthest := 2 }
    let why : Complaint := .expected "Expect ';' after expression."
    ({ kind := .endOfInput } : Token).isEnd = true ∧
    (∃ i : Input, i.tokens = inBlock.tokens ∧ inBlock.On i 0) ∧
    Reader.declared (Reader.expression 19 .assignment) (Reader.declaration 19)
      (Reader.statement 19) inBlock = .error (.halt (.complaint { kind := .rightParen } why))
        deepest ∧
    ∃ tape', Reader.declaration 20 inBlock = .ok none tape' ∧
      IsLeast {p | Resumable inBlock.tokens 2 p} tape'.position := by
  intro deepest why
  have hend : ({ kind := .endOfInput } : Token).isEnd = true := rfl
  have hon : inBlock.On (Input.ending mistakeInBlock hend) 0 :=
    ⟨rfl, (by decide : 1 ≤ 8), (by decide : 1 ≤ 8), rfl⟩
  have hstop : Reader.declared (Reader.expression 19 .assignment) (Reader.declaration 19)
      (Reader.statement 19) inBlock = .error (.halt (.complaint { kind := .rightParen } why))
        deepest := by rfl
  obtain ⟨-, -, tape', hrun, -, -, hleast, -⟩ :=
    recovery_resumes mistakeInBlock hend 19 hon hstop
  exact ⟨hend, ⟨_, rfl, hon⟩, hstop, tape', hrun, hleast rfl⟩

/-- A semicolon is missing before a statement that has a mistake of its own. -/
def missingSemicolon : List Token :=
  [{ kind := .printKeyword }, { kind := .number }, { kind := .printKeyword },
    { kind := .semicolon }, { kind := .endOfInput }]

/-- The statement at which the mistake is noticed is not read, and its own mistake is not
reported. -/
theorem recovery_swallows :
    let start : Tape := { tokens := missingSemicolon, listing := default, report := {} }
    let after := EStateM.Result.final (Reader.declaration 20 start)
    (EStateM.Result.final (Reader.declared (Reader.expression 19 .assignment)
      (Reader.declaration 19) (Reader.statement 19) start)).position = 2 ∧
    ¬IsLeast {p | Resumable missingSemicolon 2 p} after.position ∧
    (parse 20 missingSemicolon default {}).2.diagnostics.map (·.message) =
      #["Error at '': Expect ';' after value."] := by
  refine ⟨by decide +kernel, fun h => ?_, by decide +kernel⟩
  have hkeyword : Resumable missingSemicolon 2 2 :=
    ⟨Nat.le_refl 2, { kind := .printKeyword }, rfl, .inl rfl⟩
  exact absurd (h.2 hkeyword) (by decide +kernel)

end Recovery

end Lox.Tree
