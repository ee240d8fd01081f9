/-
A reader and a parser side by side.

A reader with a position and a parser with the tokens ahead do the same, step by
step, as long as the position is at most that of the first end of the input.
Every token that is looked at is then there, and nothing looks back at the
beginning.

* `Input` — tokens with an end of the input among them;
* `Tape.On` — the invariant: the position, and the loops around it;
* `Alike` — two runs that came to the same;
* `Follows` — a reader does what a parser does, keeps the invariant, and passes
  at least so many tokens;
* `follows_consume`, `follows_skips`, `follows_accept` — single tokens.
-/
import Lox.Proofs.Positions
import Lox.Proofs.Quiet

namespace Lox.Tree

/-! ### Tapes and cursors -/

/-- Tokens with an end of the input among them. -/
structure Input where
  tokens : List Token
  ends : ∃ t ∈ tokens, t.isEnd = true

namespace Input

/-- Tokens that end with an end of the input. -/
def ending (before : List Token) {last : Token} (h : last.isEnd = true) : Input where
  tokens := before ++ [last]
  ends := ⟨last, List.mem_append_right _ (List.mem_singleton_self last), h⟩

/-- The tokens before the first end of the input. -/
def front (i : Input) : List Token :=
  i.tokens.takeWhile (!·.isEnd)

/-- The first end of the input. -/
def last (i : Input) : Token :=
  (i.tokens.find? (·.isEnd)).getD Token.endOfNothing

/-- The position of the first end of the input. -/
def stop (i : Input) : Nat :=
  i.front.length

/-- The token at a position up to the first end of the input. -/
def token (i : Input) (position : Nat) : Token :=
  (i.front.drop position).headD i.last

/-- The tokens are cut at the first end of the input. -/
theorem cut (i : Input) : i.last.isEnd = true ∧ (∀ t ∈ i.front, t.isEnd = false) ∧
    ∃ rest, i.tokens = i.front ++ i.last :: rest := by
  obtain ⟨t, ht, hend⟩ := i.ends
  obtain ⟨u, hu⟩ := Option.isSome_iff_exists.mp (List.find?_isSome.mpr ⟨t, ht, hend⟩)
  obtain ⟨hend, front, rest, htokens, hfront⟩ := List.find?_eq_some_iff_append.mp hu
  have hlast : i.last = u := by rw [last, hu, Option.getD_some]
  have htake : i.front = front := by
    rw [Input.front, htokens, List.takeWhile_append_of_pos hfront, List.takeWhile_cons_of_neg,
      List.append_nil]
    rw [hend]
    exact Bool.false_ne_true
  rw [hlast, htake]
  exact ⟨hend, fun t ht => (Bool.not_eq_true' t.isEnd).mp (hfront t ht), rest, htokens⟩

theorem tokens_getElem? (i : Input) {position : Nat} (h : position ≤ i.stop) :
    i.tokens[position]? = some (i.token position) := by
  obtain ⟨-, -, rest, htokens⟩ := i.cut
  rw [htokens]
  unfold token
  rcases Nat.lt_or_eq_of_le h with hlt | rfl
  · rw [List.getElem?_append_left hlt, List.drop_eq_getElem_cons hlt, List.headD_cons]
    exact List.getElem?_eq_getElem hlt
  · unfold stop
    rw [List.getElem?_append_right (Nat.le_refl _), Nat.sub_self, List.drop_length]
    rfl

theorem stop_lt_length (i : Input) : i.stop < i.tokens.length := by
  obtain ⟨-, -, rest, htokens⟩ := i.cut
  rw [htokens, stop, List.length_append, List.length_cons]
  omega

theorem token_isEnd_iff (i : Input) {position : Nat} (h : position ≤ i.stop) :
    (i.token position).isEnd = true ↔ position = i.stop := by
  unfold token
  rcases Nat.lt_or_eq_of_le h with hlt | rfl
  · rw [List.drop_eq_getElem_cons hlt, List.headD_cons,
      i.cut.2.1 _ (List.getElem_mem hlt)]
    simp [Nat.ne_of_lt hlt]
  · unfold stop
    rw [List.drop_length, List.headD_nil, i.cut.1]
    simp

end Input

namespace Tape

/-- The cursor at the position of a tape. -/
def cursor (i : Input) (tape : Tape) : Cursor :=
  { ahead := i.front.drop tape.position
    last := i.last
    listing := tape.listing
    report := tape.report }

/-- The invariant: the tokens are those of the input, the position is and was at
most that of its first end, and so many loops are around it. -/
structure On (i : Input) (depth : Nat) (tape : Tape) : Prop where
  tokens : tape.tokens = i.tokens
  position : tape.position ≤ i.stop
  furthest : tape.furthest ≤ i.stop
  loopDepth : tape.loopDepth = depth

variable {i : Input} {depth : Nat} {tape : Tape}

theorem cursor_next : (tape.cursor i).next = tape.next.cursor i := by
  simp [cursor, Cursor.next, next]

theorem ahead_length : (tape.cursor i).ahead.length = i.stop - tape.position :=
  List.length_drop

theorem On.next (h : tape.On i depth) (hp : tape.position < i.stop) : tape.next.On i depth :=
  ⟨h.tokens, hp, Nat.max_le.mpr ⟨h.furthest, hp⟩, h.loopDepth⟩

end Tape

/-! ### Readers that follow parsers -/

/-- Two runs came to the same: the same result or the same stop, at the same
place.  The position is at least `least` after a result, and at least `start`
after a stop. -/
inductive Alike {α : Type} (i : Input) (depth start least : Nat) :
    EStateM.Result Tape.Stop Tape α → EStateM.Result Halt Cursor α → Prop
  | ok {a : α} {tape : Tape} (h : tape.On i depth) (hs : start ≤ tape.position)
      (hp : least ≤ tape.position) : Alike i depth start least (.ok a tape) (.ok a (tape.cursor i))
  | error {why : Halt} {tape : Tape} (h : tape.On i depth) (hs : start ≤ tape.position) :
      Alike i depth start least (.error (.halt why) tape) (.error why (tape.cursor i))

/-- A reader does what a parser does, and passes at least `least` tokens if it
gives a result before the end of the input. -/
structure Follows {α : Type} (i : Input) (depth least : Nat) (p : Reader α) (q : Parser α) :
    Prop where
  run : ∀ {tape : Tape}, tape.On i depth → Alike i depth tape.position
    (min (tape.position + least) i.stop) (p tape) (q (tape.cursor i))

namespace Alike

variable {α β : Type} {i : Input} {depth start least : Nat}

theorem mono {start' least' : Nat} {r : EStateM.Result Tape.Stop Tape α}
    {r' : EStateM.Result Halt Cursor α} (h : Alike i depth start least r r')
    (hs : start' ≤ start) (hl : least' ≤ least) : Alike i depth start' least' r r' := by
  cases h with
  | ok h hstart hp => exact .ok h (Nat.le_trans hs hstart) (Nat.le_trans hl hp)
  | error h hstart => exact .error h (Nat.le_trans hs hstart)

/-- What follows begins where the first run ended. -/
theorem bind {p : Reader α} {q : Parser α} {f : α → Reader β} {g : α → Parser β} {tape : Tape}
    {middle : Nat} (h : Alike i depth start middle (p tape) (q (tape.cursor i)))
    (hf : ∀ a (tape' : Tape), tape'.On i depth → start ≤ tape'.position → middle ≤ tape'.position →
      Alike i depth start least (f a tape') (g a (tape'.cursor i))) :
    Alike i depth start least ((p >>= f) tape) ((q >>= g) (tape.cursor i)) := by
  generalize hp : p tape = r at h
  generalize hq : q (tape.cursor i) = r' at h
  cases h with
  | ok ht hs hm =>
    rw [bind_ok hp, bind_ok hq]
    exact hf _ _ ht hs hm
  | error ht hs =>
    rw [bind_error hp, bind_error hq]
    exact .error ht hs

end Alike

namespace Follows

variable {α β : Type} {i : Input} {depth least : Nat} {p : Reader α} {q : Parser α}

theorem mono {least' : Nat} (h : Follows i depth least p q) (hl : least' ≤ least) :
    Follows i depth least' p q :=
  ⟨fun ht => (h.run ht).mono (Nat.le_refl _) (by omega)⟩

theorem pure (a : α) : Follows i depth 0 (pure a) (pure a) :=
  ⟨fun ht => .ok ht (Nat.le_refl _) (Nat.min_le_left _ _)⟩

theorem throw (why : Halt) :
    Follows i depth least (throw (.halt why) : Reader α) (throw why) :=
  ⟨fun ht => .error ht (Nat.le_refl _)⟩

theorem bind {f : α → Reader β} {g : α → Parser β} {more : Nat} (h : Follows i depth least p q)
    (hf : ∀ a, Follows i depth more (f a) (g a)) :
    Follows i depth (least + more) (p >>= f) (q >>= g) := by
  refine ⟨fun {tape} ht => (h.run ht).bind fun a tape' ht' hs hm => ?_⟩
  exact ((hf a).run ht').mono hs (by omega)

/-- What follows passes the tokens that are counted. -/
theorem after {f : α → Reader β} {g : α → Parser β} {more : Nat}
    (h : Follows i depth least p q) (hf : ∀ a, Follows i depth more (f a) (g a)) :
    Follows i depth more (p >>= f) (q >>= g) :=
  (h.bind hf).mono (Nat.le_add_left _ _)

/-- The first step passes the tokens that are counted. -/
theorem before {f : α → Reader β} {g : α → Parser β} (h : Follows i depth least p q)
    (hf : ∀ a, Follows i depth 0 (f a) (g a)) : Follows i depth least (p >>= f) (q >>= g) :=
  h.bind hf

theorem map (f : α → β) (h : Follows i depth least p q) :
    Follows i depth least (f <$> p) (f <$> q) := by
  rw [map_eq_pure_bind, map_eq_pure_bind]
  exact h.before fun a => pure (f a)

end Follows

/-! ### Single tokens -/

section Tokens

variable {α : Type} {i : Input} {depth least : Nat} {tape : Tape}

theorem get_run {ε σ : Type} (s : σ) : (get : EStateM ε σ σ) s = .ok s s := rfl

theorem tokenAt_run {k : Nat} {t : Token} (h : tape.tokens[k]? = some t) :
    Reader.tokenAt k tape = .ok t tape := by
  unfold Reader.tokenAt
  rw [bind_ok (get_run tape), h]
  rfl

theorem current_run (h : tape.On i depth) :
    Reader.current tape = .ok (i.token tape.position) tape := by
  have hlt : ¬tape.tokens.length ≤ tape.position := by
    rw [h.tokens]
    exact Nat.not_le_of_lt (Nat.lt_of_le_of_lt h.position i.stop_lt_length)
  unfold Reader.current
  rw [bind_ok (get_run tape), if_neg hlt]
  refine tokenAt_run ?_
  rw [h.tokens, i.tokens_getElem? h.position]

/-- Behind the token that was just passed it is seen again. -/
theorem previous_run (h : tape.On i depth) :
    Reader.previous tape.next = .ok (i.token tape.position) tape.next := by
  have hne : ¬tape.next.position = 0 := Nat.succ_ne_zero _
  unfold Reader.previous
  rw [bind_ok (get_run tape.next), if_neg hne]
  refine tokenAt_run ?_
  change tape.tokens[tape.position]? = _
  rw [h.tokens, i.tokens_getElem? h.position]

theorem isAtEnd_run (h : tape.On i depth) :
    Reader.isAtEnd tape = .ok (decide (tape.position = i.stop)) tape := by
  unfold Reader.isAtEnd
  rw [bind_ok (current_run h)]
  have hend : (i.token tape.position).isEnd = decide (tape.position = i.stop) := by
    rw [Bool.eq_iff_iff, i.token_isEnd_iff h.position, decide_eq_true_iff]
  rw [hend]
  rfl

theorem sees_run (h : tape.On i depth) (k : Token.Kind) :
    Reader.sees k tape = .ok ((tape.cursor i).sees k) tape := by
  unfold Reader.sees
  rw [bind_ok (current_run h)]
  rfl

theorem advance_run (h : tape.On i depth) (hp : tape.position < i.stop) :
    Reader.advance tape = .ok (i.token tape.position) tape.next := by
  unfold Reader.advance
  rw [bind_ok (current_run h), bind_ok (isAtEnd_run h), decide_eq_false (Nat.ne_of_lt hp)]
  rfl

theorem advance_run_end (h : tape.On i depth) (hp : tape.position = i.stop) :
    Reader.advance tape = .ok (i.token tape.position) tape := by
  unfold Reader.advance
  rw [bind_ok (current_run h), bind_ok (isAtEnd_run h), decide_eq_true hp]
  rfl

/-- A token of a kind that is wanted is not the end of the input. -/
theorem lt_stop_of_wanted (h : tape.On i depth) (wanted : Token.Kind → Bool)
    (hw : wanted .endOfInput = false) (ht : wanted (i.token tape.position).kind = true) :
    tape.position < i.stop := by
  refine Nat.lt_of_le_of_ne h.position fun hstop => ?_
  have hend := (i.token_isEnd_iff h.position).mpr hstop
  simp only [Token.isEnd, beq_iff_eq] at hend
  rw [hend, hw] at ht
  cases ht

theorem accept_run (h : tape.On i depth) (wanted : Token.Kind → Bool)
    (hw : wanted .endOfInput = false) (ht : wanted (i.token tape.position).kind = true) :
    Reader.accept wanted tape = .ok true tape.next := by
  unfold Reader.accept
  rw [bind_ok (current_run h), ht, if_pos rfl,
    bind_ok (advance_run h (lt_stop_of_wanted h wanted hw ht))]
  rfl

theorem accept_run_not (h : tape.On i depth) (wanted : Token.Kind → Bool)
    (ht : wanted (i.token tape.position).kind = false) :
    Reader.accept wanted tape = .ok false tape := by
  unfold Reader.accept
  rw [bind_ok (current_run h), ht, if_neg Bool.false_ne_true]
  rfl

theorem peek_run : Parser.peek (tape.cursor i) = .ok (i.token tape.position) (tape.cursor i) :=
  rfl

/-- The parser accepts what the reader accepts. -/
theorem parserAccept_run {wanted : Token.Kind → Bool}
    (ht : wanted (i.token tape.position).kind = true) :
    Parser.accept wanted (tape.cursor i) =
      .ok (some (i.token tape.position)) (tape.next.cursor i) := by
  unfold Parser.accept
  rw [bind_ok peek_run, if_pos ht, ← Tape.cursor_next]
  rfl

theorem parserAccept_run_not {wanted : Token.Kind → Bool}
    (ht : wanted (i.token tape.position).kind = false) :
    Parser.accept wanted (tape.cursor i) = .ok none (tape.cursor i) := by
  unfold Parser.accept
  rw [bind_ok peek_run, ht, if_neg Bool.false_ne_true]
  rfl

theorem parserSkips_run {k : Token.Kind} (ht : ((i.token tape.position).kind == k) = true) :
    Parser.skips k (tape.cursor i) = .ok true (tape.next.cursor i) := by
  have hsees : (tape.cursor i).sees k = true := ht
  unfold Parser.skips
  rw [bind_ok (get_run _), if_pos hsees, ← Tape.cursor_next]
  rfl

theorem parserSkips_run_not {k : Token.Kind}
    (ht : ((i.token tape.position).kind == k) = false) :
    Parser.skips k (tape.cursor i) = .ok false (tape.cursor i) := by
  have hsees : (tape.cursor i).sees k = false := ht
  unfold Parser.skips
  rw [bind_ok (get_run _), hsees, if_neg Bool.false_ne_true]
  rfl

end Tokens

/-! ### Steps of both at once -/

section Steps

open Reader

variable {α : Type} {i : Input} {depth least : Nat}

theorem follows_current : Follows i depth 0 current Parser.peek :=
  ⟨fun ht => by
    rw [current_run ht]
    exact .ok ht (Nat.le_refl _) (Nat.min_le_left _ _)⟩

/-- Two steps that read a part of the state. -/
theorem Follows.ofGet {β : Type} {g : Reader β} {k : β → Reader α} {q : Cursor → Parser α}
    (h : ∀ {tape : Tape}, tape.On i depth → ∃ b, g tape = .ok b tape ∧
      Alike i depth tape.position (min (tape.position + least) i.stop) (k b tape)
        (q (tape.cursor i) (tape.cursor i))) :
    Follows i depth least (g >>= k) (get >>= q) := by
  refine ⟨fun {tape} ht => ?_⟩
  obtain ⟨b, hg, halike⟩ := h ht
  rw [bind_ok hg, bind_ok (get_run (tape.cursor i))]
  exact halike

/-- A choice by the kind of the token ahead. -/
theorem follows_sees (k : Token.Kind) {p p' : Reader α} {q q' : Parser α}
    (hyes : Follows i depth least p q) (hno : Follows i depth least p' q') :
    Follows i depth least (do if ← sees k then p else p')
      (do if (← get).sees k then q else q') := by
  refine .ofGet fun {tape} ht => ⟨_, sees_run ht k, ?_⟩
  cases (tape.cursor i).sees k with
  | true => exact hyes.run ht
  | false => exact hno.run ht

/-- A choice by the kind of the token ahead, and what follows either way. -/
theorem follows_sees_after {β : Type} (k : Token.Kind) {p p' : Reader β} {q q' : Parser β}
    {f : β → Reader α} {g : β → Parser α} (hyes : Follows i depth 0 p q)
    (hno : Follows i depth 0 p' q') (h : ∀ b, Follows i depth least (f b) (g b)) :
    Follows i depth least (do if ← sees k then p >>= f else p' >>= f)
      (do if (← get).sees k then q >>= g else q' >>= g) :=
  follows_sees k (hyes.after h) (hno.after h)

/-- A token of one kind is passed, or both stop with a complaint about another. -/
theorem consume_run {k : Token.Kind} (hk : k ≠ .endOfInput) (text : String) {tape : Tape}
    (ht : tape.On i depth) :
    (tape.position < i.stop ∧
      consume k text tape = .ok (i.token tape.position) tape.next ∧
      Parser.expect k text (tape.cursor i) = .ok (i.token tape.position) (tape.next.cursor i)) ∨
    ∃ why, consume k text tape = .error (.halt why) tape ∧
      Parser.expect k text (tape.cursor i) = .error why (tape.cursor i) := by
  unfold consume Parser.expect
  rw [bind_ok (sees_run ht k), bind_ok peek_run]
  change (_ ∧ (if (i.token tape.position).kind == k then advance else _) tape = _ ∧ _) ∨
    ∃ _, (if (i.token tape.position).kind == k then advance else _) tape = _ ∧ _
  cases hkind : (i.token tape.position).kind == k with
  | true =>
    have hlt := lt_stop_of_wanted ht (· == k) (by simpa using hk.symm) hkind
    rw [if_pos rfl, if_pos rfl, advance_run ht hlt, ← Tape.cursor_next]
    exact .inl ⟨hlt, rfl, rfl⟩
  | false =>
    rw [if_neg Bool.false_ne_true, if_neg Bool.false_ne_true, bind_ok (current_run ht)]
    exact .inr ⟨_, rfl, rfl⟩

/-- A token of one kind, or a complaint. -/
theorem follows_consume {k : Token.Kind} (hk : k ≠ .endOfInput) (text : String) :
    Follows i depth 1 (consume k text) (Parser.expect k text) := by
  refine ⟨fun {tape} ht => ?_⟩
  obtain ⟨hlt, hp, hq⟩ | ⟨why, hp, hq⟩ := consume_run hk text ht
  · rw [hp, hq]
    exact .ok (ht.next hlt) (Nat.le_succ _) (Nat.min_le_left _ _)
  · rw [hp, hq]
    exact .error ht (Nat.le_refl _)

/-- A token of one kind that is looked back at. -/
theorem follows_consume_previous {k : Token.Kind} (hk : k ≠ .endOfInput) (text : String)
    {f : Token → Reader α} {g : Token → Parser α} (h : ∀ t, Follows i depth least (f t) (g t)) :
    Follows i depth least (do let _ ← consume k text; let t ← previous; f t)
      (do let t ← Parser.expect k text; g t) := by
  refine ⟨fun {tape} ht => ?_⟩
  obtain ⟨hlt, hp, hq⟩ | ⟨why, hp, hq⟩ := consume_run hk text ht
  · have hnext : tape.next.position = tape.position + 1 := rfl
    rw [bind_ok hp, bind_ok hq, bind_ok (previous_run ht)]
    exact ((h _).run (ht.next hlt)).mono (Nat.le_succ _) (by omega)
  · rw [bind_error hp, bind_error hq]
    exact .error ht (Nat.le_refl _)

/-- A choice by a token that is wanted; `p` is run behind it. -/
theorem follows_skips {k : Token.Kind} (hk : k ≠ .endOfInput) {more : Nat} {p p' : Reader α}
    {q q' : Parser α} (hyes : Follows i depth more p q) (hno : Follows i depth least p' q')
    (hm : least ≤ more + 1) :
    Follows i depth least (do if ← accept (· == k) then p else p')
      (do if ← Parser.skips k then q else q') := by
  refine ⟨fun {tape} ht => ?_⟩
  have hnext : tape.next.position = tape.position + 1 := rfl
  cases hkind : (i.token tape.position).kind == k with
  | true =>
    have hend : (Token.Kind.endOfInput == k) = false := by simpa using hk.symm
    have hlt := lt_stop_of_wanted ht (· == k) hend hkind
    rw [bind_ok (accept_run ht (· == k) hend hkind), bind_ok (parserSkips_run hkind)]
    exact (hyes.run (ht.next hlt)).mono (Nat.le_succ _) (by omega)
  | false =>
    rw [bind_ok (accept_run_not ht (· == k) hkind), bind_ok (parserSkips_run_not hkind)]
    exact hno.run ht

/-- A choice by a token that is wanted, and what follows either way. -/
theorem follows_skips_after {β : Type} {k : Token.Kind} (hk : k ≠ .endOfInput) {p p' : Reader β}
    {q q' : Parser β} {f : β → Reader α} {g : β → Parser α} (hyes : Follows i depth 0 p q)
    (hno : Follows i depth 0 p' q') (h : ∀ b, Follows i depth least (f b) (g b)) :
    Follows i depth least (do if ← accept (· == k) then p >>= f else p' >>= f)
      (do if ← Parser.skips k then q >>= g else q' >>= g) :=
  follows_skips hk (hyes.after h) (hno.after h) (Nat.le_succ _)

/-- A choice by a token that is wanted and looked back at. -/
theorem follows_accept {wanted : Token.Kind → Bool} (hw : wanted .endOfInput = false) {more : Nat}
    {f : Token → Reader α} {p' : Reader α} {q : Option Token → Parser α}
    (hyes : ∀ t, Follows i depth more (f t) (q (some t)))
    (hno : Follows i depth least p' (q none)) (hm : least ≤ more + 1) :
    Follows i depth least (do if ← accept wanted then previous >>= f else p')
      (Parser.accept wanted >>= q) := by
  refine ⟨fun {tape} ht => ?_⟩
  have hnext : tape.next.position = tape.position + 1 := rfl
  cases hkind : wanted (i.token tape.position).kind with
  | true =>
    have hlt := lt_stop_of_wanted ht wanted hw hkind
    rw [bind_ok (accept_run ht wanted hw hkind), bind_ok (parserAccept_run hkind), if_pos rfl,
      bind_ok (previous_run ht)]
    exact ((hyes _).run (ht.next hlt)).mono (Nat.le_succ _) (by omega)
  | false =>
    rw [bind_ok (accept_run_not ht wanted hkind), bind_ok (parserAccept_run_not hkind)]
    exact hno.run ht

theorem follows_complain (t : Token) (c : Complaint) :
    Follows i depth 0 (complain t c) (Parser.complain t c) :=
  ⟨fun ht => .ok ⟨ht.tokens, ht.position, ht.furthest, ht.loopDepth⟩ (Nat.le_refl _)
    (Nat.min_le_left _ _)⟩

end Steps

end Lox.Tree
