/-
What parsers read, as relations on tokens.

A quiet run of a parser moves a cursor over some tokens and gives a result.
`Denotes p D` says that the quiet runs of `p` are exactly those that `D`
describes: `D ts a c` holds when `p` reads the tokens `ts`, gives `a` and leaves
the cursor at `c`.  Relations for larger parsers are put together from those of
their parts, so that a parser can be compared with a grammar without any more
talk of its state.

* `Denotes` — what a parser reads;
* `Denotes.bind` — one parser after another;
* `denotes_expect`, `denotes_skips`, `denotes_accept` — single tokens;
* `denotes_commaList` — items divided by commas.
-/
import Lox.Proofs.Grammar
import Lox.Proofs.Quiet

namespace Lox.Tree

open Lox.Tree.Parser

namespace Cursor

/-- The cursor before other tokens. -/
def moved (c : Cursor) (ts : List Token) : Cursor :=
  { c with ahead := ts }

/-- The cursor before some tokens and what it is before now. -/
def back (c : Cursor) (ts : List Token) : Cursor :=
  c.moved (ts ++ c.ahead)

/-- The last token is the end of the input. -/
def Ended (c : Cursor) : Prop :=
  c.last.kind = .endOfInput

@[simp] theorem back_nil (c : Cursor) : c.back [] = c := rfl

@[simp] theorem back_back (c : Cursor) (ts us : List Token) :
    (c.back us).back ts = c.back (ts ++ us) := by
  simp [back, moved]

@[simp] theorem ended_back (c : Cursor) (ts : List Token) : (c.back ts).Ended ↔ c.Ended :=
  Iff.rfl

@[simp] theorem current_back_cons (c : Cursor) (t : Token) (ts : List Token) :
    (c.back (t :: ts)).current = t := rfl

@[simp] theorem ahead_back (c : Cursor) (ts : List Token) :
    (c.back ts).ahead = ts ++ c.ahead := rfl

end Cursor

/-- The quiet runs of `p` are those that `D` describes: over the tokens `ts` with
the result `a`, to the cursor `c`. -/
structure Denotes {α : Type} (p : Parser α) (D : List Token → α → Cursor → Prop) :
    Prop where
  sound : Sound p fun c a c' => c.Ended → ∃ ts, c = c'.back ts ∧ D ts a c'
  complete : ∀ {ts a c}, c.Ended → D ts a c → Quiet p (c.back ts) a c

namespace Denotes

variable {α β : Type} {D D' : List Token → α → Cursor → Prop}

theorem imp {p : Parser α} {E : List Token → α → Cursor → Prop} (h : Denotes p D)
    (hD : ∀ {ts a c}, c.Ended → (D ts a c ↔ E ts a c)) : Denotes p E := by
  refine ⟨h.sound.imp fun {c a c'} hR hc => ?_, fun hc hd => h.complete hc ((hD hc).mpr hd)⟩
  obtain ⟨ts, rfl, hd⟩ := hR hc
  exact ⟨ts, rfl, (hD (c := c') hc).mp hd⟩

theorem pure (a : α) :
    Denotes (pure a) fun ts b _ => ts = [] ∧ b = a := by
  refine ⟨(Sound.pure a).imp ?_, ?_⟩
  · rintro c b c' ⟨rfl, rfl⟩ _
    exact ⟨[], rfl, rfl, rfl⟩
  · rintro ts b c - ⟨rfl, rfl⟩
    exact Quiet.pure b c

theorem throw (e : Halt) : Denotes (throw e : Parser α) fun _ _ _ => False :=
  ⟨(Sound.throw e).imp fun h => h.elim, fun _ h => h.elim⟩

theorem bind {x : Parser α} {f : α → Parser β} {E : α → List Token → β → Cursor → Prop}
    (hx : Denotes x D) (hf : ∀ a, Denotes (f a) (E a)) :
    Denotes (x >>= f) fun ts b c =>
      ∃ us a vs, ts = us ++ vs ∧ D us a (c.back vs) ∧ E a vs b c := by
  refine ⟨(hx.sound.bind fun a => (hf a).sound).imp ?_, ?_⟩
  · rintro c b c' ⟨a, t, hxa, hfb⟩ hc
    obtain ⟨us, rfl, hd⟩ := hxa hc
    obtain ⟨vs, rfl, he⟩ := hfb hc
    exact ⟨us ++ vs, by simp, us, a, vs, rfl, hd, he⟩
  · rintro ts b c hc ⟨us, a, vs, rfl, hd, he⟩
    rw [← Cursor.back_back]
    exact (hx.complete (c := c.back vs) hc hd).bind ((hf a).complete hc he)

theorem map {x : Parser α} (f : α → β) (hx : Denotes x D) :
    Denotes (f <$> x) fun ts b c => ∃ a, D ts a c ∧ b = f a := by
  refine ⟨(hx.sound.map f).imp ?_, ?_⟩
  · rintro c b c' ⟨a, hxa, rfl⟩ hc
    obtain ⟨ts, rfl, hd⟩ := hxa hc
    exact ⟨ts, rfl, a, hd, rfl⟩
  · rintro ts b c hc ⟨a, hd, rfl⟩
    exact (hx.complete hc hd).map f

theorem ite {c : Prop} [Decidable c] {x y : Parser α} (hx : Denotes x D)
    (hy : Denotes y D') :
    Denotes (if c then x else y) fun ts a t => c ∧ D ts a t ∨ ¬c ∧ D' ts a t := by
  by_cases hc : c
  · rw [if_pos hc]
    exact hx.imp fun _ => by simp [hc]
  · rw [if_neg hc]
    exact hy.imp fun _ => by simp [hc]

end Denotes

/-! ### Single tokens -/

theorem denotes_get : Denotes get fun ts c c' => ts = [] ∧ c = c' := by
  refine ⟨Sound.get.imp ?_, ?_⟩
  · rintro c a c' ⟨rfl, rfl⟩ _
    exact ⟨[], rfl, rfl, rfl⟩
  · rintro ts a c - ⟨rfl, rfl⟩
    exact Quiet.get a

theorem denotes_peek : Denotes peek fun ts t c => ts = [] ∧ t = c.current := by
  refine (denotes_get.bind fun c => .pure _).imp fun _ => ?_
  constructor
  · rintro ⟨us, a, vs, rfl, ⟨rfl, rfl⟩, rfl, rfl⟩
    exact ⟨rfl, rfl⟩
  · rintro ⟨rfl, rfl⟩
    exact ⟨[], _, [], rfl, ⟨rfl, rfl⟩, rfl, rfl⟩

/-- The end of the input is read again and again. -/
theorem denotes_advance : Denotes advance fun ts t c =>
    ts = [t] ∨ ts = [] ∧ t = c.last ∧ c.ahead = [] := by
  refine ⟨⟨fun c => .refl c.report, ?_⟩, ?_⟩
  · rintro ⟨ahead, last, listing, report⟩ t c' ⟨h, -⟩ hc
    cases h
    cases ahead with
    | nil => exact ⟨[], rfl, .inr ⟨rfl, rfl, rfl⟩⟩
    | cons t rest => exact ⟨[t], rfl, .inl rfl⟩
  · rintro ts t ⟨ahead, last, listing, report⟩ - (rfl | ⟨rfl, rfl, rfl⟩)
    · exact ⟨rfl, rfl⟩
    · exact ⟨rfl, rfl⟩

theorem denotes_accept (wanted : Token.Kind → Bool) (hw : wanted .endOfInput = false) :
    Denotes (accept wanted) fun ts o c =>
      (∃ t, ts = [t] ∧ o = some t ∧ wanted t.kind) ∨
        ts = [] ∧ o = none ∧ wanted c.current.kind = false := by
  refine (denotes_peek.bind fun t => .ite (denotes_advance.map some) (.pure none)).imp ?_
  intro ts o c hc
  constructor
  · rintro ⟨us, t, vs, rfl, ⟨rfl, rfl⟩, ⟨hk, t', (rfl | ⟨rfl, rfl, ha⟩), rfl⟩ | ⟨hk, rfl, rfl⟩⟩
    · exact .inl ⟨t', rfl, rfl, hk⟩
    · rw [Cursor.back_nil, Cursor.current, ha, List.headD_nil, hc, hw] at hk
      exact absurd hk (by simp)
    · exact .inr ⟨rfl, rfl, by simpa using hk⟩
  · rintro (⟨t, rfl, rfl, hk⟩ | ⟨rfl, rfl, hk⟩)
    · exact ⟨[], t, [t], rfl, ⟨rfl, rfl⟩, .inl ⟨hk, t, .inl rfl, rfl⟩⟩
    · exact ⟨[], _, [], rfl, ⟨rfl, rfl⟩, .inr ⟨by simpa using hk, rfl, rfl⟩⟩

theorem denotes_skips {k : Token.Kind} (hk : k ≠ .endOfInput) :
    Denotes (skips k) fun ts b c =>
      (∃ t, ts = [t] ∧ b = true ∧ t.kind = k) ∨
        ts = [] ∧ b = false ∧ c.current.kind ≠ k := by
  refine (denotes_get.bind fun t =>
    .ite (denotes_advance.bind fun _ => .pure true) (.pure false)).imp ?_
  intro ts b c hc
  constructor
  · rintro ⟨us, t, vs, rfl, ⟨rfl, rfl⟩, ⟨hs, ws, t', xs, rfl, ht, rfl, rfl⟩ | ⟨hs, rfl, rfl⟩⟩
    · simp only [Cursor.sees, beq_iff_eq] at hs
      rcases ht with rfl | ⟨rfl, rfl, ha⟩
      · exact .inl ⟨t', rfl, rfl, hs⟩
      · rw [List.append_nil, Cursor.back_nil, Cursor.current,
          show c.ahead = [] from ha, List.headD_nil, hc] at hs
        exact absurd hs.symm hk
    · exact .inr ⟨rfl, rfl, by simpa [Cursor.sees] using hs⟩
  · rintro (⟨t, rfl, rfl, ht⟩ | ⟨rfl, rfl, ht⟩)
    · exact ⟨[], _, [t], rfl, ⟨rfl, rfl⟩,
        .inl ⟨by simp [Cursor.sees, ht], [t], t, [], rfl, .inl rfl, rfl, rfl⟩⟩
    · exact ⟨[], _, [], rfl, ⟨rfl, rfl⟩, .inr ⟨by simpa [Cursor.sees] using ht, rfl, rfl⟩⟩

theorem denotes_expect {k : Token.Kind} (hk : k ≠ .endOfInput) (text : String) :
    Denotes (expect k text) fun ts t _ => ts = [t] ∧ t.kind = k := by
  refine (denotes_peek.bind fun t => .ite denotes_advance (.throw _)).imp ?_
  intro ts t c hc
  constructor
  · rintro ⟨us, t', vs, rfl, ⟨rfl, rfl⟩, ⟨hs, rfl | ⟨rfl, rfl, ha⟩⟩ | ⟨-, hf⟩⟩
    · exact ⟨rfl, by simpa using hs⟩
    · rw [Cursor.back_nil, Cursor.current, ha, List.headD_nil, hc, beq_iff_eq] at hs
      exact absurd hs.symm hk
    · exact hf.elim
  · rintro ⟨rfl, ht⟩
    exact ⟨[], t, [t], rfl, ⟨rfl, rfl⟩, .inl ⟨by simpa using ht, .inl rfl⟩⟩

/-- A token of one kind, and then something else. -/
theorem Denotes.expect {α : Type} {f : Token → Parser α}
    {E : Token → List Token → α → Cursor → Prop} {k : Token.Kind} (hk : k ≠ .endOfInput)
    (text : String) (hf : ∀ t, Denotes (f t) (E t)) :
    Denotes (Parser.expect k text >>= f) fun ts a c =>
      ∃ t us, ts = t :: us ∧ t.kind = k ∧ E t us a c := by
  refine ((denotes_expect hk text).bind hf).imp fun _ => ?_
  constructor
  · rintro ⟨us, t, vs, rfl, ⟨rfl, ht⟩, he⟩
    exact ⟨t, vs, rfl, ht, he⟩
  · rintro ⟨t, us, rfl, ht, he⟩
    exact ⟨[t], t, us, rfl, ⟨rfl, ht⟩, he⟩

/-- Two ways to go on, chosen by whether the next token has a kind. -/
theorem Denotes.skips {α : Type} {p q : Parser α} {D D' : List Token → α → Cursor → Prop}
    {k : Token.Kind} (hk : k ≠ .endOfInput) (hp : Denotes p D) (hq : Denotes q D') :
    Denotes (do if ← Parser.skips k then p else q) fun ts a c =>
      (∃ t us, ts = t :: us ∧ t.kind = k ∧ D us a c) ∨
        (c.back ts).current.kind ≠ k ∧ D' ts a c := by
  refine ((denotes_skips hk).bind fun b => .ite (c := b = true) hp hq).imp fun _ => ?_
  constructor
  · rintro ⟨_, b, us, rfl, ⟨t, rfl, rfl, ht⟩ | ⟨rfl, rfl, ht⟩, ⟨hb, h⟩ | ⟨hb, h⟩⟩
    · exact .inl ⟨t, us, rfl, ht, h⟩
    · exact absurd rfl hb
    · exact absurd hb (by simp)
    · exact .inr ⟨ht, h⟩
  · rintro (⟨t, us, rfl, ht, h⟩ | ⟨ht, h⟩)
    · exact ⟨[t], true, us, rfl, .inl ⟨t, rfl, rfl, ht⟩, .inl ⟨rfl, h⟩⟩
    · exact ⟨[], false, _, rfl, .inr ⟨rfl, rfl, ht⟩, .inr ⟨by simp, h⟩⟩

/-- Something that is closed by a token of one kind. -/
theorem Denotes.closed {α β : Type} {p : Parser α} {D : List Token → α → Cursor → Prop}
    {k : Token.Kind} (hp : Denotes p D) (hk : k ≠ .endOfInput) (text : String)
    (f : α → Token → β) :
    Denotes (do let a ← p; let t ← Parser.expect k text; return f a t) fun ts b c =>
      ∃ us t a, ts = us ++ [t] ∧ D us a (c.back [t]) ∧ t.kind = k ∧ b = f a t := by
  refine (hp.bind fun a => .expect hk text fun t => .pure (f a t)).imp fun _ => ?_
  constructor
  · rintro ⟨us, a, _, rfl, hd, t, _, rfl, ht, rfl, rfl⟩
    exact ⟨us, t, a, rfl, hd, ht, rfl⟩
  · rintro ⟨us, t, a, rfl, hd, ht, rfl⟩
    exact ⟨us, a, [t], rfl, hd, t, [], rfl, ht, rfl, rfl⟩

/-- What is left to read after a token is taken that was looked at before. -/
def Taken (E : List Token → Prop) (ts : List Token) (c : Cursor) : Prop :=
  ∃ us a vs, ts = us ++ vs ∧
    (us = [a] ∨ us = [] ∧ a = (c.back vs).last ∧ (c.back vs).ahead = []) ∧ E vs

theorem taken_iff {E : List Token → Prop} {ts : List Token} {c : Cursor} (hc : c.Ended)
    (hk : (c.back ts).current.kind ≠ .endOfInput) :
    Taken E ts c ↔ ∃ vs, ts = (c.back ts).current :: vs ∧ E vs := by
  constructor
  · rintro ⟨us, a, vs, rfl, rfl | ⟨rfl, rfl, ha⟩, he⟩
    · exact ⟨vs, rfl, he⟩
    · exfalso
      apply hk
      rw [List.nil_append, Cursor.current, ha]
      exact hc
  · rintro ⟨vs, hts, he⟩
    exact ⟨[_], _, vs, hts, .inl rfl, he⟩

/-- A token that was looked at before, and then something else. -/
theorem Denotes.advance {α : Type} {p : Parser α} {D : List Token → α → Cursor → Prop}
    (hp : Denotes p D) :
    Denotes (Parser.advance >>= fun _ => p) fun ts a c => Taken (fun us => D us a c) ts c :=
  denotes_advance.bind fun _ => hp

/-- A complaint is never quiet. -/
theorem denotes_complain (t : Token) (w : Complaint) :
    Denotes (complain t w) fun _ _ _ => False := by
  refine ⟨⟨fun c => .add c.report (Complaint.static _ _ _), ?_⟩, fun _ h => h.elim⟩
  rintro c a c' ⟨h, hr⟩ -
  cases h
  exact absurd hr (Report.add_ne _ _)

/-- What is reported of a stop. -/
def Halt.diagnose (why : Halt) (c : Cursor) : Diagnostic :=
  match why with
  | .complaint t w => w.diagnose t c.listing
  | .tooDeep => Complaint.tooDeep.diagnose c.current c.listing

/-- A stop leaves one message more than there was at the stop. -/
theorem recovering_error {α : Type} {p : Parser α} {c c' : Cursor} {why : Halt}
    (h : p c = .error why c') : ∃ c'', recovering p c = .ok none c'' ∧
      c''.report = c'.report.add (why.diagnose c') := by
  unfold recovering
  rw [h]
  obtain ⟨ahead, last, listing, report⟩ := c'
  cases why <;> cases ahead <;> exact ⟨_, rfl, rfl⟩

/-- A parser that recovers is quiet where the parser itself is. -/
theorem denotes_recovering {α : Type} {p : Parser α} {D : List Token → α → Cursor → Prop}
    (hp : Denotes p D) :
    Denotes (recovering p) fun ts o c => ∃ a, o = some a ∧ D ts a c := by
  -- A parser that stopped has complained, so recovering from it is never quiet.
  have hstop : ∀ {c e c'}, p c = .error e c' → ∃ c'' d, recovering p c = .ok none c'' ∧
      d.Static ∧ c''.report = c'.report.add d := by
    intro c e c' h
    obtain ⟨c'', hrun, hr⟩ := recovering_error h
    refine ⟨c'', _, hrun, ?_, hr⟩
    cases e <;> exact Complaint.static _ _ _
  refine ⟨⟨fun c => ?_, ?_⟩, ?_⟩
  · have hgrows := hp.sound.grows c
    cases h : p c with
    | ok a c' =>
      rw [h] at hgrows
      simp only [recovering, h]
      exact hgrows
    | error e c' =>
      rw [h] at hgrows
      obtain ⟨c'', d, hrun, hd, hr⟩ := hstop h
      rw [hrun]
      change c.report.Extends c''.report
      rw [hr]
      exact hgrows.trans (.add _ hd)
  · rintro c o c' ⟨hrun, hr⟩ hc
    have hgrows := hp.sound.grows c
    cases h : p c with
    | ok a c'' =>
      simp only [recovering, h] at hrun
      cases hrun
      obtain ⟨ts, hts, hd⟩ := hp.sound.quiet ⟨h, hr⟩ hc
      exact ⟨ts, hts, a, rfl, hd⟩
    | error e c'' =>
      rw [h] at hgrows
      obtain ⟨c₃, d, hrun', hsev, hr'⟩ := hstop h
      rw [hrun] at hrun'
      cases hrun'
      have hback : (c''.report).Extends c.report := by
        rw [← show c'.report = c.report from hr, hr']
        exact .add _ hsev
      have he : c.report = c''.report := hgrows.antisymm hback
      exact absurd (hr'.symm.trans (hr.trans he)) (Report.add_ne _ d)
  · rintro ts o c hc ⟨a, rfl, hd⟩
    obtain ⟨hrun, hr⟩ := hp.complete hc hd
    exact ⟨by simp only [recovering, hrun], hr⟩

/-! ### Lists -/

/-- Items divided by commas, each read with what follows it in view; no comma
follows the last. -/
inductive Items {α : Type} (I : List Token → α → Cursor → Prop) :
    List Token → List α → Cursor → Prop
  | last {ts : List Token} {a : α} {c : Cursor} (ha : I ts a c)
      (hc : c.current.kind ≠ .comma) : Items I ts [a] c
  | more {ts us : List Token} {comma : Token} {a : α} {as : List α} {c : Cursor}
      (ha : I ts a (c.back (comma :: us))) (hk : comma.kind = .comma)
      (hs : Items I us as c) : Items I (ts ++ comma :: us) (a :: as) c

section CommaList

variable {α : Type} {item : Parser α} {I : List Token → α → Cursor → Prop}

/-- What is left of a list of items after those already found. -/
def FurtherItems (I : List Token → α → Cursor → Prop) (fuel : Nat) (found : Array α)
    (ts : List Token) (as : List α) (c : Cursor) : Prop :=
  match fuel with
  | 0 => ts = [] ∧ as = found.toList
  | fuel + 1 => found.size < maxArguments ∧ ∃ us a vs, ts = us ++ vs ∧ I us a (c.back vs) ∧
      ((∃ comma ws, vs = comma :: ws ∧ comma.kind = .comma ∧
          FurtherItems I fuel (found.push a) ws as c) ∨
        vs = [] ∧ as = (found.push a).toList ∧ c.current.kind ≠ .comma)

theorem denotes_commaListFrom (what : String) (hi : Denotes item I) (fuel : Nat) :
    ∀ found, Denotes (commaListFrom what item fuel found) (FurtherItems I fuel found) := by
  -- By induction on the budget.  A list with too many items is complained about, so a quiet
  -- run has none.
  induction fuel with
  | zero => exact fun found => .pure _
  | succ fuel ih =>
    intro found
    have hrest := hi.bind fun a => (denotes_skips (k := .comma) (by decide)).bind fun b =>
      .ite (c := b = true) (ih (found.push a)) (.pure (found.push a).toList)
    have hall := Denotes.ite (c := maxArguments ≤ found.size)
      (denotes_peek.bind fun t => (denotes_complain t (.tooMany what)).bind fun _ => hrest) hrest
    refine hall.imp ?_
    intro ts as c hc
    constructor
    · rintro (⟨-, us, t, vs, -, -, ws, -, xs, -, hf, -⟩ | ⟨hlt, us, a, vs, rfl, ha, hcomma⟩)
      · exact hf.elim
      · refine ⟨Nat.lt_of_not_le hlt, us, a, vs, rfl, ha, ?_⟩
        rcases hcomma with ⟨ws, b, xs, rfl, ⟨comma, rfl, rfl, hk⟩ | ⟨rfl, rfl, hk⟩,
          ⟨hb, hr⟩ | ⟨hb, hr⟩⟩
        · exact .inl ⟨comma, xs, rfl, hk, hr⟩
        · exact absurd rfl hb
        · exact absurd hb (by simp)
        · obtain ⟨rfl, rfl⟩ := hr
          exact .inr ⟨rfl, rfl, hk⟩
    · rintro ⟨hlt, us, a, vs, rfl, ha, ⟨comma, ws, rfl, hk, hr⟩ | ⟨rfl, rfl, hk⟩⟩
      · exact .inr ⟨Nat.not_le.mpr hlt, us, a, comma :: ws, rfl, ha, [comma], true, ws, rfl,
          .inl ⟨comma, rfl, rfl, hk⟩, .inl ⟨rfl, hr⟩⟩
      · exact .inr ⟨Nat.not_le.mpr hlt, us, a, [], rfl, ha, [], false, [], rfl,
          .inr ⟨rfl, rfl, hk⟩, .inr ⟨by simp, rfl, rfl⟩⟩

/-- With fuel for every token, the items are all that there are up to the
greatest number. -/
theorem furtherItems_iff {fuel : Nat} : ∀ {found : Array α} {ts : List Token} {as : List α}
    {c : Cursor}, ts.length < fuel →
    (FurtherItems I fuel found ts as c ↔
      ∃ bs, as = found.toList ++ bs ∧ as.length ≤ maxArguments ∧ Items I ts bs c) := by
  -- By induction on the budget, which is more than the number of tokens.
  induction fuel with
  | zero => exact fun h => absurd h (Nat.not_lt_zero _)
  | succ fuel ih =>
    intro found ts as c hlen
    constructor
    · rintro ⟨hlt, us, a, vs, rfl, ha, ⟨comma, ws, rfl, hk, hr⟩ | ⟨rfl, rfl, hk⟩⟩
      · simp only [List.length_append, List.length_cons] at hlen
        obtain ⟨bs, rfl, hmax, hbs⟩ := (ih (by omega)).mp hr
        exact ⟨a :: bs, by simp, hmax, .more ha hk hbs⟩
      · refine ⟨[a], by simp, ?_, ?_⟩
        · simpa [Nat.succ_le_iff] using hlt
        · rw [List.append_nil]
          exact .last ha hk
    · rintro ⟨bs, rfl, hmax, hbs⟩
      cases hbs with
      | last ha hk =>
        simp only [List.length_append, Array.length_toList, List.length_singleton] at hmax
        exact ⟨hmax, ts, _, [], by simp, ha, .inr ⟨rfl, by simp, hk⟩⟩
      | more ha hk hs =>
        simp only [List.length_append, List.length_cons, Array.length_toList] at hlen hmax
        refine ⟨by omega, _, _, _, rfl, ha, .inl ⟨_, _, rfl, hk, ?_⟩⟩
        refine (ih (by omega)).mpr ⟨_, by simp, ?_, hs⟩
        simp only [List.length_append, List.length_cons, Array.length_toList]
        exact hmax

theorem denotes_commaList (what : String) (hi : Denotes item I) :
    Denotes (commaList what item) fun ts as c =>
      ts = [] ∧ as = [] ∧ c.current.kind = .rightParen ∨
        (c.back ts).current.kind ≠ .rightParen ∧ as.length ≤ maxArguments ∧ Items I ts as c := by
  refine (denotes_get.bind fun c => Denotes.ite (c := c.sees .rightParen = true) (.pure [])
    (denotes_get.bind fun c' =>
      denotes_commaListFrom what hi (c'.ahead.length + 1) #[])).imp ?_
  intro ts as c hc
  constructor
  · rintro ⟨us, c₀, vs, rfl, ⟨rfl, rfl⟩, ⟨hs, rfl, rfl⟩ | ⟨hs, ws, c₁, xs, rfl, ⟨rfl, rfl⟩, hr⟩⟩
    · exact .inl ⟨rfl, rfl, by simpa [Cursor.sees] using hs⟩
    · obtain ⟨bs, rfl, hmax, hbs⟩ :=
        (furtherItems_iff (by simp only [Cursor.ahead_back, List.length_append]; omega)).mp hr
      exact .inr ⟨by simpa [Cursor.sees] using hs, hmax, by simpa using hbs⟩
  · rintro (⟨rfl, rfl, hk⟩ | ⟨hk, hmax, hbs⟩)
    · exact ⟨[], _, [], rfl, ⟨rfl, rfl⟩, .inl ⟨by simpa [Cursor.sees] using hk, rfl, rfl⟩⟩
    · refine ⟨[], _, ts, rfl, ⟨rfl, rfl⟩, .inr ⟨by simpa [Cursor.sees] using hk,
        [], _, ts, rfl, ⟨rfl, rfl⟩, ?_⟩⟩
      exact (furtherItems_iff (by simp only [Cursor.ahead_back, List.length_append]; omega)).mpr
        ⟨as, by simp, hmax, hbs⟩

/-- Items that only have to be followed by something suitable, as a list with
commas between them. -/
theorem items_iff_separated {P : List Token → α → Prop} {F : Token.Kind → Prop}
    (hF : F .comma) {ts : List Token} {as : List α} {c : Cursor} :
    Items (fun ts a c => P ts a ∧ F c.current.kind) ts as c ↔
      ∃ items : List (List Token × α), items ≠ [] ∧ items.map Prod.snd = as ∧
        Separated (items.map Prod.fst) ts ∧ (∀ i ∈ items, P i.1 i.2) ∧
        F c.current.kind ∧ c.current.kind ≠ .comma := by
  constructor
  · intro h
    induction h with
    | last ha hc => exact ⟨[(_, _)], by simp, rfl, .last, by simpa using ha.1, ha.2, hc⟩
    | more ha hk hs ih =>
      obtain ⟨items, hne, rfl, hsep, hall, hlast⟩ := ih
      obtain ⟨i, items, rfl⟩ := List.exists_cons_of_ne_nil hne
      refine ⟨(_, _) :: i :: items, by simp, rfl, .more hk hsep, ?_, hlast⟩
      intro j hj
      rcases List.mem_cons.mp hj with rfl | hj
      · exact ha.1
      · exact hall j hj
  · rintro ⟨items, hne, rfl, hsep, hall, hlast⟩
    -- By induction on the items; every item but the last has a comma behind it.
    induction items generalizing ts with
    | nil => exact absurd rfl hne
    | cons i items ih =>
      have hi := hall i (by simp)
      cases items with
      | nil =>
        cases hsep
        exact .last ⟨hi, hlast.1⟩ hlast.2
      | cons j items =>
        cases hsep with
        | more hk hs =>
          refine .more ⟨hi, ?_⟩ hk (ih (by simp) hs fun k hk => hall k (by simp [hk]))
          rw [Cursor.current_back_cons, hk]
          exact hF

end CommaList

/-! ### Loops -/

section Loop

variable {τ β : Type} {Step : τ → List Token → τ → Cursor → Prop} {Stop : Cursor → Prop}

/-- Steps that each read some tokens and change what was read so far, until
nothing more is to be read. -/
inductive Loop (Step : τ → List Token → τ → Cursor → Prop) (Stop : Cursor → Prop) :
    τ → List Token → τ → Cursor → Prop
  | done {x : τ} {c : Cursor} (hc : Stop c) : Loop Step Stop x [] x c
  | step {x y z : τ} {ts us : List Token} {c : Cursor} (hx : Step x ts y (c.back us))
      (hy : Loop Step Stop y us z c) : Loop Step Stop x (ts ++ us) z c

/-- The turns of a loop that takes at most `fuel` of them. -/
def Turns (Step : τ → List Token → τ → Cursor → Prop) (Stop : Cursor → Prop)
    (out : τ → β) (fuel : Nat) (x : τ) (ts : List Token) (b : β) (c : Cursor) : Prop :=
  match fuel with
  | 0 => ts = [] ∧ b = out x
  | fuel + 1 =>
    (∃ us y vs, ts = us ++ vs ∧ Step x us y (c.back vs) ∧ Turns Step Stop out fuel y vs b c) ∨
      ts = [] ∧ b = out x ∧ Stop c

/-- A loop whose steps read at least one token and that stops at the end of the
input does not run out of fuel. -/
theorem turns_iff_loop {out : τ → β} (hstep : ∀ {x ts y c}, Step x ts y c → ts ≠ [])
    (hstop : ∀ {c : Cursor}, c.Ended → c.ahead = [] → Stop c) {fuel : Nat} :
    ∀ {x : τ} {ts : List Token} {b : β} {c : Cursor}, c.Ended →
      (c.back ts).ahead.length ≤ fuel →
      (Turns Step Stop out fuel x ts b c ↔ ∃ y, b = out y ∧ Loop Step Stop x ts y c) := by
  -- By induction on the budget.  A step takes a token, so the budget is enough.
  induction fuel with
  | zero =>
    intro x ts b c hc hlen
    -- Without a token ahead the loop has stopped already.
    obtain ⟨hts, ha⟩ : ts = [] ∧ c.ahead = [] := by simpa using hlen
    subst hts
    constructor
    · rintro ⟨-, rfl⟩
      exact ⟨x, rfl, .done (hstop hc ha)⟩
    · rintro ⟨y, rfl, hl⟩
      generalize hts : ([] : List Token) = ts at hl
      cases hl with
      | done _ => exact ⟨rfl, rfl⟩
      | step hx _ => exact absurd (List.append_eq_nil_iff.mp hts.symm).1 (hstep hx)
  | succ fuel ih =>
    intro x ts b c hc hlen
    constructor
    · rintro (⟨us, y, vs, rfl, hx, hy⟩ | ⟨rfl, rfl, hs⟩)
      · have hpos := List.length_pos_iff.mpr (hstep hx)
        simp only [Cursor.ahead_back, List.length_append] at hlen
        obtain ⟨z, rfl, hz⟩ :=
          (ih hc (by simp only [Cursor.ahead_back, List.length_append]; omega)).mp hy
        exact ⟨z, rfl, .step hx hz⟩
      · exact ⟨x, rfl, .done hs⟩
    · rintro ⟨y, rfl, hl⟩
      cases hl with
      | done hs => exact .inr ⟨rfl, rfl, hs⟩
      | step hx hy =>
        have hpos := List.length_pos_iff.mpr (hstep hx)
        simp only [Cursor.ahead_back, List.length_append] at hlen
        refine .inl ⟨_, _, _, rfl, hx, ?_⟩
        exact (ih hc (by simp only [Cursor.ahead_back, List.length_append]; omega)).mpr
          ⟨_, rfl, hy⟩

end Loop

/-- An operand, and then a loop that only runs if a suitable token follows. -/
theorem denotes_loopAfter {α : Type} {test : Token.Kind → Bool} {operand : Parser α}
    {loop : Nat → α → Parser α} {D : List Token → α → Cursor → Prop}
    {Step : α → List Token → α → Cursor → Prop} (ho : Denotes operand D)
    (hl : ∀ fuel a, Denotes (loop fuel a)
      (Turns Step (fun c => test c.current.kind = false) id fuel a))
    (hs : ∀ {a ts b c}, Step a ts b c → ∃ t us, ts = t :: us ∧ test t.kind)
    (he : test .endOfInput = false) :
    Denotes (do
        let a ← operand
        if test (← peek).kind then loop (← get).ahead.length a else pure a)
      fun ts b c => ∃ us a vs, ts = us ++ vs ∧ D us a (c.back vs) ∧
        Loop Step (fun c => test c.current.kind = false) a vs b c := by
  refine (ho.bind fun a => denotes_peek.bind fun t => .ite (c := test t.kind = true)
    (denotes_get.bind fun c => hl c.ahead.length a) (.pure a)).imp ?_
  intro ts b c hc
  -- The budget is the number of tokens ahead, so it does not show.
  have hturns : ∀ a vs, Turns Step (fun c => test c.current.kind = false) id
      (c.back vs).ahead.length a vs b c ↔
      ∃ d, b = id d ∧ Loop Step (fun c => test c.current.kind = false) a vs d c := by
    refine fun a vs => turns_iff_loop (fun {_ _ _ _} h => ?_) (fun {c} hc ha => ?_) hc
      (Nat.le_refl _)
    · obtain ⟨t, us, rfl, -⟩ := hs h
      simp
    · rw [Cursor.current, ha, List.headD_nil, hc, he]
  constructor
  · rintro ⟨us, a, vs, rfl, hd, _, t, ws, rfl, ⟨rfl, rfl⟩, ⟨hk, h⟩ | ⟨hk, rfl, rfl⟩⟩
    · obtain ⟨_, _, xs, rfl, ⟨rfl, rfl⟩, ht⟩ := h
      obtain ⟨_, rfl, hl⟩ := (hturns a xs).mp ht
      exact ⟨us, a, xs, rfl, hd, hl⟩
    · exact ⟨us, b, [], rfl, hd, .done (by simpa using hk)⟩
  · rintro ⟨us, a, vs, rfl, hd, hl⟩
    refine ⟨us, a, vs, rfl, hd, [], _, vs, rfl, ⟨rfl, rfl⟩, ?_⟩
    by_cases hk : test (c.back vs).current.kind
    · exact .inl ⟨hk, [], _, vs, rfl, ⟨rfl, rfl⟩, (hturns a vs).mpr ⟨b, rfl, hl⟩⟩
    · refine .inr ⟨hk, ?_⟩
      cases hl with
      | done _ => exact ⟨rfl, rfl⟩
      | step hstep _ =>
        obtain ⟨t, us, rfl, ht⟩ := hs hstep
        exact absurd ht hk

/-- One step of a repetition: a result is added to those already found. -/
def Repeated {α : Type} (more : Cursor → Bool) (S : List Token → α → Cursor → Prop)
    (found : Array α) (ts : List Token) (found' : Array α) (c : Cursor) : Prop :=
  more (c.back ts) ∧ ∃ a, S ts a c ∧ found' = found.push a

theorem denotes_many {α : Type} (more : Cursor → Bool) {step : Parser (Option α)}
    {S : List Token → α → Cursor → Prop}
    (hs : Denotes step fun ts o c => ∃ a, o = some a ∧ S ts a c)
    (hne : ∀ {ts a c}, S ts a c → ts ≠ [])
    (hend : ∀ {c : Cursor}, c.Ended → c.ahead = [] → more c = false) :
    Denotes (many more step) fun ts as c => ∃ found : Array α, as = found.toList ∧
      Loop (Repeated more S) (fun c => more c = false) #[] ts found c := by
  -- On any budget a run of the loop is so many turns.
  have hfrom : ∀ fuel found, Denotes (manyFrom more step fuel found)
      (Turns (Repeated more S) (fun c => more c = false) Array.toList fuel found) := by
    intro fuel
    induction fuel with
    | zero => exact fun found => .pure _
    | succ fuel ih =>
      intro found
      refine (denotes_get.bind fun c => Denotes.ite (c := more c = true)
        (hs.bind fun o => ih (o.elim found found.push)) (.pure found.toList)).imp ?_
      intro ts as c hc
      constructor
      · rintro ⟨us, c₀, vs, rfl, ⟨rfl, rfl⟩,
          ⟨hm, ws, o, xs, rfl, ⟨a, rfl, ha⟩, hr⟩ | ⟨hm, rfl, rfl⟩⟩
        · exact .inl ⟨ws, found.push a, xs, rfl, ⟨by simpa using hm, a, ha, rfl⟩, hr⟩
        · exact .inr ⟨rfl, rfl, by simpa using hm⟩
      · rintro (⟨us, y, vs, rfl, ⟨hm, a, ha, rfl⟩, hr⟩ | ⟨rfl, rfl, hm⟩)
        · exact ⟨[], _, us ++ vs, rfl, ⟨rfl, rfl⟩,
            .inl ⟨by simpa using hm, us, some a, vs, rfl, ⟨a, rfl, ha⟩, hr⟩⟩
        · exact ⟨[], _, [], rfl, ⟨rfl, rfl⟩, .inr ⟨by simpa using hm, rfl, rfl⟩⟩
  refine (denotes_get.bind fun c => hfrom c.ahead.length #[]).imp ?_
  intro ts as c hc
  have hturns : Turns (Repeated more S) (fun c => more c = false) Array.toList
      (c.back ts).ahead.length #[] ts as c ↔ _ :=
    turns_iff_loop (fun {_ _ _ _} h => hne h.2.choose_spec.1) hend hc (Nat.le_refl _)
  rw [← hturns]
  constructor
  · rintro ⟨us, c₀, vs, rfl, ⟨rfl, rfl⟩, hr⟩
    exact hr
  · exact fun hr => ⟨[], _, ts, rfl, ⟨rfl, rfl⟩, hr⟩

section Repeated

variable {α : Type} {more : Cursor → Bool} {S : List Token → α → Cursor → Prop}

/-- What a repetition reads, part by part. -/
theorem Loop.parts {found found' : Array α} {ts : List Token} {c : Cursor}
    (h : Loop (Repeated more S) (fun c => more c = false) found ts found' c) :
    more c = false ∧ ∃ parts : List (List Token × α), ts = (parts.map Prod.fst).flatten ∧
      found'.toList = found.toList ++ parts.map Prod.snd ∧ ∀ p ∈ parts, ∃ c', S p.1 p.2 c' := by
  induction h with
  | done hc => exact ⟨hc, [], rfl, by simp, by simp⟩
  | step hx _ ih =>
    obtain ⟨-, a, ha, rfl⟩ := hx
    obtain ⟨hc, parts, rfl, hfound, hall⟩ := ih
    refine ⟨hc, (_, a) :: parts, rfl, by simp [hfound], ?_⟩
    intro p hp
    rcases List.mem_cons.mp hp with rfl | hp
    · exact ⟨_, ha⟩
    · exact hall p hp

/-- Parts that each begin with a token `F` are read one after another, if such
tokens are wanted and may follow a part. -/
theorem loop_of_parts {P : List Token → α → Prop} {F N : Token.Kind → Prop} {c : Cursor}
    (hfirst : ∀ {ts a}, P ts a → ∃ t us, ts = t :: us ∧ F t.kind)
    (hmore : ∀ {t ts}, F t.kind → more (c.back (t :: ts)) = true)
    (hfollow : ∀ {k}, F k → N k) (hS : ∀ {ts a c}, P ts a → N c.current.kind → S ts a c)
    (hc : more c = false) (hN : N c.current.kind) :
    ∀ (parts : List (List Token × α)) (found : Array α), (∀ p ∈ parts, P p.1 p.2) →
      ∃ found', found'.toList = found.toList ++ parts.map Prod.snd ∧
        Loop (Repeated more S) (fun c => more c = false) found
          (parts.map Prod.fst).flatten found' c := by
  intro parts
  induction parts with
  | nil => exact fun _ _ => ⟨_, by simp, .done hc⟩
  | cons p parts ih =>
    intro found hall
    have hp := hall p (by simp)
    obtain ⟨found', hfound, hloop⟩ :=
      ih (found.push p.2) fun q hq => hall q (by simp [hq])
    refine ⟨found', by simp [hfound], .step ⟨?_, p.2, hS hp ?_, rfl⟩ hloop⟩
    · obtain ⟨t, us, hts, ht⟩ := hfirst hp
      rw [hts, Cursor.back_back]
      exact hmore ht
    · -- What follows is the next part, or what ends the repetition.
      cases parts with
      | nil => exact hN
      | cons q parts =>
        obtain ⟨t, us, hts, ht⟩ := hfirst (hall q (by simp))
        rw [List.map_cons, List.flatten_cons, hts]
        exact hfollow ht

end Repeated

end Lox.Tree
