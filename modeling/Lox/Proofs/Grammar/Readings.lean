/-
How many readings a text has, and how deep they are.

The rules by themselves let an `else` belong to any `if` before it that is still
without one.  That gives a text more trees, but no more texts: an `else` can
always be moved to the nearest `if`.

* `Sentence.attach` — an `else` after a statement that can take one is taken by
  the nearest `if`;
* `exists_program_nearest_iff` — the two readings derive the same texts;
* `Phrase.shallow`, `Sentence.shallow`, `Program.shallow` — ten frames for every
  token are enough.
-/
import Lox.Proofs.Grammar

namespace Lox.Tree

/-! ### Both readings derive the same texts -/

/-- What belongs to the nearest `if` belongs to some `if`. -/
theorem Sentence.loose {n : Nat} {k : Category} {inLoop : Bool} {ts : List Token} {s : Stmt}
    (h : Sentence true n k inLoop ts s) : Sentence false n k inLoop ts s := by
  induction h with
  | expression he hs => exact .expression he hs
  | print hk he hs => exact .print hk he hs
  | returned hk he hs => exact .returned hk he hs
  | broken hk hs => exact .broken hk hs
  | block hl _ hr ih => exact .block hl ih hr
  | whileDo hk hl he hr _ ih => exact .whileDo hk hl he hr ih
  | forDo hk hl hi hc hm he hr _ ih => exact .forDo hk hl hi hc hm he hr ih
  | ifAlone hk hl he hr _ ih => exact .ifAlone hk hl he hr ih
  | ifElse hk hl he hr _ _ ho _ ih ih' =>
    exact .ifElse hk hl he hr ih (fun h => nomatch h) ho ih'
  | varDecl hk hv => exact .varDecl hk hv
  | funDecl hk hr _ ih => exact .funDecl hk hr ih
  | classDecl hk hn hp hl hm _ hr ih => exact .classDecl hk hn hp hl hm ih hr
  | statement _ ih => exact .statement ih

/-- What can stand outside a loop can stand in one. -/
theorem Sentence.inLoop {nearest : Bool} {n : Nat} {k : Category} {inLoop : Bool}
    {ts : List Token} {s : Stmt} (h : Sentence nearest n k inLoop ts s) :
    Sentence nearest n k true ts s := by
  induction h with
  | expression he hs => exact .expression he hs
  | print hk he hs => exact .print hk he hs
  | returned hk he hs => exact .returned hk he hs
  | broken hk hs => exact .broken hk hs
  | block hl _ hr ih => exact .block hl ih hr
  | whileDo hk hl he hr _ ih => exact .whileDo hk hl he hr ih
  | forDo hk hl hi hc hm he hr _ ih => exact .forDo hk hl hi hc hm he hr ih
  | ifAlone hk hl he hr _ ih => exact .ifAlone hk hl he hr ih
  | ifElse hk hl he hr _ hn ho _ ih ih' => exact .ifElse hk hl he hr ih hn ho ih'
  | varDecl hk hv => exact .varDecl hk hv
  | funDecl hk hr hb _ => exact .funDecl hk hr hb
  | classDecl hk hn hp hl hm hb hr _ => exact .classDecl hk hn hp hl hm hb hr
  | statement _ ih => exact .statement ih

theorem Variable.mono {n n' : Nat} {ts : List Token} {s : Stmt} (h : Variable n ts s)
    (hn : n ≤ n') : Variable n' ts s := by
  induction hn with
  | refl => exact h
  | step _ ih => exact ih.succ

theorem Initializer.mono {n n' : Nat} {ts : List Token} {s : Option Stmt}
    (h : Initializer n ts s) (hn : n ≤ n') : Initializer n' ts s := by
  induction hn with
  | refl => exact h
  | step _ ih => exact ih.succ

theorem Optional.mono {n n' : Nat} {ts : List Token} {e : Option Expr}
    (h : Optional (Phrase n .assignment) ts e) (hn : n ≤ n') :
    Optional (Phrase n' .assignment) ts e := by
  induction hn with
  | refl => exact h
  | step _ ih => exact ih.succ

/-- An `else` after a statement that can take one is taken by the nearest `if`
in it. -/
theorem Sentence.attach {m : Nat} {k : Category} {inLoop : Bool} {us : List Token} {s : Stmt}
    (h : Sentence true m k inLoop us s) (hk : k = .statement true) {other : Token}
    (ho : other.kind = .elseKeyword) :
    ∀ {n : Nat} {o : Bool} {vs : List Token} {t : Stmt},
      Sentence true n (.statement o) inLoop vs t →
      ∃ n' o' t', Sentence true n' (.statement o') inLoop (us ++ other :: vs) t' := by
  induction h with
  | @whileDo m _ _ _ _ _ _ _ _ _ hw hl he hr _ ih =>
    intro n o vs t ht
    obtain ⟨n', o', t', h'⟩ := ih hk ht.inLoop
    simp only [List.cons_append, List.append_assoc]
    exact ⟨_, o', _, .whileDo hw hl (he.mono (Nat.le_max_left m n')) hr
      (h'.mono (Nat.le_max_right m n'))⟩
  | @forDo m _ _ _ _ _ _ _ _ _ _ _ _ _ _ hw hl hi hc hm he hr _ ih =>
    intro n o vs t ht
    obtain ⟨n', o', t', h'⟩ := ih hk ht.inLoop
    have hle := Nat.le_max_left m n'
    simp only [List.cons_append, List.append_assoc]
    exact ⟨_, o', _, .forDo hw hl (hi.mono hle) (hc.mono hle) hm (he.mono hle) hr
      (h'.mono (Nat.le_max_right m n'))⟩
  | @ifAlone m _ takesElse _ _ _ _ _ _ _ hw hl he hr hs ih =>
    intro n o vs t ht
    simp only [List.cons_append, List.append_assoc]
    cases takesElse with
    | true =>
      obtain ⟨n', o', t', h'⟩ := ih rfl ht
      exact ⟨_, true, _, .ifAlone hw hl (he.mono (Nat.le_max_left m n')) hr
        (h'.mono (Nat.le_max_right m n'))⟩
    | false =>
      -- The branch is closed, so this is the `if` that takes it.
      exact ⟨_, o, _, .ifElse hw hl (he.mono (Nat.le_max_left m n)) hr
        (hs.mono (Nat.le_max_left m n)) (fun _ => rfl) ho (ht.mono (Nat.le_max_right m n))⟩
  | @ifElse m _ _ _ _ _ _ _ _ _ _ _ _ _ hw hl he hr hs hn hother _ _ ih =>
    intro n o vs t ht
    obtain ⟨n', o', t', h'⟩ := ih hk ht
    simp only [List.cons_append, List.append_assoc]
    exact ⟨_, o', _, .ifElse hw hl (he.mono (Nat.le_max_left m n')) hr
      (hs.mono (Nat.le_max_left m n')) hn hother (h'.mono (Nat.le_max_right m n'))⟩
  | _ => cases hk

/-- Parts that have derivations have some with one bound. -/
theorem exists_parts {inLoop : Bool} : ∀ {parts : List (List Token × Stmt)},
    (∀ p ∈ parts, ∃ n s, Sentence true n .declaration inLoop p.1 s) →
    ∃ n, ∃ parts' : List (List Token × Stmt), parts'.map Prod.fst = parts.map Prod.fst ∧
      ∀ p ∈ parts', Sentence true n .declaration inLoop p.1 p.2 := by
  intro parts
  induction parts with
  | nil => exact fun _ => ⟨0, [], rfl, by simp⟩
  | cons p parts ih =>
    intro hall
    obtain ⟨n, s, hp⟩ := hall p (by simp)
    obtain ⟨n', parts', hfst, hall'⟩ := ih fun q hq => hall q (by simp [hq])
    refine ⟨max n n', (p.1, s) :: parts', by simp [hfst], ?_⟩
    intro q hq
    rcases List.mem_cons.mp hq with rfl | hq
    · exact hp.mono (Nat.le_max_left n n')
    · exact (hall' q hq).mono (Nat.le_max_right n n')

/-- A function with other trees for the declarations of its body. -/
theorem Routine.exists_body {r : Routine} (hr : r.Spelled)
    (hb : ∀ p ∈ r.body, ∃ n s, Sentence true n .declaration false p.1 s) :
    ∃ n, ∃ r' : Routine, r'.Spelled ∧ r'.tokens = r.tokens ∧
      ∀ p ∈ r'.body, Sentence true n .declaration false p.1 p.2 := by
  obtain ⟨n, body, hfst, hall⟩ := exists_parts hb
  refine ⟨n, { r with body }, ⟨hr.name, hr.leftParen, hr.params, hr.listed, hr.few, hr.rightParen,
    hr.leftBrace, hr.rightBrace⟩, ?_, hall⟩
  simp only [Routine.tokens, hfst]

theorem exists_routine_bodies : ∀ {methods : List Routine}, (∀ r ∈ methods, r.Spelled) →
    (∀ r ∈ methods, ∀ p ∈ r.body, ∃ n s, Sentence true n .declaration false p.1 s) →
    ∃ n, ∃ methods' : List Routine,
      methods'.map Routine.tokens = methods.map Routine.tokens ∧
      (∀ r ∈ methods', r.Spelled) ∧
      ∀ r ∈ methods', ∀ p ∈ r.body, Sentence true n .declaration false p.1 p.2 := by
  intro methods
  induction methods with
  | nil => exact fun _ _ => ⟨0, [], rfl, by simp, by simp⟩
  | cons r methods ih =>
    intro hs hb
    obtain ⟨n, r', hr', hts, hall⟩ := Routine.exists_body (hs r (by simp)) (hb r (by simp))
    obtain ⟨n', methods', htoks, hs', hb'⟩ :=
      ih (fun q hq => hs q (by simp [hq])) fun q hq => hb q (by simp [hq])
    refine ⟨max n n', r' :: methods', by simp [hts, htoks], ?_, ?_⟩
    · simpa using ⟨hr', hs'⟩
    · intro q hq p hp
      rcases List.mem_cons.mp hq with rfl | hq
      · exact (hall p hp).mono (Nat.le_max_left n n')
      · exact (hb' q hq p hp).mono (Nat.le_max_right n n')

/-- A text of a category has a reading with every `else` at the nearest `if`. -/
def Category.Readable (k : Category) (inLoop : Bool) (ts : List Token) : Prop :=
  match k with
  | .statement _ => ∃ n o s, Sentence true n (.statement o) inLoop ts s
  | .declaration => ∃ n s, Sentence true n .declaration inLoop ts s

theorem Sentence.readable {n : Nat} {k : Category} {inLoop : Bool} {ts : List Token}
    {s : Stmt} (h : Sentence false n k inLoop ts s) : k.Readable inLoop ts := by
  -- By induction on the loose derivation.  Frames are added up, and an `else` moves to the
  -- nearest `if` that is open.
  induction h with
  | expression he hs => exact ⟨_, _, _, .expression he hs⟩
  | print hk he hs => exact ⟨_, _, _, .print hk he hs⟩
  | returned hk he hs => exact ⟨_, _, _, .returned hk he hs⟩
  | broken hk hs => exact ⟨1, _, _, .broken hk hs⟩
  | block hl _ hr ih =>
    obtain ⟨n, parts, hfst, hall⟩ := exists_parts ih
    rw [← hfst]
    exact ⟨_, _, _, .block hl hall hr⟩
  | @whileDo m _ _ _ _ _ _ _ _ _ hk hl he hr _ ih =>
    obtain ⟨n, o, s, h⟩ := ih
    exact ⟨_, o, _, .whileDo hk hl (he.mono (Nat.le_max_left m n)) hr
      (h.mono (Nat.le_max_right m n))⟩
  | @forDo m _ _ _ _ _ _ _ _ _ _ _ _ _ _ hk hl hi hc hm he hr _ ih =>
    obtain ⟨n, o, s, h⟩ := ih
    have hle := Nat.le_max_left m n
    exact ⟨_, o, _, .forDo hk hl (hi.mono hle) (hc.mono hle) hm (he.mono hle) hr
      (h.mono (Nat.le_max_right m n))⟩
  | @ifAlone m _ _ _ _ _ _ _ _ _ hk hl he hr _ ih =>
    obtain ⟨n, o, s, h⟩ := ih
    exact ⟨_, true, _, .ifAlone hk hl (he.mono (Nat.le_max_left m n)) hr
      (h.mono (Nat.le_max_right m n))⟩
  | @ifElse m _ _ _ _ _ _ _ ts us vs _ _ _ hk hl he hr _ _ ho _ ih ih' =>
    obtain ⟨n, o, s, h⟩ := ih
    obtain ⟨n', o', s', h'⟩ := ih'
    cases o with
    -- The first branch is open, so the `else` is its own.
    | true =>
      obtain ⟨n'', o'', s'', h''⟩ := h.attach rfl ho h'
      exact ⟨_, true, _, .ifAlone hk hl (he.mono (Nat.le_max_left m n'')) hr
        (h''.mono (Nat.le_max_right m n''))⟩
    | false =>
      have hle : max n n' ≤ max m (max n n') := Nat.le_max_right _ _
      exact ⟨_, o', _, .ifElse hk hl (he.mono (Nat.le_max_left m (max n n'))) hr
        (h.mono (Nat.le_trans (Nat.le_max_left n n') hle)) (fun _ => rfl) ho
        (h'.mono (Nat.le_trans (Nat.le_max_right n n') hle))⟩
  | varDecl hk hv => exact ⟨_, _, .varDecl hk hv⟩
  | funDecl hk hr _ ih =>
    obtain ⟨n, r, hr, hts, hall⟩ := Routine.exists_body hr ih
    rw [← hts]
    exact ⟨_, _, .funDecl hk hr hall⟩
  | classDecl hk hn hp hl hm _ hr ih =>
    obtain ⟨n, methods, htoks, hm, hall⟩ := exists_routine_bodies hm ih
    rw [← htoks]
    exact ⟨_, _, .classDecl hk hn hp hl hm hall hr⟩
  | statement _ ih =>
    obtain ⟨n, o, s, h⟩ := ih
    exact ⟨_, _, .statement h⟩

/-- The two readings derive the same texts. -/
theorem exists_program_nearest_iff {ts : List Token} :
    (∃ n program, Program false n ts program) ↔ ∃ n program, Program true n ts program := by
  constructor
  · rintro ⟨n, program, parts, rfl, -, hall⟩
    obtain ⟨n', parts', hfst, hall'⟩ := exists_parts fun p hp => (hall p hp).readable
    exact ⟨n', _, parts', by rw [hfst], rfl, hall'⟩
  · rintro ⟨n, program, parts, rfl, hp, hall⟩
    exact ⟨n, program, parts, rfl, hp, fun p hp => (hall p hp).loose⟩

/-! ### Ten frames for every token -/

theorem Separated.length_le {items : List (List Token)} {ts : List Token}
    (h : Separated items ts) : ∀ item ∈ items, item.length ≤ ts.length := by
  induction h with
  | none => simp
  | last => simp
  | more _ _ ih =>
    intro item hi
    rcases List.mem_cons.mp hi with rfl | hi
    · simp
    · have := ih item hi
      simp only [List.length_append, List.length_cons]
      omega

theorem Phrase.length_pos {n : Nat} {l : Level} {ts : List Token} {e : Expr}
    (h : Phrase n l ts e) : 0 < ts.length := by
  obtain ⟨t, us, rfl, -⟩ := h.first
  simp

/-- Every token needs at most ten frames. -/
theorem Phrase.shallow {n : Nat} {l : Level} {ts : List Token} {e : Expr}
    (h : Phrase n l ts e) : Phrase (10 * ts.length + l.height) l ts e := by
  -- By induction on the phrase.  Ten levels fit between two tokens, so ten frames for each
  -- token and the height of the level are enough.
  induction h with
  | literal ht => exact .literal ht
  | this ht => exact .this ht
  | name ht => exact .name ht
  | super ht hd hm => exact .super ht hd hm
  | grouping hl _ hr ih =>
    refine (Phrase.grouping hl ih hr).mono ?_
    simp only [List.length_cons, List.length_append, Level.height]
    omega
  | @call n left right ts us e arguments he hl ha hs hm hr ih iha =>
    have hargs : ∀ a ∈ arguments, Phrase (10 * us.length + 9) .assignment a.1 a.2 := by
      intro a hmem
      refine (iha a hmem).mono ?_
      have := hs.length_le a.1 (List.mem_map_of_mem hmem)
      simp only [Level.height]
      omega
    have hpos := he.length_pos
    refine (Phrase.call (n := 10 * (ts.length + us.length) + 9) (ih.mono ?_) hl
      (fun a hmem => (hargs a hmem).mono (by omega)) hs hm hr).mono ?_
    · simp only [Level.height]
      omega
    · simp only [List.length_cons, List.length_append, Level.height]
      omega
  | get he hd hn ih =>
    have hpos := he.length_pos
    refine (Phrase.get (ih.mono (Nat.le_succ _)) hd hn).mono ?_
    simp only [List.length_cons, List.length_append, Level.height]
    omega
  | unary ho _ ih =>
    refine (Phrase.unary ho ih).mono ?_
    simp only [List.length_cons, Level.height]
    omega
  | @binary n l op ts us e r he ho hr ih ihr =>
    have hheight : l.next.height ≤ l.height := by
      cases l <;> decide
    refine (Phrase.binary (n := 10 * (ts.length + us.length) + l.height) (ih.mono (by omega)) ho
      (ihr.mono (by omega))).mono ?_
    simp only [List.length_cons, List.length_append]
    omega
  | assign hn hq _ _ ih =>
    refine (Phrase.assign hn hq ih (by simp [Level.height])).mono ?_
    simp only [List.length_cons, Level.height]
    omega
  | @set m n dot name equals ts us o e ho hd hn hq he hm iho ih =>
    have hn' : Phrase (10 * (ts.length + us.length) + 15) .assignment us e := by
      refine ih.mono ?_
      simp only [Level.height]
      omega
    have ho' : Phrase (10 * (ts.length + us.length) + 8) .call ts o := by
      refine iho.mono ?_
      simp only [Level.height]
      omega
    refine (Phrase.set ho' hd hn hq hn' rfl).mono ?_
    simp only [List.length_cons, List.length_append, Level.height]
    omega
  | @tighter n l ts e hl he ih =>
    refine (Phrase.tighter hl ih).mono ?_
    rw [Level.height_next hl]
    omega

theorem Variable.shallow {n : Nat} {ts : List Token} {s : Stmt} (h : Variable n ts s) :
    Variable (10 * ts.length) ts s := by
  cases h with
  | plain hn hs => exact .plain hn hs
  | initialized hn hq he hs =>
    refine .initialized hn hq (he.shallow.mono ?_) hs
    simp only [List.length_cons, List.length_append, Level.height]
    omega

theorem Initializer.shallow {n : Nat} {ts : List Token} {s : Option Stmt}
    (h : Initializer n ts s) : Initializer (10 * ts.length) ts s := by
  cases h with
  | absent hs => exact .absent hs
  | declared hk hv =>
    refine .declared hk (hv.shallow.mono ?_)
    simp only [List.length_cons]
    omega
  | expression he hs =>
    refine .expression (he.shallow.mono ?_) hs
    simp only [List.length_append, List.length_singleton, Level.height]
    omega

theorem Optional.shallow {n : Nat} {ts : List Token} {e : Option Expr}
    (h : Optional (Phrase n .assignment) ts e) :
    Optional (Phrase (10 * ts.length + 9) .assignment) ts e := by
  cases h with
  | absent => exact .absent
  | present h => exact .present h.shallow

theorem length_le_of_mem_map {α : Type} {f : α → List Token} {as : List α} {a : α}
    (ha : a ∈ as) : (f a).length ≤ (as.map f).flatten.length :=
  (List.sublist_flatten_of_mem (List.mem_map_of_mem ha)).length_le

/-- The frames that a category needs besides those of its tokens. -/
def Category.extra : Category → Nat
  | .statement _ => 0
  | .declaration => 1

theorem Routine.length_body (r : Routine) :
    (r.body.map Prod.fst).flatten.length + 5 ≤ r.tokens.length := by
  simp only [Routine.tokens, List.length_cons, List.length_append, List.length_nil]
  omega

theorem Sentence.shallow {nearest : Bool} {n : Nat} {k : Category} {inLoop : Bool}
    {ts : List Token} {s : Stmt} (h : Sentence nearest n k inLoop ts s) :
    Sentence nearest (10 * ts.length + k.extra) k inLoop ts s := by
  -- By induction on the derivation, as for phrases; each case adds up the tokens of its parts.
  induction h with
  | expression he hs =>
    refine (Sentence.expression he.shallow hs).mono ?_
    simp only [List.length_append, List.length_singleton, Level.height]
    omega
  | print hk he hs =>
    refine (Sentence.print hk he.shallow hs).mono ?_
    simp only [List.length_cons, List.length_append, Level.height]
    omega
  | returned hk he hs =>
    refine (Sentence.returned hk he.shallow hs).mono ?_
    simp only [List.length_cons, List.length_append]
    omega
  | broken hk hs => exact .broken hk hs
  | @block n inLoop left right body hl _ hr ih =>
    have hall : ∀ p ∈ body, Sentence nearest
        (10 * (body.map Prod.fst).flatten.length + 1) .declaration inLoop p.1 p.2 := by
      intro p hp
      refine (ih p hp).mono ?_
      have := length_le_of_mem_map (f := Prod.fst) hp
      simp only [Category.extra]
      omega
    refine (Sentence.block hl hall hr).mono ?_
    simp only [List.length_cons, List.length_append]
    omega
  | @whileDo n _ _ _ _ _ ts us _ _ hk hl he hr _ ih =>
    refine (Sentence.whileDo (n := 10 * (ts.length + us.length) + 9) hk hl (he.shallow.mono ?_) hr
      (ih.mono ?_)).mono ?_
    · simp only [Level.height]
      omega
    · simp only [Category.extra]
      omega
    · simp only [List.length_cons, List.length_append]
      omega
  | @forDo n _ _ _ _ _ _ is cs es us _ _ _ _ hk hl hi hc hm he hr _ ih =>
    refine (Sentence.forDo (n := 10 * (is.length + cs.length + es.length + us.length) + 9) hk hl
      (hi.shallow.mono (by omega)) (hc.shallow.mono (by omega)) hm (he.shallow.mono (by omega)) hr
      (ih.mono ?_)).mono ?_
    · simp only [Category.extra]
      omega
    · simp only [List.length_cons, List.length_append]
      omega
  | @ifAlone n _ _ _ _ _ ts us _ _ hk hl he hr _ ih =>
    refine (Sentence.ifAlone (n := 10 * (ts.length + us.length) + 9) hk hl (he.shallow.mono ?_) hr
      (ih.mono ?_)).mono ?_
    · simp only [Level.height]
      omega
    · simp only [Category.extra]
      omega
    · simp only [List.length_cons, List.length_append]
      omega
  | @ifElse n _ _ _ _ _ _ _ ts us vs _ _ _ hk hl he hr _ hn ho _ ih ih' =>
    refine (Sentence.ifElse (n := 10 * (ts.length + us.length + vs.length) + 9) hk hl
      (he.shallow.mono ?_) hr (ih.mono ?_) hn ho (ih'.mono ?_)).mono ?_
    · simp only [Level.height]
      omega
    · simp only [Category.extra]
      omega
    · simp only [Category.extra]
      omega
    · simp only [List.length_cons, List.length_append]
      omega
  | varDecl hk hv =>
    refine (Sentence.varDecl hk hv.shallow).mono ?_
    simp only [List.length_cons]
    omega
  | @funDecl n _ _ r hk hr _ ih =>
    have hlen := r.length_body
    refine (Sentence.funDecl (n := 10 * r.tokens.length) hk hr
      fun p hp => (ih p hp).mono ?_).mono ?_
    · have := length_le_of_mem_map (f := Prod.fst) hp
      simp only [Category.extra]
      omega
    · simp only [List.length_cons]
      omega
  | @classDecl n _ _ _ _ _ parent methods hk hn hp hl hm _ hr ih =>
    refine (Sentence.classDecl (n := 10 * (methods.map Routine.tokens).flatten.length) hk hn hp
      hl hm (fun r hmem p hp => (ih r hmem p hp).mono ?_) hr).mono ?_
    · have hr := r.length_body
      have := length_le_of_mem_map (f := Prod.fst) hp
      have := length_le_of_mem_map (f := Routine.tokens) hmem
      simp only [Category.extra]
      omega
    · simp only [List.length_cons, List.length_append]
      omega
  | statement _ ih => exact .statement ih

/-- Ten frames for every token and one more are enough for any program. -/
theorem Program.shallow {nearest : Bool} {n : Nat} {ts : List Token} {program : List Stmt}
    (h : Program nearest n ts program) :
    Program nearest (10 * ts.length + 1) ts program := by
  obtain ⟨parts, rfl, hp, hall⟩ := h
  refine ⟨parts, rfl, hp, fun p hp => (hall p hp).shallow.mono ?_⟩
  have := length_le_of_mem_map (f := Prod.fst) hp
  simp only [Category.extra]
  omega

end Lox.Tree
