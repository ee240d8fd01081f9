/-
Statements and declarations are read exactly as the grammar derives them.

An `else` is taken as soon as it is seen, so a statement that could still take
one is only complete where none follows.  Everything else is decided by the
first token:

* `denotes_sentences`, `denotes_declaration` — with `n` frames, the quiet runs
  are over the statements and declarations that are nested at most `n` deep,
  with every `else` at the nearest `if`.

A declaration with a mistake in it is reported and left out; so a declaration
that adds nothing to the report was read to its end.
-/
import Lox.Proofs.Grammar.Phrases

namespace Lox.Tree

open Lox.Tree.Parser

/-! ### Parts of statements -/

section Parts

variable {n : Nat} {value : Parser Expr}

/-- An expression that a token closes which cannot belong to it. -/
theorem denotes_closedPhrase (hv : Denotes value (WholePhrase n .assignment))
    {k : Token.Kind} (hk : k ≠ .endOfInput) (hc : Level.assignment.continues k = false)
    (text : String) {α : Type} {f : Expr → Token → Parser α}
    {E : Expr → Token → List Token → α → Cursor → Prop} (hf : ∀ e t, Denotes (f e t) (E e t)) :
    Denotes (do let e ← value; let t ← expect k text; f e t) fun ts a c =>
      ∃ us e t vs, ts = us ++ t :: vs ∧ Phrase n .assignment us e ∧ t.kind = k ∧
        E e t vs a c := by
  refine (hv.bind fun e => .expect hk text (hf e)).imp fun _ => ?_
  constructor
  · rintro ⟨us, e, _, rfl, ⟨he, -⟩, t, vs, rfl, ht, h⟩
    exact ⟨us, e, t, vs, rfl, he, ht, h⟩
  · rintro ⟨us, e, t, vs, rfl, he, ht, h⟩
    exact ⟨us, e, t :: vs, rfl, ⟨he, by rwa [Cursor.current_back_cons, ht]⟩, t, vs, rfl, ht, h⟩

/-- An expression that may be missing, and the token that closes it. -/
theorem denotes_closedOptional (hv : Denotes value (WholePhrase n .assignment))
    {k : Token.Kind} (hk : k ≠ .endOfInput) (hc : Level.assignment.continues k = false)
    (hs : startsPhrase k = false) (text : String) {α : Type}
    {f : Option Expr → Token → Parser α}
    {E : Option Expr → Token → List Token → α → Cursor → Prop}
    (hf : ∀ e t, Denotes (f e t) (E e t)) :
    Denotes (do
        let e ← if (← get).sees k then pure none else some <$> value
        let t ← expect k text
        f e t) fun ts a c =>
      ∃ us e t vs, ts = us ++ t :: vs ∧ Optional (Phrase n .assignment) us e ∧ t.kind = k ∧
        E e t vs a c := by
  have hrest := fun e => Denotes.expect hk text (hf e)
  refine (denotes_get.bind fun c => .ite (c := c.sees k = true) ((Denotes.pure none).bind hrest)
    ((hv.map some).bind hrest)).imp fun _ => ?_
  constructor
  · rintro ⟨_, _, _, rfl, ⟨rfl, rfl⟩, ⟨-, _, _, _, rfl, ⟨rfl, rfl⟩, t, vs, rfl, ht, h⟩ |
      ⟨-, us, _, _, rfl, ⟨e, ⟨he, -⟩, rfl⟩, t, vs, rfl, ht, h⟩⟩
    · exact ⟨[], none, t, vs, rfl, .absent, ht, h⟩
    · exact ⟨us, some e, t, vs, rfl, .present he, ht, h⟩
  · rintro ⟨us, e, t, vs, rfl, he, ht, h⟩
    refine ⟨[], _, _, rfl, ⟨rfl, rfl⟩, ?_⟩
    cases he with
    | absent =>
      exact .inl ⟨by simp [Cursor.sees, ht], [], none, _, rfl, ⟨rfl, rfl⟩, t, vs, rfl, ht, h⟩
    | present he =>
      refine .inr ⟨?_, us, _, _, rfl, ⟨_, ⟨he, ?_⟩, rfl⟩, t, vs, rfl, ht, h⟩
      · -- A token that begins phrases is not the one that closes this.
        obtain ⟨t', ws, rfl, ht'⟩ := he.first
        simp only [Cursor.sees, beq_iff_eq]
        intro hk'
        rw [show t'.kind = k from hk', hs] at ht'
        exact absurd ht' (by simp)
      · rwa [Cursor.current_back_cons, ht]

/-- An expression and a semicolon. -/
theorem denotes_phraseStatement (hv : Denotes value (WholePhrase n .assignment))
    (text : String) (f : Expr → Stmt) :
    Denotes (do let e ← value; let _ ← expect .semicolon text; return f e) fun ts s _ =>
      ∃ us e semicolon, ts = us ++ [semicolon] ∧ Phrase n .assignment us e ∧
        semicolon.kind = .semicolon ∧ s = f e := by
  refine (denotes_closedPhrase hv (k := .semicolon) (by decide) rfl _ fun e _ => .pure _).imp
    fun _ => ?_
  constructor
  · rintro ⟨us, e, t, _, rfl, he, ht, rfl, rfl⟩
    exact ⟨us, e, t, rfl, he, ht, rfl⟩
  · rintro ⟨us, e, t, rfl, he, ht, rfl⟩
    exact ⟨us, e, t, [], rfl, he, ht, rfl, rfl⟩

theorem denotes_varDeclaration (hv : Denotes value (WholePhrase n .assignment)) :
    Denotes (varDeclaration value) fun ts s _ => Variable n ts s := by
  -- Either way a semicolon follows.
  have hend := fun (name : Token) (init : Option Expr) =>
    Denotes.expect (k := .semicolon) (by decide) "Expect ';' after variable declaration."
      fun _ => Denotes.pure (Stmt.varDecl name init)
  refine (Denotes.expect (k := .identifier) (by decide) _ fun name =>
    .skips (k := .equal) (by decide) ((hv.map some).bind (hend name))
      ((Denotes.pure none).bind (hend name))).imp fun _ => ?_
  constructor
  · rintro ⟨name, _, rfl, hn, ⟨equals, _, rfl, hq, us, _, _, rfl, ⟨e, ⟨he, -⟩, rfl⟩, t, _, rfl, ht,
      rfl, rfl⟩ | ⟨-, _, _, _, rfl, ⟨rfl, rfl⟩, t, _, rfl, ht, rfl, rfl⟩⟩
    · exact .initialized hn hq he ht
    · exact .plain hn ht
  · rintro (⟨hn, hs⟩ | ⟨hn, hq, he, hs⟩)
    · refine ⟨_, _, rfl, hn, .inr ⟨?_, [], none, _, rfl, ⟨rfl, rfl⟩, _, [], rfl, hs, rfl, rfl⟩⟩
      rw [Cursor.current_back_cons, hs]
      decide
    · refine ⟨_, _, rfl, hn, .inl ⟨_, _, rfl, hq, _, _, [_], rfl, ⟨_, ⟨he, ?_⟩, rfl⟩, _, [], rfl,
        hs, rfl, rfl⟩⟩
      rw [Cursor.current_back_cons, hs]
      rfl

theorem denotes_returnStatement (hv : Denotes value (WholePhrase n .assignment))
    (keyword : Token) :
    Denotes (returnStatement keyword value) fun ts s _ => ∃ us e semicolon,
      ts = us ++ [semicolon] ∧ Optional (Phrase n .assignment) us e ∧
        semicolon.kind = .semicolon ∧ s = .returnWith keyword e := by
  refine (denotes_closedOptional hv (k := .semicolon) (by decide) rfl rfl _
    fun e _ => .pure _).imp fun _ => ?_
  constructor
  · rintro ⟨us, e, t, _, rfl, he, ht, rfl, rfl⟩
    exact ⟨us, e, t, rfl, he, ht, rfl⟩
  · rintro ⟨us, e, t, rfl, he, ht, rfl⟩
    exact ⟨us, e, t, [], rfl, he, ht, rfl, rfl⟩

theorem denotes_breakStatement (keyword : Token) (inLoop : Bool) :
    Denotes (breakStatement keyword inLoop) fun ts s _ => inLoop = true ∧
      ∃ semicolon, ts = [semicolon] ∧ semicolon.kind = .semicolon ∧ s = .breakLoop keyword := by
  have hend := Denotes.expect (k := .semicolon) (by decide) "Expect ';' after 'break'."
    fun _ => Denotes.pure (Stmt.breakLoop keyword)
  refine (Denotes.ite (c := inLoop = true) hend
    ((denotes_complain keyword .breakOutsideLoop).bind fun _ => hend)).imp fun _ => ?_
  constructor
  · rintro (⟨hl, t, _, rfl, ht, rfl, rfl⟩ | ⟨-, _, _, _, -, hf, -⟩)
    · exact ⟨hl, t, rfl, ht, rfl⟩
    · exact hf.elim
  · rintro ⟨hl, t, rfl, ht, rfl⟩
    exact .inl ⟨hl, t, [], rfl, ht, rfl, rfl⟩

theorem denotes_forInit (hv : Denotes value (WholePhrase n .assignment)) :
    Denotes (forInit value) fun ts s _ => Initializer n ts s := by
  refine (Denotes.skips (k := .semicolon) (by decide) (.pure none)
    (.skips (k := .varKeyword) (by decide) ((denotes_varDeclaration hv).map some)
      ((denotes_phraseStatement hv _ .expression).map some))).imp fun _ => ?_
  constructor
  · rintro (⟨t, _, rfl, ht, rfl, rfl⟩ | ⟨-, ⟨t, us, rfl, ht, s, hs, rfl⟩ |
      ⟨-, s, ⟨us, e, t, rfl, he, ht, rfl⟩, rfl⟩⟩)
    · exact .absent ht
    · exact .declared ht hs
    · exact .expression he ht
  · rintro (hs | ⟨hk, hv⟩ | ⟨he, hs⟩)
    · exact .inl ⟨_, [], rfl, hs, rfl, rfl⟩
    · refine .inr ⟨?_, .inl ⟨_, _, rfl, hk, _, hv, rfl⟩⟩
      rw [Cursor.current_back_cons, hk]
      decide
    · -- No expression begins with a semicolon or with `var`.
      obtain ⟨t, ws, rfl, ht⟩ := he.first
      refine .inr ⟨?_, .inr ⟨?_, _, ⟨_, _, _, rfl, he, hs, rfl⟩, rfl⟩⟩
      · intro hk
        rw [show t.kind = .semicolon from hk] at ht
        exact absurd ht (by decide)
      · intro hk
        rw [show t.kind = .varKeyword from hk] at ht
        exact absurd ht (by decide)

end Parts

/-! ### Statements with statements in them -/

/-- A statement that does not take an `else` that follows. -/
def WholeStatement (n : Nat) (inLoop : Bool) (ts : List Token) (s : Stmt) (c : Cursor) :
    Prop :=
  ∃ takesElse, Sentence true n (.statement takesElse) inLoop ts s ∧
    (takesElse = true → c.current.kind ≠ .elseKeyword)

section Compound

variable {n : Nat} {inLoop : Bool} {value : Parser Expr} {body : Parser Stmt}

theorem denotes_whileStatement (hv : Denotes value (WholePhrase n .assignment))
    (hb : Denotes body (WholeStatement n inLoop)) :
    Denotes (whileStatement value body) fun ts s c => ∃ left us e right vs s',
      ts = left :: (us ++ right :: vs) ∧ left.kind = .leftParen ∧
        Phrase n .assignment us e ∧ right.kind = .rightParen ∧
        WholeStatement n inLoop vs s' c ∧ s = .whileLoop e s' := by
  refine (Denotes.expect (k := .leftParen) (by decide) _ fun _ =>
    denotes_closedPhrase hv (k := .rightParen) (by decide) rfl _ fun e _ =>
      hb.map (Stmt.whileLoop e)).imp fun _ => ?_
  constructor
  · rintro ⟨left, _, rfl, hl, us, e, right, vs, rfl, he, hr, s, hs, rfl⟩
    exact ⟨left, us, e, right, vs, s, rfl, hl, he, hr, hs, rfl⟩
  · rintro ⟨left, us, e, right, vs, s, rfl, hl, he, hr, hs, rfl⟩
    exact ⟨left, _, rfl, hl, us, e, right, vs, rfl, he, hr, s, hs, rfl⟩

theorem denotes_forStatement (hv : Denotes value (WholePhrase n .assignment))
    (hb : Denotes body (WholeStatement n inLoop)) :
    Denotes (forStatement value body) fun ts s c =>
      ∃ left is i cs cond semicolon es e right us s',
      ts = left :: (is ++ (cs ++ semicolon :: (es ++ right :: us))) ∧ left.kind = .leftParen ∧
        Initializer n is i ∧ Optional (Phrase n .assignment) cs cond ∧
        semicolon.kind = .semicolon ∧ Optional (Phrase n .assignment) es e ∧
        right.kind = .rightParen ∧ WholeStatement n inLoop us s' c ∧
        s = forLoop i cond e s' := by
  -- The parts are taken in the order in which the loop is written.
  refine (Denotes.expect (k := .leftParen) (by decide) _ fun _ =>
    (denotes_forInit hv).bind fun i =>
      denotes_closedOptional hv (k := .semicolon) (by decide) rfl rfl _ fun cond _ =>
        denotes_closedOptional hv (k := .rightParen) (by decide) rfl rfl _ fun e _ =>
          hb.map (forLoop i cond e)).imp fun _ => ?_
  constructor
  · rintro ⟨left, _, rfl, hl, is, i, _, rfl, hi, cs, cond, semicolon, _, rfl, hc, hm, es, e, right,
      us, rfl, he, hr, s, hs, rfl⟩
    exact ⟨left, is, i, cs, cond, semicolon, es, e, right, us, s, rfl, hl, hi, hc, hm, he, hr, hs,
      rfl⟩
  · rintro ⟨left, is, i, cs, cond, semicolon, es, e, right, us, s, rfl, hl, hi, hc, hm, he, hr, hs,
      rfl⟩
    exact ⟨left, _, rfl, hl, is, i, _, rfl, hi, cs, cond, semicolon, _, rfl, hc, hm, es, e, right,
      us, rfl, he, hr, s, hs, rfl⟩

/-- The `else` of an `if`, when it is there. -/
def Otherwise (n : Nat) (inLoop : Bool) (ts : List Token) (s : Option Stmt) (c : Cursor) :
    Prop :=
  (∃ other us s', ts = other :: us ∧ other.kind = .elseKeyword ∧
      WholeStatement n inLoop us s' c ∧ s = some s') ∨
    ts = [] ∧ s = none ∧ c.current.kind ≠ .elseKeyword

theorem denotes_ifStatement (hv : Denotes value (WholePhrase n .assignment))
    (hb : Denotes body (WholeStatement n inLoop)) :
    Denotes (ifStatement value body) fun ts s c => ∃ left us e right vs s' ws other,
      ts = left :: (us ++ right :: (vs ++ ws)) ∧ left.kind = .leftParen ∧
        Phrase n .assignment us e ∧ right.kind = .rightParen ∧
        WholeStatement n inLoop vs s' (c.back ws) ∧ Otherwise n inLoop ws other c ∧
        s = .ifElse e s' other := by
  refine (Denotes.expect (k := .leftParen) (by decide) _ fun _ =>
    denotes_closedPhrase hv (k := .rightParen) (by decide) rfl _ fun e _ =>
      hb.bind fun s => .skips (k := .elseKeyword) (by decide)
        ((hb.map some).bind fun other => .pure (Stmt.ifElse e s other))
        ((Denotes.pure none).bind fun other => .pure (Stmt.ifElse e s other))).imp fun _ => ?_
  -- Whether an `else` follows is seen behind the first branch.
  constructor
  · rintro ⟨left, _, rfl, hl, us, e, right, _, rfl, he, hr, vs, s, ws, rfl, hs,
      ⟨other, _, rfl, ho, xs, _, _, rfl, ⟨s', hs', rfl⟩, rfl, rfl⟩ |
        ⟨ho, _, _, _, rfl, ⟨rfl, rfl⟩, rfl, rfl⟩⟩
    · rw [List.append_nil] at hs ⊢
      exact ⟨left, us, e, right, vs, s, _, _, rfl, hl, he, hr, hs,
        .inl ⟨other, xs, s', rfl, ho, hs', rfl⟩, rfl⟩
    · exact ⟨left, us, e, right, vs, s, [], none, rfl, hl, he, hr, hs, .inr ⟨rfl, rfl, ho⟩, rfl⟩
  · rintro ⟨left, us, e, right, vs, s, _, _, rfl, hl, he, hr, hs,
      ⟨other, xs, s', rfl, ho, hs', rfl⟩ | ⟨rfl, rfl, ho⟩, rfl⟩
    · exact ⟨left, _, rfl, hl, us, e, right, _, rfl, he, hr, vs, s, _, rfl, hs,
        .inl ⟨other, xs, rfl, ho, xs, some s', [], (List.append_nil _).symm, ⟨s', hs', rfl⟩, rfl,
          rfl⟩⟩
    · exact ⟨left, _, rfl, hl, us, e, right, _, rfl, he, hr, vs, s, [], rfl, hs,
        .inr ⟨ho, [], none, [], rfl, ⟨rfl, rfl⟩, rfl, rfl⟩⟩

end Compound

/-! ### Bodies -/

/-- The tokens that a declaration begins with which is not a statement. -/
def startsDeclaration (k : Token.Kind) : Bool :=
  k == .varKeyword || k == .funKeyword || k == .classKeyword

/-- A declaration that does not take an `else` that follows, read with `n + 1`
frames. -/
def WholeDeclaration (n : Nat) (inLoop : Bool) (ts : List Token) (s : Stmt) (c : Cursor) :
    Prop :=
  startsDeclaration (c.back ts).current.kind ∧ Sentence true (n + 1) .declaration inLoop ts s ∨
    startsDeclaration (c.back ts).current.kind = false ∧ WholeStatement n inLoop ts s c

theorem WholeDeclaration.sentence {n : Nat} {inLoop : Bool} {ts : List Token} {s : Stmt}
    {c : Cursor} (h : WholeDeclaration n inLoop ts s c) :
    Sentence true (n + 1) .declaration inLoop ts s := by
  rcases h with ⟨-, h⟩ | ⟨-, takesElse, h, -⟩
  · exact h
  · exact .statement h

theorem startsDeclaration_of_startsSentence {k : Token.Kind} (h : startsSentence k) :
    startsDeclaration k = false := by
  cases k <;> first | rfl | exact absurd h (by decide)

theorem Sentence.whole {n : Nat} {inLoop : Bool} {ts : List Token} {s : Stmt} {c : Cursor}
    (h : Sentence true (n + 1) .declaration inLoop ts s)
    (hc : c.current.kind ≠ .elseKeyword) : WholeDeclaration n inLoop ts s c := by
  have h' := h
  cases h with
  | varDecl hk _ => exact .inl ⟨by simp [startsDeclaration, hk], h'⟩
  | funDecl hk _ _ => exact .inl ⟨by simp [startsDeclaration, hk], h'⟩
  | classDecl hk _ _ _ _ _ _ => exact .inl ⟨by simp [startsDeclaration, hk], h'⟩
  | statement hs =>
    obtain ⟨t, us, rfl, ht⟩ := hs.first
    exact .inr ⟨startsDeclaration_of_startsSentence ht, _, hs, fun _ => hc⟩

/-- The declarations of a program or a body, read with `n` frames. -/
def Declared (n : Nat) (inLoop : Bool) (ts : List Token) (s : Stmt) (c : Cursor) : Prop :=
  ∃ m, n = m + 1 ∧ WholeDeclaration m inLoop ts s c

theorem Declared.sentence {n : Nat} {inLoop : Bool} {ts : List Token} {s : Stmt}
    {c : Cursor} (h : Declared n inLoop ts s c) : Sentence true n .declaration inLoop ts s := by
  obtain ⟨m, rfl, hw⟩ := h
  exact hw.sentence

theorem Sentence.declared {n : Nat} {inLoop : Bool} {ts : List Token} {s : Stmt} {c : Cursor}
    (h : Sentence true n .declaration inLoop ts s) (hc : c.current.kind ≠ .elseKeyword) :
    Declared n inLoop ts s c := by
  cases n with
  | zero => cases h
  | succ m => exact ⟨m, rfl, h.whole hc⟩

/-- The tokens that any declaration can begin with. -/
def StartsAny (k : Token.Kind) : Prop :=
  startsSentence k ∨ k = .varKeyword ∨ k = .funKeyword ∨ k = .classKeyword

theorem StartsAny.ne {k k' : Token.Kind} (h : StartsAny k)
    (hk : ¬ StartsAny k') : k ≠ k' := by
  rintro rfl
  exact hk h

instance : DecidablePred StartsAny := fun _ => inferInstanceAs (Decidable (_ ∨ _ ∨ _ ∨ _))

/-- The parts of a loop over declarations, where no `else` follows. -/
theorem loop_declared_iff (n : Nat) (inLoop : Bool) {more : Cursor → Bool} (ts : List Token)
    (body : List Stmt) {c : Cursor} (hc : more c = false) (he : c.current.kind ≠ .elseKeyword)
    (hmore : ∀ {t ts}, StartsAny t.kind → more (c.back (t :: ts)) = true) :
    (∃ found, body = found.toList ∧
      Loop (Repeated more (Declared n inLoop)) (fun c => more c = false) #[] ts found c) ↔
    ∃ parts : List (List Token × Stmt), (parts.map Prod.fst).flatten = ts ∧
      parts.map Prod.snd = body ∧ ∀ p ∈ parts, Sentence true n .declaration inLoop p.1 p.2 := by
  constructor
  · rintro ⟨found, rfl, hloop⟩
    obtain ⟨-, parts, rfl, hfound, hall⟩ := hloop.parts
    refine ⟨parts, rfl, by simpa using hfound.symm, fun p hp => ?_⟩
    obtain ⟨c', hp'⟩ := hall p hp
    exact hp'.sentence
  · rintro ⟨parts, rfl, rfl, hall⟩
    obtain ⟨found, hfound, hloop⟩ := loop_of_parts (S := Declared n inLoop)
      (N := fun k => k ≠ .elseKeyword) (F := StartsAny) Sentence.first_declaration hmore
      (fun h => h.ne (by decide)) Sentence.declared hc he parts #[] hall
    exact ⟨found, by simpa using hfound.symm, hloop⟩

theorem Declared.ne_nil {n : Nat} {inLoop : Bool} {ts : List Token} {s : Stmt} {c : Cursor}
    (h : Declared n inLoop ts s c) : ts ≠ [] := by
  obtain ⟨t, us, rfl, -⟩ := h.sentence.first_declaration
  exact List.cons_ne_nil t us

/-- Declarations and the brace that closes them. -/
def Body (n : Nat) (inLoop : Bool) (ts : List Token) (body : List Stmt) : Prop :=
  ∃ (parts : List (List Token × Stmt)) (right : Token),
    ts = (parts.map Prod.fst).flatten ++ [right] ∧ right.kind = .rightBrace ∧
      body = parts.map Prod.snd ∧ ∀ p ∈ parts, Sentence true n .declaration inLoop p.1 p.2

/-- Whether a cursor is before a further part of a body. -/
def inBody (c : Cursor) : Bool :=
  !c.sees .rightBrace && !c.atEnd

theorem inBody_eq_false_of_ahead {c : Cursor} (h : c.ahead = []) : inBody c = false := by
  simp [inBody, Cursor.atEnd, h]

theorem inBody_back_rightBrace {c : Cursor} {right : Token} (h : right.kind = .rightBrace) :
    inBody (c.back [right]) = false := by
  simp [inBody, Cursor.sees, h]

theorem inBody_back_cons {c : Cursor} {t : Token} (ht : t.kind ≠ .rightBrace)
    (ts : List Token) : inBody (c.back (t :: ts)) = true := by
  simp [inBody, Cursor.sees, Cursor.atEnd, ht]

theorem denotes_block {n : Nat} {inLoop : Bool} {declaration : Parser (Option Stmt)}
    (hd : Denotes declaration fun ts o c => ∃ s, o = some s ∧ Declared n inLoop ts s c) :
    Denotes (block declaration) fun ts body _ => Body n inLoop ts body := by
  have hmany := denotes_many inBody hd Declared.ne_nil
    fun _ => inBody_eq_false_of_ahead
  refine (hmany.closed (k := .rightBrace) (by decide) _ fun body _ => body).imp ?_
  intro ts body c hc
  have hparts : ∀ {right : Token} {us : List Token}, right.kind = .rightBrace → _ :=
    fun {right us} hr => loop_declared_iff n inLoop us body
      (inBody_back_rightBrace (c := c) hr)
      (by rw [Cursor.current_back_cons, hr]; decide)
      fun {t vs} ht => by
        rw [Cursor.back_back]
        exact inBody_back_cons (ht.ne (by decide)) _
  constructor
  · rintro ⟨us, right, found, rfl, hloop, hr, rfl⟩
    obtain ⟨parts, rfl, hbody, hall⟩ := (hparts hr).mp hloop
    exact ⟨parts, right, rfl, hr, hbody.symm, hall⟩
  · rintro ⟨parts, right, rfl, hr, hbody, hall⟩
    exact ⟨_, right, _, rfl, (hparts hr).mpr ⟨parts, rfl, hbody.symm, hall⟩, hr, rfl⟩

/-! ### Functions and classes -/

/-- The names of parameters, divided by commas. -/
theorem denotes_parameters :
    Denotes (commaList "parameters" (expect .identifier "Expect parameter name."))
      fun ts params c => (params = [] → c.current.kind = .rightParen) ∧
        (params ≠ [] → c.current.kind ≠ .comma) ∧
        (∀ p ∈ params, p.kind = .identifier) ∧ Separated (params.map ([·])) ts ∧
        params.length ≤ maxArguments := by
  refine (denotes_commaList "parameters" ((denotes_expect (by decide) _).imp
    (E := fun ts t _ => (ts = [t] ∧ t.kind = .identifier) ∧ True) fun _ => by simp)).imp ?_
  intro ts params c hc
  -- A parameter is one token, so the items need no token in view behind them but the comma.
  have hitems : Items (fun ts t _ => (ts = [t] ∧ t.kind = .identifier) ∧ True) ts params c ↔ _ :=
    items_iff_separated (P := fun ts t => ts = [t] ∧ t.kind = .identifier) (F := fun _ => True)
      trivial
  constructor
  · rintro (⟨rfl, rfl, hk⟩ | ⟨-, hmax, his⟩)
    · exact ⟨fun _ => hk, fun h => absurd rfl h, by simp, .none, Nat.zero_le _⟩
    · obtain ⟨items, hne, rfl, hsep, hall, -, hk⟩ := hitems.mp his
      refine ⟨fun h => absurd (List.map_eq_nil_iff.mp h) hne, fun _ => hk, ?_, ?_, hmax⟩
      · intro p hp
        obtain ⟨i, hi, rfl⟩ := List.mem_map.mp hp
        exact (hall i hi).2
      · rw [List.map_map]
        rwa [List.map_congr_left fun i hi => (hall i hi).1] at hsep
  · rintro ⟨hnil, hcons, hall, hsep, hmax⟩
    cases params with
    | nil =>
      cases hsep
      exact .inl ⟨rfl, rfl, hnil rfl⟩
    | cons p params =>
      refine .inr ⟨?_, hmax, hitems.mpr ⟨(p :: params).map fun t => ([t], t), by simp,
        by simp [Function.comp_def], ?_, ?_, trivial, hcons (List.cons_ne_nil _ _)⟩⟩
      · obtain ⟨vs, rfl⟩ := Separated.first hsep
        rw [List.singleton_append, Cursor.current_back_cons, hall p (by simp)]
        decide
      · rw [List.map_map]
        exact hsep
      · intro i hi
        obtain ⟨t, ht, rfl⟩ := List.mem_map.mp hi
        exact ⟨rfl, hall t ht⟩

/-- A function with its tokens and its tree. -/
def Written (n : Nat) (ts : List Token) (f : Function) : Prop :=
  ∃ r : Routine, r.Spelled ∧ (∀ p ∈ r.body, Sentence true n .declaration false p.1 p.2) ∧
    ts = r.tokens ∧ f = r.function

theorem Written.first {n : Nat} {ts : List Token} {f : Function} (h : Written n ts f) :
    ∃ t us, ts = t :: us ∧ t.kind = .identifier := by
  obtain ⟨r, hr, -, rfl, -⟩ := h
  exact ⟨_, _, rfl, hr.name⟩

theorem denotes_function {n : Nat} {body : Parser (List Stmt)}
    (hb : Denotes body fun ts b _ => Body n false ts b) (kind : String) :
    Denotes (function kind body) fun ts f _ => Written n ts f := by
  refine (Denotes.expect (k := .identifier) (by decide) _ fun name =>
    .expect (k := .leftParen) (by decide) _ fun _ => denotes_parameters.bind fun params =>
      .expect (k := .rightParen) (by decide) _ fun _ => .expect (k := .leftBrace) (by decide) _
        fun _ => hb.map (Function.mk name params)).imp fun _ => ?_
  constructor
  · rintro ⟨name, _, rfl, hn, left, _, rfl, hl, listed, params, _, rfl, ⟨-, -, hp, hsep, hmax⟩,
      right, _, rfl, hr, brace, _, rfl, hbr, _, ⟨parts, close, rfl, hcl, rfl, hall⟩, rfl⟩
    exact ⟨⟨name, left, params, listed, right, brace, parts, close⟩,
      ⟨hn, hl, hp, hsep, hmax, hr, hbr, hcl⟩, hall, rfl, rfl⟩
  · rintro ⟨r, hr, hall, rfl, rfl⟩
    refine ⟨_, _, rfl, hr.name, _, _, rfl, hr.leftParen, r.listed, r.params, _, rfl,
      ⟨fun _ => hr.rightParen, fun _ => ?_, hr.params, hr.listed, hr.few⟩, _, _, rfl, hr.rightParen,
      _, _, rfl, hr.leftBrace, _, ⟨r.body, _, rfl, hr.rightBrace, rfl, hall⟩, rfl⟩
    rw [Cursor.current_back_cons, hr.rightParen]
    decide

theorem denotes_superclass : Denotes superclass fun ts ref c => ∃ parent : Parent,
    parent.Spelled ∧ ts = parent.tokens ∧ ref = parent.reference ∧
      (parent = none → c.current.kind ≠ .less) := by
  refine (Denotes.skips (k := .less) (by decide) (.expect (k := .identifier) (by decide) _
    fun name => .pure (some ({ token := name } : Reference))) (.pure none)).imp fun _ => ?_
  constructor
  · rintro (⟨less, _, rfl, hl, name, _, rfl, hn, rfl, rfl⟩ | ⟨hk, rfl, rfl⟩)
    · refine ⟨some (less, name), ?_, rfl, rfl, fun h => nomatch h⟩
      rintro q ⟨⟩
      exact ⟨hl, hn⟩
    · exact ⟨none, (fun q hq => by cases hq), rfl, rfl, fun _ => hk⟩
  · rintro ⟨parent, hp, rfl, rfl, hk⟩
    cases parent with
    | none => exact .inr ⟨hk rfl, rfl, rfl⟩
    | some q =>
      obtain ⟨hl, hn⟩ := hp q rfl
      exact .inl ⟨q.1, _, rfl, hl, q.2, [], rfl, hn, rfl, rfl⟩

/-- A list of functions with their tokens, as a list of routines. -/
theorem exists_routines {n : Nat} : ∀ {parts : List (List Token × Function)},
    (∀ p ∈ parts, Written n p.1 p.2) → ∃ methods : List Routine,
      parts = methods.map (fun r => (r.tokens, r.function)) ∧ (∀ r ∈ methods, r.Spelled) ∧
        ∀ r ∈ methods, ∀ p ∈ r.body, Sentence true n .declaration false p.1 p.2 := by
  intro parts
  induction parts with
  | nil => exact fun _ => ⟨[], rfl, by simp, by simp⟩
  | cons p parts ih =>
    intro hall
    obtain ⟨methods, rfl, hs, hb⟩ := ih fun q hq => hall q (by simp [hq])
    obtain ⟨r, hr, hbody, hts, hf⟩ := hall p (by simp)
    refine ⟨r :: methods, by rw [List.map_cons, ← hts, ← hf], ?_, ?_⟩
    · simpa using ⟨hr, hs⟩
    · intro q hq
      rcases List.mem_cons.mp hq with rfl | hq
      · exact hbody
      · exact hb q hq

/-- The methods of a class, and the brace that closes it. -/
theorem denotes_methods {n : Nat} {body : Parser (List Stmt)}
    (hb : Denotes body fun ts b _ => Body n false ts b) (text : String)
    (f : List Function → Stmt) :
    Denotes (do
        let methods ← many inBody (some <$> function "method" body)
        let _ ← expect .rightBrace text
        return f methods) fun ts s _ => ∃ (rs : List Routine) (right : Token),
      ts = (rs.map Routine.tokens).flatten ++ [right] ∧ right.kind = .rightBrace ∧
        (∀ r ∈ rs, r.Spelled) ∧
        (∀ r ∈ rs, ∀ p ∈ r.body, Sentence true n .declaration false p.1 p.2) ∧
        s = f (rs.map Routine.function) := by
  have hstep : Denotes (some <$> function "method" body) fun ts o c =>
      ∃ f, o = some f ∧ (fun ts f _ => Written n ts f) ts f c :=
    ((denotes_function hb "method").map some).imp fun _ => by simp [and_comm]
  refine ((denotes_many inBody hstep (fun h => ?_) fun _ =>
    inBody_eq_false_of_ahead).closed (k := .rightBrace) (by decide) text
    fun methods _ => f methods).imp ?_
  · obtain ⟨t, us, rfl, -⟩ := Written.first h
    exact List.cons_ne_nil t us
  · intro ts s c hc
    constructor
    · rintro ⟨us, right, _, rfl, ⟨found, rfl, hloop⟩, hr, rfl⟩
      obtain ⟨-, parts, rfl, hfound, hall⟩ := hloop.parts
      obtain ⟨rs, rfl, hs, hbody⟩ := exists_routines fun p hp => (hall p hp).choose_spec
      refine ⟨rs, right, by simp [Function.comp_def], hr, hs, hbody, ?_⟩
      rw [hfound]
      simp [Function.comp_def]
    · rintro ⟨rs, right, rfl, hr, hs, hbody, rfl⟩
      -- A method begins with a name, so the loop goes on before each and ends at the brace.
      obtain ⟨found, hfound, hloop⟩ := loop_of_parts (c := c.back [right])
        (S := fun ts f _ => Written n ts f) (P := Written n) (N := fun _ => True)
        (F := fun k => k = .identifier) Written.first
        (fun {t ts} ht => by
          rw [Cursor.back_back]
          exact inBody_back_cons (by rw [ht]; decide) _)
        (fun _ => trivial) (fun h _ => h) (inBody_back_rightBrace hr) trivial
        (rs.map fun r => (r.tokens, r.function)) #[] (by
          intro p hp
          obtain ⟨r, hrs, rfl⟩ := List.mem_map.mp hp
          exact ⟨r, hs r hrs, hbody r hrs, rfl, rfl⟩)
      refine ⟨_, right, _, rfl, ⟨found, rfl, ?_⟩, hr, ?_⟩
      · simpa [Function.comp_def] using hloop
      · rw [hfound]
        simp [Function.comp_def]

/-- A class from its name on. -/
def WrittenClass (n : Nat) (ts : List Token) (s : Stmt) : Prop :=
  ∃ (name : Token) (parent : Parent) (left : Token) (rs : List Routine) (right : Token),
    ts = name :: (parent.tokens ++ left :: ((rs.map Routine.tokens).flatten ++ [right])) ∧
      name.kind = .identifier ∧ parent.Spelled ∧ left.kind = .leftBrace ∧
      right.kind = .rightBrace ∧ (∀ r ∈ rs, r.Spelled) ∧
      (∀ r ∈ rs, ∀ p ∈ r.body, Sentence true n .declaration false p.1 p.2) ∧
      s = .classDecl name parent.reference (rs.map Routine.function)

theorem denotes_classDeclaration {n : Nat} {body : Parser (List Stmt)}
    (hb : Denotes body fun ts b _ => Body n false ts b) :
    Denotes (classDeclaration body) fun ts s _ => WrittenClass n ts s := by
  refine (Denotes.expect (k := .identifier) (by decide) _ fun name =>
    denotes_superclass.bind fun parent => .expect (k := .leftBrace) (by decide) _ fun _ =>
      denotes_methods hb _ (Stmt.classDecl name parent)).imp fun _ => ?_
  constructor
  · rintro ⟨name, _, rfl, hn, _, _, _, rfl, ⟨parent, hp, rfl, rfl, -⟩, left, _, rfl, hl, rs, right,
      rfl, hr, hs, hbody, rfl⟩
    exact ⟨name, parent, left, rs, right, rfl, hn, hp, hl, hr, hs, hbody, rfl⟩
  · rintro ⟨name, parent, left, rs, right, rfl, hn, hp, hl, hr, hs, hbody, rfl⟩
    refine ⟨name, _, rfl, hn, _, _, _, rfl, ⟨parent, hp, rfl, rfl, fun _ => ?_⟩, left, _, rfl, hl,
      rs, right, rfl, hr, hs, hbody, rfl⟩
    rw [Cursor.current_back_cons, hl]
    decide

/-! ### Statements and declarations -/

/-- The words that statements begin with, and the brace of a block. -/
def isStatementWord : Token.Kind → Bool
  | .printKeyword | .returnKeyword | .whileKeyword | .forKeyword | .ifKeyword | .breakKeyword
  | .leftBrace => true
  | _ => false

/-- What follows the word `t` of a statement that is read with `n + 1` frames. -/
def AfterWord (n : Nat) (inLoop : Bool) (t : Token) (ts : List Token) (s : Stmt) (c : Cursor) :
    Prop :=
  match t.kind with
  | .printKeyword => ∃ us e semicolon, ts = us ++ [semicolon] ∧ Phrase n .assignment us e ∧
      semicolon.kind = .semicolon ∧ s = .print e
  | .returnKeyword => ∃ us e semicolon, ts = us ++ [semicolon] ∧
      Optional (Phrase n .assignment) us e ∧ semicolon.kind = .semicolon ∧ s = .returnWith t e
  | .whileKeyword => ∃ left us e right vs s', ts = left :: (us ++ right :: vs) ∧
      left.kind = .leftParen ∧ Phrase n .assignment us e ∧ right.kind = .rightParen ∧
      WholeStatement n true vs s' c ∧ s = .whileLoop e s'
  | .forKeyword => ∃ left is i cs cond semicolon es e right us s',
      ts = left :: (is ++ (cs ++ semicolon :: (es ++ right :: us))) ∧ left.kind = .leftParen ∧
      Initializer n is i ∧ Optional (Phrase n .assignment) cs cond ∧
      semicolon.kind = .semicolon ∧ Optional (Phrase n .assignment) es e ∧
      right.kind = .rightParen ∧ WholeStatement n true us s' c ∧ s = forLoop i cond e s'
  | .ifKeyword => ∃ left us e right vs s' ws other, ts = left :: (us ++ right :: (vs ++ ws)) ∧
      left.kind = .leftParen ∧ Phrase n .assignment us e ∧ right.kind = .rightParen ∧
      WholeStatement n inLoop vs s' (c.back ws) ∧ Otherwise n inLoop ws other c ∧
      s = .ifElse e s' other
  | .breakKeyword => inLoop = true ∧ ∃ semicolon, ts = [semicolon] ∧
      semicolon.kind = .semicolon ∧ s = .breakLoop t
  | .leftBrace => ∃ body, Body n inLoop ts body ∧ s = .block body
  | _ => False

/-- A statement begins with its word, or is an expression. -/
theorem afterWord_iff {n : Nat} {inLoop : Bool} {ts : List Token} {s : Stmt} {c : Cursor} :
    (∃ t us, ts = t :: us ∧ AfterWord n inLoop t us s c) ∨
      (∃ us e semicolon, ts = us ++ [semicolon] ∧ Phrase n .assignment us e ∧
        semicolon.kind = .semicolon ∧ s = .expression e) ↔
    WholeStatement (n + 1) inLoop ts s c := by
  constructor
  · rintro (⟨t, us, rfl, h⟩ | ⟨us, e, semicolon, rfl, he, hs, rfl⟩)
    -- What follows a word is fixed by its kind: one rule for each case.
    · unfold AfterWord at h
      split at h
      case h_1 hk =>
        obtain ⟨us, e, semicolon, rfl, he, hs, rfl⟩ := h
        exact ⟨false, .print hk he hs, fun h => nomatch h⟩
      case h_2 hk =>
        obtain ⟨us, e, semicolon, rfl, he, hs, rfl⟩ := h
        exact ⟨false, .returned hk he hs, fun h => nomatch h⟩
      case h_3 hk =>
        obtain ⟨left, us, e, right, vs, s', rfl, hl, he, hr, ⟨o, hs, ho⟩, rfl⟩ := h
        exact ⟨o, .whileDo hk hl he hr hs, ho⟩
      case h_4 hk =>
        obtain ⟨left, is, i, cs, cond, semicolon, es, e, right, us, s', rfl, hl, hi, hc, hm, he, hr,
          ⟨o, hs, ho⟩, rfl⟩ := h
        exact ⟨o, .forDo hk hl hi hc hm he hr hs, ho⟩
      case h_5 hk =>
        obtain ⟨left, us, e, right, vs, s', ws, other, rfl, hl, he, hr, ⟨o, hs, ho⟩, h, rfl⟩ := h
        rcases h with ⟨word, xs, s'', rfl, hw, ⟨o', hs', ho'⟩, rfl⟩ | ⟨rfl, rfl, hw⟩
        · -- The first branch is closed, since an `else` follows it.
          have hclosed : o = false := by
            cases o with
            | false => rfl
            | true => exact absurd hw (ho rfl)
          exact ⟨o', .ifElse hk hl he hr hs (fun _ => hclosed) hw hs', ho'⟩
        · rw [List.append_nil]
          exact ⟨true, .ifAlone hk hl he hr hs, fun _ => hw⟩
      case h_6 hk =>
        obtain ⟨rfl, semicolon, rfl, hs, rfl⟩ := h
        exact ⟨false, .broken hk hs, fun h => nomatch h⟩
      case h_7 hk =>
        obtain ⟨body, ⟨parts, right, rfl, hr, rfl, hall⟩, rfl⟩ := h
        exact ⟨false, .block hk hall hr, fun h => nomatch h⟩
      case h_8 => exact h.elim
    · exact ⟨false, .expression he hs, fun h => nomatch h⟩
  -- The other way round the word is given by the rule, and the match on its kind computes.
  · rintro ⟨o, h, ho⟩
    cases h with
    | expression he hs => exact .inr ⟨_, _, _, rfl, he, hs, rfl⟩
    | print hk he hs =>
      refine .inl ⟨_, _, rfl, ?_⟩
      simpa only [AfterWord, hk] using ⟨_, _, _, rfl, he, hs, rfl⟩
    | returned hk he hs =>
      refine .inl ⟨_, _, rfl, ?_⟩
      simpa only [AfterWord, hk] using ⟨_, _, _, rfl, he, hs, rfl⟩
    | broken hk hs => exact .inl ⟨_, _, rfl, by simp [AfterWord, hk, hs]⟩
    | block hl hb hr =>
      refine .inl ⟨_, _, rfl, ?_⟩
      simpa only [AfterWord, hl] using ⟨_, ⟨_, _, rfl, hr, rfl, hb⟩, rfl⟩
    | whileDo hk hl he hr hs =>
      refine .inl ⟨_, _, rfl, ?_⟩
      simpa only [AfterWord, hk] using ⟨_, _, _, _, _, _, rfl, hl, he, hr, ⟨_, hs, ho⟩, rfl⟩
    | forDo hk hl hi hc hm he hr hs =>
      refine .inl ⟨_, _, rfl, ?_⟩
      simpa only [AfterWord, hk] using
        ⟨_, _, _, _, _, _, _, _, _, _, _, rfl, hl, hi, hc, hm, he, hr, ⟨_, hs, ho⟩, rfl⟩
    | ifAlone hk hl he hr hs =>
      refine .inl ⟨_, _, rfl, ?_⟩
      simpa only [AfterWord, hk] using ⟨_, _, _, _, _, _, [], none, by rw [List.append_nil], hl,
        he, hr, ⟨_, hs, fun _ => ho rfl⟩, .inr ⟨rfl, rfl, ho rfl⟩, rfl⟩
    | ifElse hk hl he hr hs hn hw hs' =>
      refine .inl ⟨_, _, rfl, ?_⟩
      rw [hn rfl] at hs
      simpa only [AfterWord, hk] using ⟨_, _, _, _, _, _, _, some _, rfl, hl, he, hr,
        ⟨false, hs, fun h => nomatch h⟩, .inl ⟨_, _, _, rfl, hw, ⟨_, hs', ho⟩, rfl⟩, rfl⟩

theorem AfterWord.isStatementWord {n : Nat} {inLoop : Bool} {t : Token} {ts : List Token}
    {s : Stmt} {c : Cursor} (h : AfterWord n inLoop t ts s c) : isStatementWord t.kind := by
  unfold AfterWord at h
  split at h <;> first | exact h.elim | simp [*, Tree.isStatementWord]

/-- No expression begins with a word of statements. -/
theorem Phrase.isStatementWord {n : Nat} {l : Level} {ts : List Token} {e : Expr}
    (h : Phrase n l ts e) :
    ∃ t us, ts = t :: us ∧ Tree.isStatementWord t.kind = false := by
  obtain ⟨t, us, rfl, ht⟩ := h.first
  refine ⟨t, us, rfl, ?_⟩
  revert ht
  cases t.kind <;> decide

theorem denotes_statement_succ {n : Nat} {inLoop : Bool}
    (hs : ∀ inLoop, Denotes (statement n inLoop) (WholeStatement n inLoop))
    (hd : Denotes (declaration n inLoop) fun ts o c =>
      ∃ s, o = some s ∧ Declared n inLoop ts s c) :
    Denotes (statement (n + 1) inLoop) (WholeStatement (n + 1) inLoop) := by
  have hv := denotes_expression n .assignment
  rw [statement]
  refine (denotes_peek.bind (E := fun t ts s c =>
    isStatementWord t.kind ∧ Taken (fun us => AfterWord n inLoop t us s c) ts c ∨
      isStatementWord t.kind = false ∧ ∃ us e semicolon, ts = us ++ [semicolon] ∧
        Phrase n .assignment us e ∧ semicolon.kind = .semicolon ∧ s = .expression e)
    fun t => ?_).imp ?_
  · split
    case h_1 hk =>
      refine (denotes_phraseStatement hv _ .print).advance.imp fun _ => ?_
      simp [AfterWord, hk, isStatementWord]
    case h_2 hk =>
      refine (denotes_returnStatement hv t).advance.imp fun _ => ?_
      simp [AfterWord, hk, isStatementWord]
    case h_3 hk =>
      refine (denotes_whileStatement hv (hs true)).advance.imp fun _ => ?_
      simp [AfterWord, hk, isStatementWord]
    case h_4 hk =>
      refine (denotes_forStatement hv (hs true)).advance.imp fun _ => ?_
      simp [AfterWord, hk, isStatementWord]
    case h_5 hk =>
      refine (denotes_ifStatement hv (hs inLoop)).advance.imp fun _ => ?_
      simp [AfterWord, hk, isStatementWord]
    case h_6 hk =>
      refine (denotes_breakStatement t inLoop).advance.imp fun _ => ?_
      simp [AfterWord, hk, isStatementWord]
    case h_7 hk =>
      refine ((denotes_block hd).map Stmt.block).advance.imp fun _ => ?_
      simp [AfterWord, hk, isStatementWord]
    -- No other word begins a statement, so an expression is read.
    case h_8 h₁ h₂ h₃ h₄ h₅ h₆ h₇ =>
      have hword : isStatementWord t.kind = false := by
        unfold isStatementWord
        split <;> first | rfl | simp_all
      refine (denotes_phraseStatement hv _ .expression).imp fun _ => ?_
      simp [hword]
  · intro ts s c hc
    rw [← afterWord_iff]
    constructor
    · rintro ⟨_, t, us, rfl, ⟨rfl, rfl⟩, ⟨hw, h⟩ | ⟨-, h⟩⟩
      · have hk : (c.back us).current.kind ≠ .endOfInput := by
          intro he
          rw [he] at hw
          cases hw
        obtain ⟨vs, hvs, ha⟩ := (taken_iff hc hk).mp h
        exact .inl ⟨_, vs, hvs, ha⟩
      · exact .inr h
    · rintro (⟨t, us, rfl, h⟩ | ⟨us, e, semicolon, rfl, he, hm, rfl⟩)
      · exact ⟨[], t, t :: us, rfl, ⟨rfl, rfl⟩,
          .inl ⟨h.isStatementWord, [t], t, us, rfl, .inl rfl, h⟩⟩
      · obtain ⟨t, ws, rfl, ht⟩ := he.isStatementWord
        exact ⟨[], t, _, rfl, ⟨rfl, rfl⟩, .inr ⟨ht, _, _, _, rfl, he, hm, rfl⟩⟩

theorem denotes_declaration_succ {n : Nat} {inLoop : Bool}
    (hs : Denotes (statement n inLoop) (WholeStatement n inLoop))
    (hd : Denotes (declaration n false) fun ts o c =>
      ∃ s, o = some s ∧ Declared n false ts s c) :
    Denotes (declaration (n + 1) inLoop) fun ts o c =>
      ∃ s, o = some s ∧ Declared (n + 1) inLoop ts s c := by
  have hb := denotes_block hd
  -- The three words are asked for one after another, and what begins with none is a statement.
  rw [declaration]
  refine denotes_recovering ((Denotes.skips (k := .classKeyword) (by decide)
    (denotes_classDeclaration hb) (.skips (k := .funKeyword) (by decide)
      ((denotes_function hb "function").map Stmt.funDecl) (.skips (k := .varKeyword) (by decide)
        (denotes_varDeclaration (denotes_expression n .assignment)) hs))).imp fun _ => ?_)
  constructor
  · rintro (⟨keyword, us, rfl, hk, name, parent, left, rs, right, rfl, hn, hp, hl, hr, hspelled,
      hbody, rfl⟩ | ⟨hclass, ⟨keyword, us, rfl, hk, f, ⟨r, hr, hbody, rfl, rfl⟩, rfl⟩ |
        ⟨hfun, ⟨keyword, us, rfl, hk, hv⟩ | ⟨hvar, h⟩⟩⟩)
    · exact ⟨n, rfl, .inl ⟨by simp [startsDeclaration, hk],
        .classDecl hk hn hp hl hspelled hbody hr⟩⟩
    · exact ⟨n, rfl, .inl ⟨by simp [startsDeclaration, hk], .funDecl hk hr hbody⟩⟩
    · exact ⟨n, rfl, .inl ⟨by simp [startsDeclaration, hk], .varDecl hk hv⟩⟩
    · exact ⟨n, rfl, .inr ⟨by simp [startsDeclaration, hclass, hfun, hvar], h⟩⟩
  · -- A declaration that begins with none of the three words is a statement.
    rintro ⟨_, ⟨⟩, ⟨hstart, h⟩ | ⟨hk, h⟩⟩
    · cases h with
      | classDecl hk hn hp hl hm hbody hr =>
        exact .inl ⟨_, _, rfl, hk, _, _, _, _, _, rfl, hn, hp, hl, hr, hm, hbody, rfl⟩
      | funDecl hk hr hbody =>
        refine .inr ⟨?_, .inl ⟨_, _, rfl, hk, _, ⟨_, hr, hbody, rfl, rfl⟩, rfl⟩⟩
        rw [Cursor.current_back_cons, hk]
        decide
      | varDecl hk hv =>
        refine .inr ⟨?_, .inr ⟨?_, .inl ⟨_, _, rfl, hk, hv⟩⟩⟩
        · rw [Cursor.current_back_cons, hk]
          decide
        · rw [Cursor.current_back_cons, hk]
          decide
      | statement hs =>
        obtain ⟨t, us, rfl, ht⟩ := hs.first
        rw [Cursor.current_back_cons, startsDeclaration_of_startsSentence ht] at hstart
        cases hstart
    · simp only [startsDeclaration, Bool.or_eq_false_iff, beq_eq_false_iff_ne] at hk
      exact .inr ⟨hk.2, .inr ⟨hk.1.2, .inr ⟨hk.1.1, h⟩⟩⟩

/-- With `n` frames, statements and declarations are read as they are derived
within `n`. -/
theorem denotes_sentences (n : Nat) :
    (∀ inLoop, Denotes (statement n inLoop) (WholeStatement n inLoop)) ∧
      ∀ inLoop, Denotes (declaration n inLoop) fun ts o c =>
        ∃ s, o = some s ∧ Declared n inLoop ts s c := by
  induction n with
  | zero =>
    constructor
    · intro inLoop
      rw [statement]
      refine (Denotes.throw _).imp fun _ => ⟨False.elim, ?_⟩
      rintro ⟨o, h, -⟩
      cases h
    · intro inLoop
      rw [declaration]
      refine (Denotes.throw _).imp fun _ => ⟨False.elim, ?_⟩
      rintro ⟨s, -, m, hm, -⟩
      cases hm
  | succ n ih =>
    exact ⟨fun inLoop => denotes_statement_succ ih.1 (ih.2 inLoop),
      fun inLoop => denotes_declaration_succ (ih.1 inLoop) (ih.2 false)⟩

theorem denotes_declaration (n : Nat) (inLoop : Bool) :
    Denotes (declaration n inLoop) fun ts o c => ∃ s, o = some s ∧ Declared n inLoop ts s c :=
  (denotes_sentences n).2 inLoop

end Lox.Tree
