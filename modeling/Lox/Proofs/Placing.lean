/-
Where messages are.

A message is at a place of the source, and shows the line with the number of that place.
Reading reports only the tokens it reads, and puts no others into a tree; resolution
reports only the tokens of trees.  What counts as a place is left open.

* `Steady` — a computation that keeps an invariant, however it ends;
* `steady_many`, `steady_commaList`, `steady_chainLeft`, `steady_suffixes` — the loops of the
  parser, for any invariant;
* `Diagnostic.Placed`, `Report.Placed` — messages at places, and reports that go on with
  such messages;
* `PlacedExpr`, `PlacedStmt`, `PlacedFunction` — trees whose tokens have places;
* `places_expression`, `places_sentences`, `parse_placed` — reading;
* `places_statement`, `places_topLevel`, `resolve_placed` — resolution, which stops only
  inside a statement that is too deep.
-/
import Lox.Proofs.Quiet
import Lox.Tree.Parse

namespace Lox

/-! ### Invariants of a computation -/

/-- From a state in `I` a computation comes to a state in `I`, with a result in `P` or
a reason to stop in `E`. -/
structure Steady {ε σ α : Type} (I : σ → Prop) (E : ε → Prop) (p : EStateM ε σ α)
    (P : α → Prop) : Prop where
  ok : ∀ {s a s'}, I s → p s = .ok a s' → I s' ∧ P a
  error : ∀ {s e s'}, I s → p s = .error e s' → I s' ∧ E e

namespace Steady

variable {ε σ α β : Type} {I : σ → Prop} {E : ε → Prop} {p : EStateM ε σ α} {P : α → Prop}
  {Q : β → Prop}

theorem imp {P' : α → Prop} (h : Steady I E p P) (hP : ∀ a, P a → P' a) : Steady I E p P' :=
  ⟨fun hs hp => (h.ok hs hp).imp_right (hP _), h.error⟩

theorem any (h : Steady I E p P) : Steady I E p fun _ => True :=
  h.imp fun _ _ => trivial

theorem pure {a : α} (h : P a) : Steady I E (pure a) P := by
  refine ⟨?_, ?_⟩
  · rintro s _ _ hs ⟨⟩
    exact ⟨hs, h⟩
  · rintro s _ _ hs ⟨⟩

theorem throw {e : ε} (h : E e) : Steady I E (throw e : EStateM ε σ α) P := by
  refine ⟨?_, ?_⟩
  · rintro s _ _ hs ⟨⟩
  · rintro s _ _ hs ⟨⟩
    exact ⟨hs, h⟩

theorem get : Steady I E (get : EStateM ε σ σ) I := by
  refine ⟨?_, ?_⟩
  · rintro s _ _ hs ⟨⟩
    exact ⟨hs, hs⟩
  · rintro s _ _ hs ⟨⟩

theorem modifyGet {f : σ → α × σ} (h : ∀ s, I s → I (f s).2 ∧ P (f s).1) :
    Steady I E (modifyGet f : EStateM ε σ α) P := by
  refine ⟨?_, ?_⟩
  · rintro s _ _ hs ⟨⟩
    exact h s hs
  · rintro s _ _ hs ⟨⟩

theorem modify {f : σ → σ} (h : ∀ s, I s → I (f s)) :
    Steady I E (modify f : EStateM ε σ PUnit) fun _ => True :=
  modifyGet fun s hs => ⟨h s hs, trivial⟩

theorem bind {f : α → EStateM ε σ β} (h : Steady I E p P) (hf : ∀ a, P a → Steady I E (f a) Q) :
    Steady I E (p >>= f) Q := by
  refine ⟨fun {s b s'} hs hrun => ?_, fun {s e s'} hs hrun => ?_⟩
  · cases hp : p s with
    | ok a t =>
      rw [bind_ok hp] at hrun
      obtain ⟨ht, ha⟩ := h.ok hs hp
      exact (hf a ha).ok ht hrun
    | error e t =>
      rw [bind_error hp] at hrun
      cases hrun
  · cases hp : p s with
    | ok a t =>
      rw [bind_ok hp] at hrun
      obtain ⟨ht, ha⟩ := h.ok hs hp
      exact (hf a ha).error ht hrun
    | error e' t =>
      rw [bind_error hp] at hrun
      cases hrun
      exact h.error hs hp

theorem map {f : α → β} (h : Steady I E p P) (hf : ∀ a, P a → Q (f a)) :
    Steady I E (f <$> p) Q := by
  rw [map_eq_pure_bind]
  exact h.bind fun a ha => pure (hf a ha)

/-- What is there is not missing. -/
protected theorem some (h : Steady I E p P) : Steady I E (some <$> p) fun o => ∀ a ∈ o, P a :=
  h.map fun a ha => by simpa using ha

theorem ite {c : Prop} [Decidable c] {q : EStateM ε σ α} (h : Steady I E p P)
    (h' : Steady I E q P) : Steady I E (if c then p else q) P := by
  split
  · exact h
  · exact h'

theorem mapM {ι : Type} {f : ι → EStateM ε σ α} {is : List ι} (h : ∀ i ∈ is, Steady I E (f i) P) :
    Steady I E (is.mapM f) fun as => ∀ a ∈ as, P a := by
  induction is with
  | nil => exact pure (by simp)
  | cons i is ih =>
    rw [List.forall_mem_cons] at h
    rw [List.mapM_cons]
    exact h.1.bind fun a ha => (ih h.2).bind fun as has => pure (List.forall_mem_cons.mpr ⟨ha, has⟩)

theorem optionMapM {ι : Type} {f : ι → EStateM ε σ α} {o : Option ι}
    (h : ∀ i ∈ o, Steady I E (f i) P) : Steady I E (o.mapM f) fun r => ∀ a ∈ r, P a := by
  cases o with
  | none => exact pure (by simp)
  | some i => exact (h i rfl).map fun a ha => by simpa using ha

end Steady

/-! ### Messages -/

/-- A message is at a place, and shows the line with its number. -/
structure Diagnostic.Placed (T : Span → Prop) (L : Listing) (d : Diagnostic) : Prop where
  place : T d.span
  shown : d.sourceLine = L.line? d.line

/-- A report goes on from another, with messages that are at places. -/
structure Report.Placed (T : Span → Prop) (L : Listing) (r r' : Report) : Prop where
  grows : r.Extends r'
  places : ∀ d ∈ r'.diagnostics, d ∈ r.diagnostics ∨ d.Placed T L

section

variable {T : Span → Prop} {L : Listing} {r r' : Report}

theorem Report.Placed.refl : r.Placed T L r :=
  ⟨.refl r, fun _ => .inl⟩

theorem Report.Placed.add (h : r.Placed T L r') {d : Diagnostic} (hs : d.Static)
    (hd : d.Placed T L) : r.Placed T L (r'.add d) := by
  refine ⟨h.grows.trans (.add r' hs), fun d' hd' => ?_⟩
  rcases Array.mem_push.mp hd' with hd' | rfl
  · exact h.places d' hd'
  · exact .inr hd

end

/-! ### Trees -/

/-- An expression whose tokens have places. -/
inductive PlacedExpr (T : Span → Prop) : Expr → Prop
  | literal {v : Literal} : PlacedExpr T (.literal v)
  | grouping {e : Expr} (he : PlacedExpr T e) : PlacedExpr T (.grouping e)
  | unary {op : Token} {e : Expr} (ht : T op.span) (he : PlacedExpr T e) :
      PlacedExpr T (.unary op e)
  | binary {op : Token} {l r : Expr} (ht : T op.span) (hl : PlacedExpr T l)
      (hr : PlacedExpr T r) : PlacedExpr T (.binary l op r)
  | logical {op : Token} {l r : Expr} (ht : T op.span) (hl : PlacedExpr T l)
      (hr : PlacedExpr T r) : PlacedExpr T (.logical l op r)
  | var {ref : Reference} (ht : T ref.token.span) : PlacedExpr T (.var ref)
  | assign {ref : Reference} {e : Expr} (ht : T ref.token.span) (he : PlacedExpr T e) :
      PlacedExpr T (.assign ref e)
  | call {paren : Token} {f : Expr} {es : List Expr} (ht : T paren.span) (hf : PlacedExpr T f)
      (hes : ∀ e ∈ es, PlacedExpr T e) : PlacedExpr T (.call f paren es)
  | get {name : Token} {o : Expr} (ht : T name.span) (ho : PlacedExpr T o) :
      PlacedExpr T (.get o name)
  | set {name : Token} {o e : Expr} (ht : T name.span) (ho : PlacedExpr T o)
      (he : PlacedExpr T e) : PlacedExpr T (.set o name e)
  | this {ref : Reference} (ht : T ref.token.span) : PlacedExpr T (.thisRef ref)
  | super {ref : Reference} {method : Token} (ht : T ref.token.span) :
      PlacedExpr T (.superRef ref method)

mutual

/-- A statement whose tokens have places. -/
inductive PlacedStmt (T : Span → Prop) : Stmt → Prop
  | expression {e : Expr} (he : PlacedExpr T e) : PlacedStmt T (.expression e)
  | print {e : Expr} (he : PlacedExpr T e) : PlacedStmt T (.print e)
  | varDecl {name : Token} {init : Option Expr} (ht : T name.span)
      (hi : ∀ e ∈ init, PlacedExpr T e) : PlacedStmt T (.varDecl name init)
  | block {body : List Stmt} (hb : ∀ s ∈ body, PlacedStmt T s) : PlacedStmt T (.block body)
  | ifElse {e : Expr} {s : Stmt} {other : Option Stmt} (he : PlacedExpr T e)
      (hs : PlacedStmt T s) (ho : ∀ t ∈ other, PlacedStmt T t) : PlacedStmt T (.ifElse e s other)
  | whileLoop {e : Expr} {s : Stmt} (he : PlacedExpr T e) (hs : PlacedStmt T s) :
      PlacedStmt T (.whileLoop e s)
  | breakLoop {keyword : Token} (ht : T keyword.span) : PlacedStmt T (.breakLoop keyword)
  | funDecl {f : Function} (hf : PlacedFunction T f) : PlacedStmt T (.funDecl f)
  | returnWith {keyword : Token} {value : Option Expr} (ht : T keyword.span)
      (hv : ∀ e ∈ value, PlacedExpr T e) : PlacedStmt T (.returnWith keyword value)
  | classDecl {name : Token} {superclass : Option Reference} {ms : List Function}
      (ht : T name.span) (hs : ∀ ref ∈ superclass, T ref.token.span)
      (hm : ∀ f ∈ ms, PlacedFunction T f) : PlacedStmt T (.classDecl name superclass ms)

/-- A function whose tokens have places. -/
inductive PlacedFunction (T : Span → Prop) : Function → Prop
  | mk {name : Token} {params : List Token} {body : List Stmt} (ht : T name.span)
      (hp : ∀ p ∈ params, T p.span) (hb : ∀ s ∈ body, PlacedStmt T s) :
      PlacedFunction T (.mk name params body)

end

variable {T : Span → Prop} {L : Listing} {r : Report}

theorem PlacedFunction.name {f : Function} (h : PlacedFunction T f) : T f.name.span := by
  cases h with
  | mk ht _ _ => exact ht

/-! ### Reading -/

namespace Tree

open Lox.Tree.Parser

/-- The tokens ahead have places, and so have the messages. -/
structure Cursor.Placed (T : Span → Prop) (L : Listing) (r : Report) (c : Cursor) : Prop where
  ahead : ∀ t ∈ c.ahead, T t.span
  last : T c.last.span
  listing : c.listing = L
  report : r.Placed T L c.report

/-- A complaint is about a token with a place. -/
def Halt.Placed (T : Span → Prop) : Halt → Prop
  | .complaint t _ => T t.span
  | .tooDeep => True

namespace Cursor.Placed

variable {c : Cursor}

theorem current (h : c.Placed T L r) : T c.current.span := by
  unfold Cursor.current
  cases hahead : c.ahead with
  | nil => exact h.last
  | cons t rest =>
    refine h.ahead t ?_
    rw [hahead]
    exact List.mem_cons_self

theorem next (h : c.Placed T L r) : c.next.Placed T L r :=
  ⟨fun t ht => h.ahead t (List.mem_of_mem_tail ht), h.last, h.listing, h.report⟩

theorem complain (h : c.Placed T L r) {t : Token} (ht : T t.span) (why : Complaint) :
    (c.complain t why).Placed T L r := by
  refine ⟨h.ahead, h.last, h.listing, h.report.add (why.static t _) ⟨ht, ?_⟩⟩
  rw [← h.listing]
  rfl

end Cursor.Placed

/-! ### Repetition

Loops keep what their steps keep, whatever that is. -/

section Repetition

variable {α : Type} {I : Cursor → Prop} {E : Halt → Prop} {P : α → Prop} {K : Token → Prop}

theorem steady_peek : Steady I E peek fun _ => True :=
  .bind .get fun _ _ => .pure trivial

theorem steady_many {more : Cursor → Bool} {step : Parser (Option α)}
    (h : Steady I E step fun o => ∀ a ∈ o, P a) :
    Steady I E (many more step) fun as => ∀ a ∈ as, P a := by
  have hfrom : ∀ (fuel : Nat) (found : Array α), (∀ a ∈ found, P a) →
      Steady I E (manyFrom more step fuel found) fun as => ∀ a ∈ as, P a := by
    intro fuel
    induction fuel with
    | zero => exact fun found hf => .pure (by simpa using hf)
    | succ fuel ih =>
      intro found hf
      refine .bind .get fun c _ => .ite (.bind h fun o ho => ih _ ?_) (.pure (by simpa using hf))
      cases o with
      | none => exact hf
      | some b =>
        intro a ha
        rcases Array.mem_push.mp ha with ha | rfl
        · exact hf a ha
        · exact ho a rfl
  exact .bind .get fun c _ => hfrom _ _ (by simp)

/-- Beside its items, a list asks for commas, and complains of the token ahead. -/
theorem steady_commaList {what : String} {item : Parser α}
    (hcomma : Steady I E (skips .comma) fun _ => True) (hpeek : Steady I E peek K)
    (hcomplain : ∀ t why, K t → Steady I E (complain t why) fun _ => True)
    (h : Steady I E item P) : Steady I E (commaList what item) fun as => ∀ a ∈ as, P a := by
  have hfrom : ∀ (fuel : Nat) (found : Array α), (∀ a ∈ found, P a) →
      Steady I E (commaListFrom what item fuel found) fun as => ∀ a ∈ as, P a := by
    intro fuel
    induction fuel with
    | zero => exact fun found hf => .pure (by simpa using hf)
    | succ fuel ih =>
      intro found hf
      have hpush : ∀ {b}, P b → ∀ a ∈ found.push b, P a := by
        intro b hb a ha
        rcases Array.mem_push.mp ha with ha | rfl
        · exact hf a ha
        · exact hb
      -- The item is read whether or not the list is complained of as too long.
      have hrest : Steady I E (do
          let a ← item
          if ← skips .comma then commaListFrom what item fuel (found.push a)
          else pure (found.push a).toList) fun as => ∀ a ∈ as, P a :=
        .bind h fun b hb => .bind hcomma fun _ _ =>
          .ite (ih _ (hpush hb)) (.pure (by simpa using hpush hb))
      exact .ite (.bind hpeek fun t ht => .bind (hcomplain t _ ht) fun _ _ => hrest) hrest
  exact .bind .get fun c _ => .ite (.pure (by simp)) (.bind .get fun c _ => hfrom _ _ (by simp))

/-- The operators of a level are known as such, and join what is known of operands. -/
theorem steady_chainLeft {isOperator : Token.Kind → Bool} {join : Expr → Token → Expr → Expr}
    {operand : Parser Expr} {P : Expr → Prop}
    (hop : Steady I E (accept isOperator) fun o => ∀ t ∈ o, K t) (ho : Steady I E operand P)
    (hj : ∀ {l op r}, K op → P l → P r → P (join l op r)) :
    Steady I E (chainLeft isOperator join operand) P := by
  have hfrom : ∀ fuel e, P e → Steady I E (chainLeftFrom isOperator join operand fuel e) P := by
    intro fuel
    induction fuel with
    | zero => exact fun e he => .pure he
    | succ fuel ih =>
      intro e he
      refine .bind hop fun o hop => ?_
      cases o with
      | some op => exact .bind ho fun r hr => ih _ (hj (hop op rfl) he hr)
      | none => exact .pure he
  exact .bind ho fun e he => .bind steady_peek fun _ _ =>
    .ite (.bind .get fun c _ => hfrom _ e he) (.pure he)

/-- What follows an operand is a call of it, or a property of it. -/
theorem steady_suffixes {inner operand : Parser Expr} {P : Expr → Prop}
    (hskips : ∀ k, Steady I E (skips k) fun _ => True)
    (hcall : ∀ e, P e → Steady I E (finishCall inner e) P)
    (hname : Steady I E (expect .identifier "Expect property name after '.'.") K)
    (hget : ∀ {name e}, K name → P e → P (.get e name)) (ho : Steady I E operand P) :
    Steady I E (suffixes inner operand) P := by
  have hfrom : ∀ fuel e, P e → Steady I E (suffixesFrom inner fuel e) P := by
    intro fuel
    induction fuel with
    | zero => exact fun e he => .pure he
    | succ fuel ih =>
      intro e he
      exact .bind (hskips _) fun _ _ => .ite (.bind (hcall e he) ih)
        (.bind (hskips _) fun _ _ => .ite (.bind hname fun _ hn => ih _ (hget hn he))
          (.pure he))
  exact .bind ho fun e he => .bind steady_peek fun _ _ =>
    .ite (.bind .get fun c _ => hfrom _ e he) (.pure he)

/-- The token ahead decides whether there is a value. -/
theorem steady_optional {value : Parser Expr} {k : Token.Kind} {f : Option Expr → Parser α}
    {Q : Expr → Prop} (hv : Steady I E value Q)
    (hf : ∀ o, (∀ e ∈ o, Q e) → Steady I E (f o) P) :
    Steady I E (do
      let e ← if (← get).sees k then pure none else some <$> value
      f e) P :=
  .bind .get fun _ _ => .ite (hf none (by simp)) (.bind hv.some hf)

end Repetition

/-! ### Single tokens -/

/-- A parser keeps to places, however it ends. -/
abbrev Places {α : Type} (T : Span → Prop) (L : Listing) (r : Report) (p : Parser α)
    (P : α → Prop) : Prop :=
  Steady (Cursor.Placed T L r) (Halt.Placed T) p P

/-- A token with a place. -/
abbrev PlacedToken (T : Span → Prop) (t : Token) : Prop :=
  T t.span

section Tokens

variable {α : Type} {P : α → Prop}

theorem places_peek : Places T L r peek (PlacedToken T) :=
  .bind .get fun _ hc => .pure hc.current

theorem places_advance : Places T L r advance (PlacedToken T) :=
  .modifyGet fun _ hc => ⟨hc.next, hc.current⟩

theorem places_accept (wanted : Token.Kind → Bool) :
    Places T L r (accept wanted) fun o => ∀ t ∈ o, PlacedToken T t :=
  .bind places_peek fun _ _ => .ite (.some places_advance) (.pure (by simp))

theorem places_skips (k : Token.Kind) : Places T L r (skips k) fun _ => True :=
  .bind .get fun _ _ => .ite (.bind places_advance fun _ _ => .pure trivial) (.pure trivial)

theorem places_expect (k : Token.Kind) (text : String) :
    Places T L r (expect k text) (PlacedToken T) :=
  .bind places_peek fun _ ht => .ite places_advance (.throw ht)

theorem places_complain {t : Token} (ht : T t.span) (why : Complaint) :
    Places T L r (complain t why) fun _ => True :=
  .modify fun _ hc => hc.complain ht why

theorem mem_resumeAfter {t : Token} {ahead : List Token} : ∀ {previous : Token},
    t ∈ resumeAfter previous ahead → t ∈ ahead := by
  induction ahead with
  | nil => exact fun h => h
  | cons u rest ih =>
    intro previous h
    rw [resumeAfter] at h
    split at h
    · exact h
    · exact List.mem_cons_of_mem u (ih h)

theorem places_synchronize : Places T L r synchronize fun _ => True := by
  refine .modify fun c hc => ?_
  cases hahead : c.ahead with
  | nil => exact hc
  | cons t rest =>
    refine ⟨fun u hu => hc.ahead u ?_, hc.last, hc.listing, hc.report⟩
    rw [hahead]
    exact List.mem_cons_of_mem t (mem_resumeAfter hu)

/-- Recovery complains where the parser stopped. -/
theorem places_recovering {p : Parser α} (h : Places T L r p P) :
    Places T L r (recovering p) fun o => ∀ a ∈ o, P a := by
  have hcomplained : ∀ {t : Token} (why : Complaint), T t.span →
      Places T L r (do complain t why; synchronize; pure none : Parser (Option α))
        fun o => ∀ a ∈ o, P a := fun why ht =>
    .bind (places_complain ht why) fun _ _ => .bind places_synchronize fun _ _ => .pure (by simp)
  have hdeep : Places T L r (do complain (← peek) .tooDeep; synchronize; pure none :
      Parser (Option α)) fun o => ∀ a ∈ o, P a :=
    .bind places_peek fun _ ht => hcomplained .tooDeep ht
  -- What recovery does is decided by how the parser ended.
  have hrun : ∀ c, c.Placed T L r → ∃ q : Parser (Option α), ∃ c', c'.Placed T L r ∧
      Places T L r q (fun o => ∀ a ∈ o, P a) ∧ recovering p c = q c' := by
    intro c hc
    unfold recovering
    cases hp : p c with
    | ok a c' =>
      obtain ⟨hc', ha⟩ := h.ok hc hp
      exact ⟨pure (some a), c', hc', .pure (by simpa using ha), rfl⟩
    | error e c' =>
      obtain ⟨hc', he⟩ := h.error hc hp
      cases e with
      | complaint t why => exact ⟨_, c', hc', hcomplained why he, rfl⟩
      | tooDeep => exact ⟨_, c', hc', hdeep, rfl⟩
  refine ⟨fun {c _ _} hc hq => ?_, fun {c _ _} hc hq => ?_⟩
  · obtain ⟨q, c', hc', hplaces, heq⟩ := hrun c hc
    exact hplaces.ok hc' (heq ▸ hq)
  · obtain ⟨q, c', hc', hplaces, heq⟩ := hrun c hc
    exact hplaces.error hc' (heq ▸ hq)

theorem places_commaList {what : String} {item : Parser α} (h : Places T L r item P) :
    Places T L r (commaList what item) fun as => ∀ a ∈ as, P a :=
  steady_commaList (places_skips _) places_peek (fun _ why ht => places_complain ht why) h

end Tokens

/-! ### Expressions -/

theorem places_primary {inner : Parser Expr} (hi : Places T L r inner (PlacedExpr T)) :
    Places T L r (primary inner) (PlacedExpr T) := by
  refine .bind places_peek fun t ht => .ite (.bind places_advance fun _ _ => .pure .literal) ?_
  split
  · exact .bind places_advance fun _ _ => .bind (places_expect _ _) fun _ _ =>
      .bind (places_expect _ _) fun _ _ => .pure (.super ht)
  · exact .bind places_advance fun _ _ => .pure (.this ht)
  · exact .bind places_advance fun _ _ => .pure (.var ht)
  · exact .bind places_advance fun _ _ => .bind hi fun e he =>
      .bind (places_expect _ _) fun _ _ => .pure (.grouping he)
  · exact .throw ht

theorem places_suffixes {inner operand : Parser Expr} (hi : Places T L r inner (PlacedExpr T))
    (ho : Places T L r operand (PlacedExpr T)) :
    Places T L r (suffixes inner operand) (PlacedExpr T) := by
  have hcall : ∀ e, PlacedExpr T e → Places T L r (finishCall inner e) (PlacedExpr T) :=
    fun e he => .bind (places_commaList hi) fun es hes => .bind (places_expect _ _) fun paren hp =>
      .pure (.call hp he hes)
  exact steady_suffixes places_skips hcall (places_expect _ _) .get ho

theorem places_assignTo {target value : Expr} {equals : Token} (ht : PlacedExpr T target)
    (hv : PlacedExpr T value) (he : T equals.span) :
    Places T L r (assignTo target equals value) (PlacedExpr T) := by
  unfold assignTo
  split
  · cases ht with
    | var ht => exact .pure (.assign ht hv)
  · cases ht with
    | get hn ho => exact .pure (.set hn ho hv)
  · exact .bind (places_complain he _) fun _ _ => .pure ht

theorem places_expression (n : Nat) : ∀ l, Places T L r (expression n l) (PlacedExpr T) := by
  -- By induction on the frames, one level of precedence after another.
  induction n with
  | zero =>
    intro l
    unfold expression
    exact .throw trivial
  | succ n ih =>
    intro l
    cases l with
    | assignment =>
      refine .bind (ih .disjunction) fun e he => .bind (places_accept _) fun o ho => ?_
      cases o with
      | some equals =>
        exact .bind (ih .assignment) fun v hv => places_assignTo he hv (ho equals rfl)
      | none => exact .pure he
    | disjunction => exact steady_chainLeft (places_accept _) (ih _) .logical
    | conjunction => exact steady_chainLeft (places_accept _) (ih _) .logical
    | equality => exact steady_chainLeft (places_accept _) (ih _) .binary
    | comparison => exact steady_chainLeft (places_accept _) (ih _) .binary
    | term => exact steady_chainLeft (places_accept _) (ih _) .binary
    | factor => exact steady_chainLeft (places_accept _) (ih _) .binary
    | unary =>
      refine .bind (places_accept _) fun o ho => ?_
      cases o with
      | some op => exact .map (ih .unary) fun e he => .unary (ho op rfl) he
      | none => exact ih .call
    | call => exact places_suffixes (ih _) (ih _)
    | primary => exact places_primary (ih _)

/-! ### Statements -/

section Statements

variable {value : Parser Expr} {body : Parser Stmt}

theorem places_expressionStatement (hv : Places T L r value (PlacedExpr T)) :
    Places T L r (expressionStatement value) (PlacedStmt T) :=
  .bind hv fun _ he => .bind (places_expect _ _) fun _ _ => .pure (.expression he)

theorem places_varDeclaration (hv : Places T L r value (PlacedExpr T)) :
    Places T L r (varDeclaration value) (PlacedStmt T) := by
  have hrest : ∀ {name : Token} {o : Option Expr}, T name.span → (∀ e ∈ o, PlacedExpr T e) →
      Places T L r (do
        let _ ← expect .semicolon "Expect ';' after variable declaration."
        pure (Stmt.varDecl name o)) (PlacedStmt T) := fun hn ho =>
    .bind (places_expect _ _) fun _ _ => .pure (.varDecl hn ho)
  exact .bind (places_expect _ _) fun name hn => .bind (places_skips _) fun _ _ =>
    .ite (.bind (.some hv) fun _ ho => hrest hn ho) (hrest hn (by simp))

theorem places_returnStatement {keyword : Token} (ht : T keyword.span)
    (hv : Places T L r value (PlacedExpr T)) :
    Places T L r (returnStatement keyword value) (PlacedStmt T) :=
  steady_optional hv fun _ ho => .bind (places_expect _ _) fun _ _ => .pure (.returnWith ht ho)

theorem places_breakStatement {keyword : Token} (ht : T keyword.span) (inLoop : Bool) :
    Places T L r (breakStatement keyword inLoop) (PlacedStmt T) := by
  have hrest : Places T L r (do
      let _ ← expect .semicolon "Expect ';' after 'break'."
      pure (Stmt.breakLoop keyword)) (PlacedStmt T) :=
    .bind (places_expect _ _) fun _ _ => .pure (.breakLoop ht)
  exact .ite hrest (.bind (places_complain ht _) fun _ _ => hrest)

theorem places_whileStatement (hv : Places T L r value (PlacedExpr T))
    (hb : Places T L r body (PlacedStmt T)) :
    Places T L r (whileStatement value body) (PlacedStmt T) :=
  .bind (places_expect _ _) fun _ _ => .bind hv fun _ he => .bind (places_expect _ _) fun _ _ =>
    .map hb fun _ hs => .whileLoop he hs

theorem places_ifStatement (hv : Places T L r value (PlacedExpr T))
    (hb : Places T L r body (PlacedStmt T)) :
    Places T L r (ifStatement value body) (PlacedStmt T) :=
  .bind (places_expect _ _) fun _ _ => .bind hv fun _ he => .bind (places_expect _ _) fun _ _ =>
    .bind hb fun _ hs => .bind (places_skips _) fun _ _ =>
      .ite (.bind (.some hb) fun _ ho => .pure (.ifElse he hs ho))
        (.pure (.ifElse he hs (by simp)))

theorem forLoop_placed {i : Option Stmt} {c e : Option Expr} {s : Stmt}
    (hi : ∀ t ∈ i, PlacedStmt T t) (hc : ∀ e ∈ c, PlacedExpr T e) (he : ∀ v ∈ e, PlacedExpr T v)
    (hs : PlacedStmt T s) : PlacedStmt T (forLoop i c e s) := by
  have hbody : PlacedStmt T (e.elim s fun e => .block [s, .expression e]) := by
    cases e with
    | none => exact hs
    | some e => exact .block (by simpa using ⟨hs, .expression (he e rfl)⟩)
  have hcondition : PlacedExpr T (c.getD (.literal (.bool true))) := by
    cases c with
    | none => exact .literal
    | some c => exact hc c rfl
  have hloop := PlacedStmt.whileLoop hcondition hbody
  cases i with
  | none => exact hloop
  | some i => exact .block (by simpa using ⟨hi i rfl, hloop⟩)

theorem places_forStatement (hv : Places T L r value (PlacedExpr T))
    (hb : Places T L r body (PlacedStmt T)) :
    Places T L r (forStatement value body) (PlacedStmt T) := by
  have hinit : Places T L r (forInit value) fun o => ∀ t ∈ o, PlacedStmt T t :=
    .bind (places_skips _) fun _ _ => .ite (.pure (by simp)) (.bind (places_skips _) fun _ _ =>
      .ite (.some (places_varDeclaration hv)) (.some (places_expressionStatement hv)))
  exact .bind (places_expect _ _) fun _ _ => .bind hinit fun _ hi =>
    steady_optional hv fun _ hc => .bind (places_expect _ _) fun _ _ =>
      steady_optional hv fun _ he => .bind (places_expect _ _) fun _ _ =>
        .map hb fun _ hs => forLoop_placed hi hc he hs

theorem places_block {declaration : Parser (Option Stmt)}
    (hd : Places T L r declaration fun o => ∀ s ∈ o, PlacedStmt T s) :
    Places T L r (block declaration) fun body => ∀ s ∈ body, PlacedStmt T s :=
  .bind (steady_many hd) fun _ hb => .bind (places_expect _ _) fun _ _ => .pure hb

variable {stmts : Parser (List Stmt)}

theorem places_function (kind : String)
    (hb : Places T L r stmts fun body => ∀ s ∈ body, PlacedStmt T s) :
    Places T L r (function kind stmts) (PlacedFunction T) :=
  .bind (places_expect _ _) fun _ hn => .bind (places_expect _ _) fun _ _ =>
    .bind (places_commaList (places_expect _ _)) fun _ hp => .bind (places_expect _ _) fun _ _ =>
      .bind (places_expect _ _) fun _ _ => .map hb fun _ hb => .mk hn hp hb

theorem places_superclass :
    Places T L r superclass fun o => ∀ ref ∈ o, T ref.token.span :=
  .bind (places_skips _) fun _ _ =>
    .ite (.bind (places_expect _ _) fun _ ht => .pure (by simpa using ht)) (.pure (by simp))

theorem places_classDeclaration (hb : Places T L r stmts fun body => ∀ s ∈ body, PlacedStmt T s) :
    Places T L r (classDeclaration stmts) (PlacedStmt T) :=
  .bind (places_expect _ _) fun _ hn => .bind places_superclass fun _ hs =>
    .bind (places_expect _ _) fun _ _ => .bind (steady_many (.some (places_function _ hb)))
      fun _ hm => .bind (places_expect _ _) fun _ _ => .pure (.classDecl hn hs hm)

theorem places_sentences (n : Nat) :
    (∀ inLoop, Places T L r (statement n inLoop) (PlacedStmt T)) ∧
      ∀ inLoop, Places T L r (declaration n inLoop) fun o => ∀ s ∈ o, PlacedStmt T s := by
  -- By induction on the frames, statements and declarations together.
  induction n with
  | zero =>
    constructor
    · intro inLoop
      rw [statement]
      exact .throw trivial
    · intro inLoop
      rw [declaration]
      exact .throw trivial
  | succ n ih =>
    obtain ⟨hs, hd⟩ := ih
    have hv : Places T L r (expression n .assignment) (PlacedExpr T) := places_expression n _
    have hbody := places_block (hd false)
    constructor
    · intro inLoop
      rw [statement]
      refine .bind places_peek fun t ht => ?_
      split
      · exact .bind places_advance fun _ _ => .bind hv fun _ he =>
          .bind (places_expect _ _) fun _ _ => .pure (.print he)
      · exact .bind places_advance fun _ _ => places_returnStatement ht hv
      · exact .bind places_advance fun _ _ => places_whileStatement hv (hs true)
      · exact .bind places_advance fun _ _ => places_forStatement hv (hs true)
      · exact .bind places_advance fun _ _ => places_ifStatement hv (hs inLoop)
      · exact .bind places_advance fun _ _ => places_breakStatement ht inLoop
      · exact .bind places_advance fun _ _ => .map (places_block (hd inLoop)) fun _ hb => .block hb
      · exact places_expressionStatement hv
    · intro inLoop
      rw [declaration]
      exact places_recovering (.bind (places_skips _) fun _ _ =>
        .ite (places_classDeclaration hbody) (.bind (places_skips _) fun _ _ =>
          .ite (.map (places_function _ hbody) fun _ hf => .funDecl hf)
            (.bind (places_skips _) fun _ _ => .ite (places_varDeclaration hv) (hs inLoop))))

end Statements

/-- Reading tokens that have places, whatever is wrong with them. -/
theorem parse_placed (frames : Nat) {tokens : List Token} (L : Listing) (r : Report)
    (htokens : ∀ t ∈ tokens, T t.span) (hend : T Token.endOfNothing.span) :
    (∀ s ∈ (parse frames tokens L r).1, PlacedStmt T s) ∧
      r.Placed T L (parse frames tokens L r).2 := by
  have hprogram : Places T L r (program frames) fun body => ∀ s ∈ body, PlacedStmt T s :=
    steady_many ((places_sentences frames).2 false)
  have hstart : (Cursor.ofTokens tokens L r).Placed T L r := by
    refine ⟨fun t ht => htokens t ((List.takeWhile_sublist _).mem ht), ?_, rfl, .refl⟩
    cases hfind : tokens.find? (·.isEnd) with
    | none => simpa [Cursor.ofTokens, hfind] using hend
    | some t => simpa [Cursor.ofTokens, hfind] using htokens t (List.mem_of_find?_eq_some hfind)
  unfold parse
  split
  · obtain ⟨hc, hs⟩ := hprogram.ok hstart ‹_›
    exact ⟨hs, hc.report⟩
  · exact ⟨by simp, (hprogram.error hstart ‹_›).1.report⟩

end Tree

/-! ### The token of a tree -/

/-- A node whose tokens have places. -/
def Node.Placed (T : Span → Prop) : Node → Prop
  | .expr e => PlacedExpr T e
  | .stmt s => PlacedStmt T s

namespace Node

theorem Placed.token {n : Node} (h : n.Placed T) {t : Token} (ht : t ∈ n.token?) : T t.span := by
  cases n with
  | expr e => cases h <;> cases ht <;> assumption
  | stmt s =>
    cases h with
    | funDecl hf =>
      cases ht
      exact hf.name
    | _ => cases ht <;> assumption

theorem Placed.children {n : Node} (h : n.Placed T) : ∀ m ∈ n.children, m.Placed T := by
  cases n with
  | expr e =>
    cases h with
    | grouping he => exact List.forall_mem_singleton.mpr he
    | _ => exact List.forall_mem_nil _
  | stmt s =>
    cases h with
    | expression he => exact List.forall_mem_singleton.mpr he
    | print he => exact List.forall_mem_singleton.mpr he
    | block hb => exact List.forall_mem_map.mpr hb
    | @ifElse e s other he hs ho =>
      cases other with
      | none => exact List.forall_mem_cons.mpr ⟨he, List.forall_mem_singleton.mpr hs⟩
      | some t =>
        exact List.forall_mem_cons.mpr ⟨he, List.forall_mem_cons.mpr
          ⟨hs, List.forall_mem_singleton.mpr (ho t rfl)⟩⟩
    | whileLoop he hs => exact List.forall_mem_cons.mpr ⟨he, List.forall_mem_singleton.mpr hs⟩
    | _ => exact List.forall_mem_nil _

theorem firstTokenFrom_placed (level : List Node) (h : ∀ n ∈ level, n.Placed T) :
    ∀ t ∈ firstTokenFrom level, T t.span := by
  -- Level by level, as the search goes.
  fun_induction firstTokenFrom level with
  | case1 => simp
  | case2 n rest t hfound =>
    rintro _ ⟨⟩
    obtain ⟨m, hm, ht⟩ := List.exists_of_findSome?_eq_some hfound
    exact (h m hm).token ht
  | case3 n rest _ ih =>
    refine ih fun m hm => ?_
    obtain ⟨k, hk, hm⟩ := List.mem_flatMap.mp hm
    exact (h k hk).children m hm

/-- A tree is reported at a place. -/
theorem Placed.firstToken {n : Node} (h : n.Placed T) (hend : T Token.endOfNothing.span) :
    T n.firstToken.span := by
  have hfirst := firstTokenFrom_placed [n] (by simpa using h)
  unfold Node.firstToken
  cases hfound : firstTokenFrom [n] with
  | none => exact hend
  | some t => exact hfirst t hfound

end Node

/-! ### Resolution -/

namespace Scope

open Resolver

/-- The messages so far have places. -/
structure Context.Placed (T : Span → Prop) (L : Listing) (r : Report) (c : Context) : Prop where
  listing : c.listing = L
  report : r.Placed T L c.report

/-- Resolution keeps to places, however it ends. -/
abbrev Places {α : Type} (T : Span → Prop) (L : Listing) (r : Report) (p : Resolver α) : Prop :=
  Steady (Context.Placed T L r) (· = .tooDeep) p fun _ => True

section Tokens

variable {α : Type}

theorem places_complain {t : Token} (ht : T t.span) (p : Problem) :
    Places T L r (complain t p) :=
  .modify fun _ hc => ⟨hc.listing, hc.report.add (p.static t _) ⟨ht, hc.listing ▸ rfl⟩⟩

theorem places_leaving {p : Resolver α} {leave : Context → Context} (hp : Places T L r p)
    (hl : ∀ c, Context.Placed T L r c → Context.Placed T L r (leave c)) :
    Places T L r (leaving p leave) := by
  refine ⟨fun hc hrun => ?_, fun hc hrun => ?_⟩
  · unfold leaving at hrun
    split at hrun
    · cases hrun
      exact (hp.ok hc ‹_›).imp_left (hl _)
    · cases hrun
  · unfold leaving at hrun
    split at hrun
    · cases hrun
    · cases hrun
      exact (hp.error hc ‹_›).imp_left (hl _)

/-- A call that there is no frame for is what resolution may stop at. -/
theorem places_call (n : Nat) : Places T L r (call n) := by
  cases n with
  | zero => exact .throw rfl
  | succ n => exact .pure trivial

theorem places_withScope {scope : Names} {p : Resolver α} (hp : Places T L r p) :
    Places T L r (withScope scope p) :=
  .bind (.modify fun _ hc => ⟨hc.listing, hc.report⟩) fun _ _ =>
    places_leaving hp fun _ hc => ⟨hc.listing, hc.report⟩

theorem places_inScope (n : Nat) {scope : Names} {p : Resolver α} (hp : Places T L r p) :
    Places T L r (inScope n scope p) :=
  .bind (places_call n) fun _ _ => places_withScope hp

theorem places_inFunction {kind : FunctionKind} {first : Resolver Unit} {p : Resolver α}
    (hf : Places T L r first) (hp : Places T L r p) : Places T L r (inFunction kind first p) :=
  .bind .get fun _ _ => .bind (.modify fun _ hc => ⟨hc.listing, hc.report⟩) fun _ _ =>
    .bind hf fun _ _ => places_leaving hp fun _ hc => ⟨hc.listing, hc.report⟩

theorem places_inClass {first : Resolver Unit} {p : Resolver α} (hf : Places T L r first)
    (hp : Places T L r p) : Places T L r (inClass first p) :=
  .bind .get fun _ _ => .bind (.modify fun _ hc => ⟨hc.listing, hc.report⟩) fun _ _ =>
    .bind hf fun _ _ => places_leaving hp fun _ hc => ⟨hc.listing, hc.report⟩

/-- A complaint that may be made first. -/
theorem places_complainIf {c : Prop} [Decidable c] {t : Token} (ht : T t.span) (p : Problem)
    {q : Resolver α} (hq : Places T L r q) :
    Places T L r (do
      if c then complain t p
      q) :=
  .ite (.bind (places_complain ht p) fun _ _ => hq) hq

theorem places_define (n : Nat) (name : Token) : Places T L r (define n name) :=
  .bind (places_call n) fun _ _ => .modify fun _ hc => ⟨hc.listing, hc.report⟩

theorem places_declare (n : Nat) {name : Token} (ht : T name.span) :
    Places T L r (declare n name) :=
  .bind (places_call n) fun _ _ => .bind .get fun _ _ =>
    places_complainIf ht _ (.modify fun _ hc => ⟨hc.listing, hc.report⟩)

theorem places_locate (kind : UseKind) (ref : Reference) : Places T L r (locate kind ref) := by
  refine .bind .get fun _ _ => ?_
  split
  · exact .bind (.modify fun _ hc => ⟨hc.listing, hc.report⟩) fun _ _ => .pure trivial
  · exact .pure trivial

theorem places_readVariable {ref : Reference} (ht : T ref.token.span) :
    Places T L r (readVariable ref) :=
  .bind .get fun _ _ => places_complainIf ht _ (places_locate _ ref)

end Tokens

theorem places_expression (n : Nat) : ∀ {e}, PlacedExpr T e → Places T L r (expression n e) := by
  induction n with
  | zero => exact fun _ => .throw rfl
  | succ n ih =>
    intro e he
    cases he with
    | literal => exact .pure trivial
    | grouping he => exact (Steady.map (ih he) fun _ => id)
    | unary _ he => exact (Steady.map (ih he) fun _ => id)
    | binary _ hl hr => exact .bind (ih hl) fun _ _ => .bind (ih hr) fun _ _ => .pure trivial
    | logical _ hl hr => exact .bind (ih hl) fun _ _ => .bind (ih hr) fun _ _ => .pure trivial
    | var ht => exact (Steady.map (places_readVariable ht) fun _ => id)
    | assign _ he =>
      exact .bind (ih he) fun _ _ => .bind (places_locate _ _) fun _ _ => .pure trivial
    | call _ hf hes =>
      exact .bind (ih hf) fun _ _ => .bind (Steady.mapM fun e he => ih (hes e he)) fun _ _ =>
        .pure trivial
    | get _ ho => exact .bind (ih ho) fun _ _ => .pure trivial
    | set _ ho he => exact .bind (ih he) fun _ _ => .bind (ih ho) fun _ _ => .pure trivial
    | this ht =>
      exact .bind .get fun _ _ => .ite (.bind (places_complain ht _) fun _ _ => .pure trivial)
        (.map (places_locate _ _) fun _ => id)
    | @super ref method ht =>
      -- Complained about or not, the word is looked up all the same.
      have hrest : Places T L r (do
          let ref ← locate .super_ ref
          pure (Expr.superRef ref method)) :=
        .bind (places_locate _ _) fun _ _ => .pure trivial
      refine .bind .get fun c _ => ?_
      split
      · exact .bind (places_complain ht _) fun _ _ => hrest
      · exact .bind (places_complain ht _) fun _ _ => hrest
      · exact hrest

section Bodies

variable (n : Nat)

theorem places_functionWith {body : List Stmt → Resolver (List Stmt)}
    (hb : ∀ {stmts}, (∀ s ∈ stmts, PlacedStmt T s) → Places T L r (body stmts))
    (kind : FunctionKind) {f : Function} (hf : PlacedFunction T f) :
    Places T L r (functionWith n body kind f) := by
  obtain @⟨name, params, stmts, _, hp, hbody⟩ := hf
  -- By induction on the parameters; declaring one complains of it at the most.
  have hparams : ∀ params : List Token, (∀ p ∈ params, T p.span) →
      Places T L r (forIn params PUnit.unit fun p _ => do
        declare n p
        define n p
        pure (.yield PUnit.unit) : Resolver PUnit) := by
    intro params hp
    induction params with
    | nil => exact .pure trivial
    | cons p params ih =>
      rw [List.forall_mem_cons] at hp
      rw [List.forIn_cons]
      refine .bind (.bind (places_declare n hp.1) fun _ _ => .bind (places_define n _) fun _ _ =>
        .pure (P := fun _ => True) trivial) fun r _ => ?_
      cases r with
      | done _ => exact .pure trivial
      | yield _ => exact ih hp.2
  exact places_inFunction (places_call n) (places_withScope (.bind (hparams params hp) fun _ _ =>
    .map (hb hbody) fun _ _ => trivial))

variable {method : FunctionKind → Function → Resolver Function}
  (hf : ∀ kind {f}, PlacedFunction T f → Places T L r (method kind f)) {ms : List Function}
  (hm : ∀ f ∈ ms, PlacedFunction T f)

include hf hm

theorem places_methodsWith : Places T L r (methodsWith n method ms) :=
  places_inScope n (Steady.mapM fun f hmem => hf _ (hm f hmem)).any

theorem places_classWith {name : Token} {superclass : Option Reference} (ht : T name.span)
    (hs : ∀ ref ∈ superclass, T ref.token.span) :
    Places T L r (classWith n method name superclass ms) := by
  have hmethods : Places T L r (methodsWith n method ms) := places_methodsWith n hf hm
  refine places_inClass (.bind (places_declare n ht) fun _ _ => places_define n _) ?_
  cases superclass with
  | none => exact .map hmethods fun _ => id
  | some ref =>
    exact places_complainIf (hs ref rfl) _ (.bind (.modify fun _ hc => ⟨hc.listing, hc.report⟩)
      fun _ _ => .bind (places_readVariable (hs ref rfl)) fun _ _ =>
        .bind (places_inScope n hmethods) fun _ _ => .pure trivial)

end Bodies

theorem places_trees (n : Nat) :
    (∀ {s}, PlacedStmt T s → Places T L r (statement n s)) ∧
    (∀ {stmts}, (∀ s ∈ stmts, PlacedStmt T s) → Places T L r (statements n stmts)) ∧
    (∀ kind {f}, PlacedFunction T f → Places T L r (function n kind f)) ∧
    ∀ {name superclass ms}, T name.span → (∀ ref ∈ superclass, T ref.token.span) →
      (∀ f ∈ ms, PlacedFunction T f) → Places T L r (classDecl n name superclass ms) := by
  -- By induction on the frames, all calls together.
  induction n with
  | zero => exact ⟨fun _ => .throw rfl, fun _ => .throw rfl, fun _ _ _ => .throw rfl,
      fun _ _ _ => .throw rfl⟩
  | succ n ih =>
    obtain ⟨hs, hb, hf, hc⟩ := ih
    refine ⟨fun {s} h => ?_, fun h => (Steady.mapM fun s hmem => hs (h s hmem)).any,
      fun kind {f} h => places_functionWith n hb kind h,
      fun ht href hm => places_classWith n hf hm ht href⟩
    cases h with
    | expression he => exact .map (places_expression n he) fun _ => id
    | print he => exact .map (places_expression n he) fun _ => id
    | varDecl ht hi =>
      exact .bind (places_declare n ht) fun _ _ => .bind (Steady.optionMapM fun e he =>
        places_expression n (hi e he)) fun _ _ => .bind (places_define n _) fun _ _ =>
          .pure trivial
    | block h => exact .map (places_inScope n (hb h)) fun _ => id
    | ifElse he h ho =>
      exact .bind (places_expression n he) fun _ _ => .bind (hs h) fun _ _ =>
        .bind (Steady.optionMapM fun t ht => hs (ho t ht)) fun _ _ => .pure trivial
    | whileLoop he h =>
      exact .bind (places_expression n he) fun _ _ => .bind (hs h) fun _ _ => .pure trivial
    | breakLoop => exact .pure trivial
    | funDecl h =>
      exact .bind (places_declare n h.name) fun _ _ => .bind (places_define n _) fun _ _ =>
        .map (hf _ h) fun _ => id
    | returnWith ht hv =>
      exact .bind .get fun _ _ => places_complainIf ht _ (.bind (Steady.optionMapM fun e he =>
        places_expression n (hv e he)) fun _ _ => .pure trivial)
    | classDecl ht href hm => exact hc ht href hm

theorem places_statement (n : Nat) {s : Stmt} (hs : PlacedStmt T s) :
    Places T L r (statement n s) :=
  (places_trees n).1 hs

/-- A statement that is given up is reported at a place too, so nothing stops. -/
theorem places_topLevel (frames : Nat) {s : Stmt} (hs : PlacedStmt T s)
    (hend : T Token.endOfNothing.span) :
    Steady (Context.Placed T L r) (fun _ => False) (topLevel frames s) fun _ => True := by
  have hstmt : Places T L r (statement frames s) := places_statement frames hs
  have hnode : Node.Placed T (.stmt s) := hs
  have hgiven : ∀ {c}, Context.Placed T L r c → ∃ c', Context.Placed T L r c' ∧
      (do complain (Node.firstToken (.stmt s)) .tooDeep; pure s : Resolver Stmt) c = .ok s c' :=
    fun hc => ⟨_, ((places_complain (hnode.firstToken hend) _).ok hc rfl).1, rfl⟩
  refine ⟨fun {c a c'} hc hrun => ?_, fun {c e c'} hc hrun => ?_⟩
  · unfold topLevel at hrun
    split at hrun
    · obtain ⟨t, ht, hok⟩ := hgiven (hstmt.error hc ‹_›).1
      rw [hok] at hrun
      cases hrun
      exact ⟨ht, trivial⟩
    · exact hstmt.ok hc hrun
  · unfold topLevel at hrun
    split at hrun
    · obtain ⟨t, ht, hok⟩ := hgiven (hstmt.error hc ‹_›).1
      rw [hok] at hrun
      cases hrun
    · rename_i hnot
      -- Running out of frames is all that stops a placed statement, and that is caught.
      obtain ⟨-, rfl⟩ := hstmt.error hc hrun
      exact absurd hrun (hnot _)

/-- Trees whose tokens have places are resolved to the end. -/
theorem resolve_placed (frames : Nat) {statements : List Stmt} (L : Listing) (r : Report)
    (hs : ∀ s ∈ statements, PlacedStmt T s) (hend : T Token.endOfNothing.span) :
    ∃ ss c, statements.mapM (topLevel frames) { listing := L, report := r } = .ok ss c ∧
      resolve frames statements L r = .ok ⟨ss, c.uses, c.report, c.scopes.length⟩ ∧
      r.Placed T L c.report := by
  have hall := Steady.mapM fun s hmem => places_topLevel (L := L) (r := r) frames (hs s hmem) hend
  have hstart : Context.Placed T L r { listing := L, report := r } := ⟨rfl, .refl⟩
  cases hrun : statements.mapM (topLevel frames) { listing := L, report := r } with
  | ok ss c =>
    refine ⟨ss, c, rfl, ?_, (hall.ok hstart hrun).1.report⟩
    unfold resolve
    rw [hrun]
  | error e c => exact (hall.error hstart hrun).2.elim

end Scope

end Lox
