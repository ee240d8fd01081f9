/-
Expressions are read exactly as the grammar derives them.

A reader of expressions stops where nothing more belongs to its level, so what
it reads is a phrase that the next token does not continue:

* `denotes_expression` — with `n` frames, the quiet runs of a level are over the
  phrases of that level that are nested at most `n` deep and that are not
  continued by what follows.

The loops that read operators and suffixes build their trees from the left, as
the rules of the grammar do: each turn of the loop is one more rule.
-/
import Lox.Proofs.Grammar.Tokens

namespace Lox.Tree

open Lox.Tree.Parser

/-! ### Primary expressions -/

/-- What follows the first token `t` of a primary expression. -/
def AfterFirst (I : List Token → Expr → Cursor → Prop) (t : Token) (ts : List Token)
    (e : Expr) (c : Cursor) : Prop :=
  isLiteral t.kind ∧ ts = [] ∧ e = .literal t.literal ∨
  t.kind = .superKeyword ∧ (∃ dot method, ts = [dot, method] ∧ dot.kind = .dot ∧
    method.kind = .identifier ∧ e = .superRef { token := t } method) ∨
  t.kind = .thisKeyword ∧ ts = [] ∧ e = .thisRef { token := t } ∨
  t.kind = .identifier ∧ ts = [] ∧ e = .var { token := t } ∨
  t.kind = .leftParen ∧ ∃ us right e', ts = us ++ [right] ∧ I us e' (c.back [right]) ∧
    right.kind = .rightParen ∧ e = .grouping e'

theorem AfterFirst.kind_ne {I : List Token → Expr → Cursor → Prop} {t : Token}
    {ts : List Token} {e : Expr} {c : Cursor} (h : AfterFirst I t ts e c) :
    t.kind ≠ .endOfInput := by
  intro hk
  simp [AfterFirst, hk, isLiteral] at h

theorem denotes_primary {inner : Parser Expr} {I : List Token → Expr → Cursor → Prop}
    (hi : Denotes inner I) :
    Denotes (primary inner) fun ts e c => ∃ t us, ts = t :: us ∧ AfterFirst I t us e c := by
  refine (denotes_peek.bind (E := fun t ts e c => t.kind ≠ .endOfInput ∧
    Taken (fun us => AfterFirst I t us e c) ts c) fun t => ?_).imp ?_
  · -- The first token decides which of the five forms is read.
    by_cases hl : isLiteral t.kind
    · rw [if_pos hl]
      refine (Denotes.advance (.pure _)).imp fun _ => ?_
      cases hk : t.kind <;> simp [hk, isLiteral] at hl <;> simp [AfterFirst, hk, isLiteral]
    · rw [if_neg hl]
      split
      case h_1 hk =>
        refine (Denotes.advance (.expect (by decide) _ fun dot =>
          .expect (by decide) _ fun method => .pure _)).imp fun _ => ?_
        simp [AfterFirst, hk, isLiteral]
      case h_2 hk =>
        refine (Denotes.advance (.pure _)).imp fun _ => ?_
        simp [AfterFirst, hk, isLiteral]
      case h_3 hk =>
        refine (Denotes.advance (.pure _)).imp fun _ => ?_
        simp [AfterFirst, hk, isLiteral]
      case h_4 hk =>
        refine (Denotes.advance (hi.closed (k := .rightParen) (by decide) _
          fun e _ => Expr.grouping e)).imp fun _ => ?_
        simp [AfterFirst, hk, isLiteral]
      case h_5 h₁ h₂ h₃ h₄ =>
        refine (Denotes.throw _).imp fun _ => ?_
        constructor
        · exact False.elim
        · rintro ⟨-, us, a, vs, -, -, h | h | h | h | h⟩
          · exact absurd h.1 hl
          · exact absurd h.1 h₁
          · exact absurd h.1 h₂
          · exact absurd h.1 h₃
          · exact absurd h.1 h₄
  -- The token was only looked at, so it is still among those that are taken.
  · intro ts e c hc
    constructor
    · rintro ⟨us, t, vs, rfl, ⟨rfl, rfl⟩, hk, ht⟩
      obtain ⟨ws, hws, ha⟩ := (taken_iff hc hk).mp ht
      exact ⟨_, ws, hws, ha⟩
    · rintro ⟨t, us, rfl, ha⟩
      exact ⟨[], t, t :: us, rfl, ⟨rfl, rfl⟩, ha.kind_ne, [t], t, us, rfl, .inl rfl, ha⟩

/-- An expression of a level that the next token does not continue. -/
def WholePhrase (n : Nat) (l : Level) (ts : List Token) (e : Expr) (c : Cursor) : Prop :=
  Phrase n l ts e ∧ l.continues c.current.kind = false

theorem wholePhrase_primary {n : Nat} {ts : List Token} {e : Expr} {c : Cursor} :
    (∃ t us, ts = t :: us ∧ AfterFirst (WholePhrase n .assignment) t us e c) ↔
      WholePhrase (n + 1) .primary ts e c := by
  constructor
  · rintro ⟨t, us, rfl, h⟩
    refine ⟨?_, rfl⟩
    rcases h with ⟨ht, rfl, rfl⟩ | ⟨ht, dot, method, rfl, hd, hm, rfl⟩ | ⟨ht, rfl, rfl⟩ |
      ⟨ht, rfl, rfl⟩ | ⟨ht, us, right, e', rfl, he, hr, rfl⟩
    · exact .literal ht
    · exact .super ht hd hm
    · exact .this ht
    · exact .name ht
    · exact .grouping ht he.1 hr
  · rintro ⟨h, -⟩
    cases h with
    | literal ht => exact ⟨_, _, rfl, .inl ⟨ht, rfl, rfl⟩⟩
    | super ht hd hm => exact ⟨_, _, rfl, .inr (.inl ⟨ht, _, _, rfl, hd, hm, rfl⟩)⟩
    | this ht => exact ⟨_, _, rfl, .inr (.inr (.inl ⟨ht, rfl, rfl⟩))⟩
    | name ht => exact ⟨_, _, rfl, .inr (.inr (.inr (.inl ⟨ht, rfl, rfl⟩)))⟩
    | grouping hl he hr =>
      refine ⟨_, _, rfl, .inr (.inr (.inr (.inr ⟨hl, _, _, _, rfl, ⟨he, ?_⟩, hr, rfl⟩)))⟩
      rw [Cursor.current_back_cons, hr]
      rfl
    | binary _ ho _ => exact absurd ho (by simp [Level.isOperator])
    | tighter hl _ => exact absurd rfl hl

/-! ### Calls and properties -/

/-- A call or a property, after the expression `e`. -/
inductive Suffix (n : Nat) (e : Expr) : List Token → Expr → Prop
  | call {left right : Token} {us : List Token} {arguments : List (List Token × Expr)}
      (hl : left.kind = .leftParen) (ha : ∀ a ∈ arguments, Phrase n .assignment a.1 a.2)
      (hs : Separated (arguments.map Prod.fst) us) (hm : arguments.length ≤ maxArguments)
      (hr : right.kind = .rightParen) :
      Suffix n e (left :: (us ++ [right])) (.call e right (arguments.map Prod.snd))
  | get {dot name : Token} (hd : dot.kind = .dot) (hn : name.kind = .identifier) :
      Suffix n e [dot, name] (.get e name)

theorem items_wholePhrase_iff {n : Nat} {ts : List Token} {es : List Expr} {c : Cursor} :
    Items (WholePhrase n .assignment) ts es c ↔
      ∃ items : List (List Token × Expr), items ≠ [] ∧ items.map Prod.snd = es ∧
        Separated (items.map Prod.fst) ts ∧ (∀ i ∈ items, Phrase n .assignment i.1 i.2) ∧
        Level.assignment.continues c.current.kind = false ∧ c.current.kind ≠ .comma :=
  items_iff_separated (F := fun k => Level.assignment.continues k = false) rfl

theorem denotes_arguments {n : Nat} {inner : Parser Expr}
    (hi : Denotes inner (WholePhrase n .assignment)) (callee : Expr) :
    Denotes (finishCall inner callee) fun ts e _ =>
      ∃ (us : List Token) (right : Token) (arguments : List (List Token × Expr)),
      ts = us ++ [right] ∧ (∀ a ∈ arguments, Phrase n .assignment a.1 a.2) ∧
      Separated (arguments.map Prod.fst) us ∧ arguments.length ≤ maxArguments ∧
      right.kind = .rightParen ∧ e = .call callee right (arguments.map Prod.snd) := by
  refine ((denotes_commaList "arguments" hi).closed (k := .rightParen) (by decide) _
    fun arguments paren => Expr.call callee paren arguments).imp ?_
  intro ts e c hc
  -- An empty list is told by the parenthesis, any other by its first argument.
  constructor
  · rintro ⟨us, right, as, rfl, ⟨rfl, rfl, -⟩ | ⟨-, hmax, hitems⟩, hr, rfl⟩
    · exact ⟨[], right, [], rfl, by simp, .none, Nat.zero_le _, hr, rfl⟩
    · obtain ⟨items, -, rfl, hsep, hall, -⟩ := items_wholePhrase_iff.mp hitems
      rw [List.length_map] at hmax
      exact ⟨us, right, items, rfl, hall, hsep, hmax, hr, rfl⟩
  · rintro ⟨us, right, arguments, rfl, hall, hsep, hmax, hr, rfl⟩
    refine ⟨us, right, _, rfl, ?_, hr, rfl⟩
    cases arguments with
    | nil =>
      cases hsep
      exact .inl ⟨rfl, rfl, hr⟩
    | cons a arguments =>
      refine .inr ⟨?_, by simpa using hmax, ?_⟩
      · -- The first argument begins with a token that begins phrases.
        obtain ⟨t, vs, hvs, ht⟩ := (hall a (by simp)).first
        obtain ⟨ws, rfl⟩ := Separated.first hsep
        rw [hvs]
        intro hk
        rw [show t.kind = .rightParen from hk] at ht
        exact absurd ht (by decide)
      · refine items_wholePhrase_iff.mpr
          ⟨a :: arguments, by simp, rfl, hsep, hall, ?_, ?_⟩
        · rw [Cursor.current_back_cons, hr]
          rfl
        · rw [Cursor.current_back_cons, hr]
          decide

theorem isSuffix_eq_false_iff {k : Token.Kind} :
    isSuffix k = false ↔ k ≠ .leftParen ∧ k ≠ .dot := by
  simp [isSuffix]

/-- The loop over calls and properties. -/
abbrev Suffixes (n : Nat) : Expr → List Token → Expr → Cursor → Prop :=
  Loop (fun e ts e' _ => Suffix n e ts e') fun c => isSuffix c.current.kind = false

theorem denotes_suffixesFrom {n : Nat} {inner : Parser Expr}
    (hi : Denotes inner (WholePhrase n .assignment)) (fuel : Nat) :
    ∀ e, Denotes (suffixesFrom inner fuel e)
      (Turns (fun e ts e' _ => Suffix n e ts e') (fun c => isSuffix c.current.kind = false)
        id fuel e) := by
  -- By induction on the budget; a turn reads one suffix of the expression so far.
  induction fuel with
  | zero => exact fun e => .pure e
  | succ fuel ih =>
    intro e
    refine ((denotes_skips (k := .leftParen) (by decide)).bind fun b => .ite (c := b = true)
      ((denotes_arguments hi e).bind ih)
      ((denotes_skips (k := .dot) (by decide)).bind fun d => .ite (c := d = true)
        (.expect (by decide) _ fun name => ih (.get e name)) (.pure e))).imp ?_
    intro ts e' c hc
    constructor
    · -- A parenthesis is skipped, or else a dot, or else the loop ends.
      rintro ⟨_, b, vs, rfl, ⟨left, rfl, rfl, hl⟩ | ⟨rfl, rfl, hl⟩, ⟨hb, h⟩ | ⟨hb, h⟩⟩
      · obtain ⟨_, _, ws, rfl, ⟨us, right, arguments, rfl, ha, hs, hm, hr, rfl⟩, ht⟩ := h
        exact .inl ⟨left :: (us ++ [right]), _, ws, by simp, .call hl ha hs hm hr, ht⟩
      · exact absurd rfl hb
      · exact absurd hb (by simp)
      · obtain ⟨_, d, ws, rfl, ⟨dot, rfl, rfl, hd⟩ | ⟨rfl, rfl, hd⟩, ⟨hb, h⟩ | ⟨hb, h⟩⟩ := h
        · obtain ⟨name, us, rfl, hn, ht⟩ := h
          exact .inl ⟨[dot, name], _, us, rfl, .get hd hn, ht⟩
        · exact absurd rfl hb
        · exact absurd hb (by simp)
        · obtain ⟨rfl, rfl⟩ := h
          exact .inr ⟨rfl, rfl, isSuffix_eq_false_iff.mpr ⟨hl, hd⟩⟩
    · rintro (⟨us, y, vs, rfl, hstep, ht⟩ | ⟨rfl, rfl, hk⟩)
      · cases hstep with
        | call hl ha hs hm hr =>
          exact ⟨[_], true, _, by simp, .inl ⟨_, rfl, rfl, hl⟩, .inl ⟨rfl, _, _, vs,
            (List.append_assoc _ _ _).symm, ⟨_, _, _, rfl, ha, hs, hm, hr, rfl⟩, ht⟩⟩
        | get hd hn =>
          refine ⟨[], false, _, rfl, .inr ⟨rfl, rfl, ?_⟩, .inr ⟨by simp, [_], true, _, rfl,
            .inl ⟨_, rfl, rfl, hd⟩, .inl ⟨rfl, _, _, rfl, hn, ht⟩⟩⟩
          rw [Cursor.current_back_cons, hd]
          decide
      · obtain ⟨hl, hd⟩ := isSuffix_eq_false_iff.mp hk
        exact ⟨[], false, [], rfl, .inr ⟨rfl, rfl, hl⟩, .inr ⟨by simp, [], false, [], rfl,
          .inr ⟨rfl, rfl, hd⟩, .inr ⟨by simp, rfl, rfl⟩⟩⟩

theorem Suffix.first {n : Nat} {e e' : Expr} {ts : List Token} (h : Suffix n e ts e') :
    ∃ t us, ts = t :: us ∧ isSuffix t.kind := by
  cases h with
  | call hl => exact ⟨_, _, rfl, by simp [isSuffix, hl]⟩
  | get hd => exact ⟨_, _, rfl, by simp [isSuffix, hd]⟩

theorem denotes_suffixes {n : Nat} {inner operand : Parser Expr}
    {D : List Token → Expr → Cursor → Prop} (hi : Denotes inner (WholePhrase n .assignment))
    (ho : Denotes operand D) :
    Denotes (suffixes inner operand) fun ts e c =>
      ∃ us e' vs, ts = us ++ vs ∧ D us e' (c.back vs) ∧ Suffixes n e' vs e c :=
  denotes_loopAfter ho (denotes_suffixesFrom hi) Suffix.first rfl

/-- Suffixes turn a phrase into a longer one. -/
theorem Suffixes.phrase {n : Nat} {e e' : Expr} {ts : List Token} {c : Cursor}
    (h : Suffixes n e ts e' c) : ∀ {us : List Token}, Phrase (n + 1) .call us e →
      WholePhrase (n + 1) .call (us ++ ts) e' c := by
  induction h with
  | done hc =>
    intro us hu
    rw [List.append_nil]
    exact ⟨hu, hc⟩
  | step hs _ ih =>
    intro us hu
    rw [← List.append_assoc]
    cases hs with
    | call hl ha hs hm hr => exact ih (.call hu hl ha hs hm hr)
    | get hd hn => exact ih (.get hu hd hn)

/-- A phrase of calls and properties, taken apart from the left. -/
theorem Phrase.suffixes {n : Nat} {ts : List Token} {e : Expr}
    (h : Phrase (n + 1) .call ts e) : ∃ us e' vs, ts = us ++ vs ∧ Phrase n .primary us e' ∧
      ∀ {ws e'' c}, Suffixes n e ws e'' c → Suffixes n e' (vs ++ ws) e'' c := by
  -- By induction on the phrase, whose last suffix comes last; here the first one is wanted.
  generalize hm : n + 1 = m at h
  generalize hl : Level.call = l at h
  induction h with
  | call _ hleft ha hs hmax hr ih _ =>
    cases hm
    obtain ⟨us, e', vs, rfl, hp, hw⟩ := ih rfl hl
    refine ⟨us, e', vs ++ _, (List.append_assoc _ _ _), hp, fun h => ?_⟩
    rw [List.append_assoc]
    exact hw (.step (.call hleft ha hs hmax hr) h)
  | get _ hd hn ih =>
    cases hm
    obtain ⟨us, e', vs, rfl, hp, hw⟩ := ih rfl hl
    refine ⟨us, e', vs ++ _, (List.append_assoc _ _ _), hp, fun h => ?_⟩
    rw [List.append_assoc]
    exact hw (.step (.get hd hn) h)
  | binary _ ho _ _ _ =>
    subst hl
    exact absurd ho (by simp [Level.isOperator])
  | tighter _ he _ =>
    cases hm
    subst hl
    exact ⟨_, _, [], (List.append_nil _).symm, he, fun h => h⟩
  | _ => cases hl

theorem wholePhrase_call {n : Nat} {ts : List Token} {e : Expr} {c : Cursor} :
    (∃ us e' vs, ts = us ++ vs ∧ WholePhrase n .primary us e' (c.back vs) ∧
      Suffixes n e' vs e c) ↔ WholePhrase (n + 1) .call ts e c := by
  constructor
  · rintro ⟨us, e', vs, rfl, ⟨hp, -⟩, hs⟩
    exact hs.phrase (.tighter (by decide) hp)
  · rintro ⟨h, hk⟩
    obtain ⟨us, e', vs, rfl, hp, hw⟩ := h.suffixes
    refine ⟨us, e', vs, rfl, ⟨hp, rfl⟩, ?_⟩
    have := hw (.done hk)
    rwa [List.append_nil] at this

/-! ### Binary operators -/

namespace Level

/-- The levels of binary operators. -/
def isBinary : Level → Bool
  | disjunction | conjunction | equality | comparison | term | factor => true
  | _ => false

theorem continues_of_isBinary {l : Level} (h : l.isBinary) (k : Token.Kind) :
    l.continues k = (l.isOperator k || l.next.continues k) := by
  cases l <;>
    first | rfl | exact absurd h (by decide) | simp [continues, isOperator, next, Bool.or_assoc]

/-- An operator does not go on with an operand of its own. -/
theorem next_continues_of_isOperator {l : Level} {k : Token.Kind} (h : l.isOperator k) :
    l.next.continues k = false := by
  cases l <;> cases k <;> first | rfl | exact absurd h (by decide)

theorem isOperator_endOfInput (l : Level) : l.isOperator .endOfInput = false := by
  cases l <;> rfl

end Level

/-- One more operator and operand, after the expression `e`. -/
def Operation (n : Nat) (l : Level) (e : Expr) (ts : List Token) (e' : Expr) (c : Cursor) :
    Prop :=
  ∃ op us r, ts = op :: us ∧ l.isOperator op.kind ∧ WholePhrase n l.next us r c ∧
    e' = l.join e op r

/-- The loop over the operators of a level. -/
abbrev Operations (n : Nat) (l : Level) : Expr → List Token → Expr → Cursor → Prop :=
  Loop (Operation n l) fun c => l.isOperator c.current.kind = false

theorem denotes_chainLeftFrom {n : Nat} {l : Level} {operand : Parser Expr}
    (ho : Denotes operand (WholePhrase n l.next)) (fuel : Nat) :
    ∀ e, Denotes (chainLeftFrom l.isOperator l.join operand fuel e)
      (Turns (Operation n l) (fun c => l.isOperator c.current.kind = false) id fuel e) := by
  -- By induction on the budget; a turn reads one operator and its right operand.
  induction fuel with
  | zero => exact fun e => .pure e
  | succ fuel ih =>
    intro e
    refine ((denotes_accept _ l.isOperator_endOfInput).bind
      (E := fun o ts e' c => o.elim (ts = [] ∧ e' = e) fun op =>
        ∃ us r vs, ts = us ++ vs ∧ WholePhrase n l.next us r (c.back vs) ∧
          Turns (Operation n l) (fun c => l.isOperator c.current.kind = false) id fuel
            (l.join e op r) vs e' c) fun o => ?_).imp ?_
    · cases o with
      | some op => exact ho.bind fun r => ih _
      | none => exact .pure e
    · intro ts e' c hc
      constructor
      · rintro ⟨_, o, vs, rfl, ⟨op, rfl, rfl, hop⟩ | ⟨rfl, rfl, hk⟩, h⟩
        · obtain ⟨us, r, ws, rfl, hr, ht⟩ := h
          exact .inl ⟨op :: us, _, ws, rfl, ⟨op, us, r, rfl, hop, hr, rfl⟩, ht⟩
        · obtain ⟨rfl, rfl⟩ := h
          exact .inr ⟨rfl, rfl, hk⟩
      · rintro (⟨_, _, vs, rfl, ⟨op, us, r, rfl, hop, hr, rfl⟩, ht⟩ | ⟨rfl, rfl, hk⟩)
        · exact ⟨[op], some op, us ++ vs, rfl, .inl ⟨op, rfl, rfl, hop⟩, us, r, vs, rfl, hr, ht⟩
        · exact ⟨[], none, [], rfl, .inr ⟨rfl, rfl, hk⟩, rfl, rfl⟩

theorem denotes_chainLeft {n : Nat} {l : Level} {operand : Parser Expr}
    (ho : Denotes operand (WholePhrase n l.next)) :
    Denotes (chainLeft l.isOperator l.join operand) fun ts e c =>
      ∃ us e' vs, ts = us ++ vs ∧ WholePhrase n l.next us e' (c.back vs) ∧
        Operations n l e' vs e c := by
  refine denotes_loopAfter ho (denotes_chainLeftFrom ho) ?_ l.isOperator_endOfInput
  rintro e ts e' c ⟨op, us, r, rfl, hop, -⟩
  exact ⟨op, us, rfl, hop⟩

/-- Operations turn a phrase into a longer one. -/
theorem Operations.phrase {n : Nat} {l : Level} (hl : l.isBinary) {e e' : Expr}
    {ts : List Token} {c : Cursor} (h : Operations n l e ts e' c) :
    ∀ {us : List Token}, Phrase (n + 1) l us e →
      l.next.continues (c.back ts).current.kind = false →
      WholePhrase (n + 1) l (us ++ ts) e' c := by
  induction h with
  | done hc =>
    intro us hu hk
    rw [Cursor.back_nil] at hk
    rw [List.append_nil]
    exact ⟨hu, by rw [Level.continues_of_isBinary hl, hc, hk]; rfl⟩
  | step hs _ ih =>
    intro us hu _
    obtain ⟨op, vs, r, rfl, hop, hr, rfl⟩ := hs
    rw [← List.append_assoc]
    exact ih (.binary hu hop hr.1) hr.2

/-- A phrase of a level of binary operators, taken apart from the left. -/
theorem Phrase.operations {n : Nat} {l : Level} (hl : l.isBinary) {ts : List Token}
    {e : Expr} (h : Phrase (n + 1) l ts e) :
    ∃ us e' vs, ts = us ++ vs ∧ Phrase n l.next us e' ∧ ∀ ws {e'' c},
      l.next.continues (c.back ws).current.kind = false → Operations n l e ws e'' c →
        l.next.continues (c.back (vs ++ ws)).current.kind = false ∧
          Operations n l e' (vs ++ ws) e'' c := by
  generalize hm : n + 1 = m at h
  induction h with
  | binary _ ho hr ih _ =>
    cases hm
    obtain ⟨us, e', vs, rfl, hp, hw⟩ := ih hl rfl
    refine ⟨us, e', vs ++ _, List.append_assoc _ _ _, hp, fun ws _ _ hk h => ?_⟩
    rw [List.append_assoc]
    refine hw _ ?_ (.step ⟨_, _, _, rfl, ho, ⟨hr, hk⟩, rfl⟩ h)
    exact Level.next_continues_of_isOperator ho
  | tighter _ he _ =>
    cases hm
    exact ⟨_, _, [], (List.append_nil _).symm, he, fun _ _ _ hk h => ⟨hk, h⟩⟩
  | _ => exact absurd hl (by decide)

theorem wholePhrase_binary {n : Nat} {l : Level} (hl : l.isBinary) {ts : List Token}
    {e : Expr} {c : Cursor} :
    (∃ us e' vs, ts = us ++ vs ∧ WholePhrase n l.next us e' (c.back vs) ∧
      Operations n l e' vs e c) ↔ WholePhrase (n + 1) l ts e c := by
  constructor
  · rintro ⟨us, e', vs, rfl, ⟨hp, hk⟩, ho⟩
    refine ho.phrase hl (.tighter ?_ hp) hk
    rintro rfl
    exact absurd hl (by decide)
  · rintro ⟨h, hk⟩
    rw [Level.continues_of_isBinary hl, Bool.or_eq_false_iff] at hk
    obtain ⟨us, e', vs, rfl, hp, hw⟩ := h.operations hl
    obtain ⟨hk', ho⟩ := hw [] hk.2 (.done hk.1)
    rw [List.append_nil] at hk' ho
    exact ⟨us, e', vs, rfl, ⟨hp, hk'⟩, ho⟩

theorem denotes_binary {n : Nat} {l : Level} {operand : Parser Expr} (hl : l.isBinary)
    (ho : Denotes operand (WholePhrase n l.next)) :
    Denotes (chainLeft l.isOperator l.join operand) (WholePhrase (n + 1) l) :=
  (denotes_chainLeft ho).imp fun _ => wholePhrase_binary hl

/-! ### Unary operators -/

/-- A call does not begin with a unary operator. -/
theorem Phrase.first_call {n : Nat} {ts : List Token} {e : Expr}
    (h : Phrase n .call ts e) : ∃ t us, ts = t :: us ∧ isUnary t.kind = false := by
  -- A call begins with its primary expression, which has no unary operator in front.
  have hprimary : ∀ {n ts e}, Phrase n .primary ts e →
      ∃ t us, ts = t :: us ∧ isUnary t.kind = false := by
    intro n ts e h
    cases h with
    | literal ht =>
      refine ⟨_, _, rfl, ?_⟩
      revert ht
      generalize Token.kind _ = k
      cases k <;> decide
    | this ht => exact ⟨_, _, rfl, by simp [isUnary, ht]⟩
    | name ht => exact ⟨_, _, rfl, by simp [isUnary, ht]⟩
    | super ht _ _ => exact ⟨_, _, rfl, by simp [isUnary, ht]⟩
    | grouping hl _ _ => exact ⟨_, _, rfl, by simp [isUnary, hl]⟩
    | binary _ ho _ => exact absurd ho (by simp [Level.isOperator])
    | tighter hl _ => exact absurd rfl hl
  cases n with
  | zero => cases h
  | succ n =>
    obtain ⟨us, e', vs, rfl, hp, -⟩ := h.suffixes
    obtain ⟨t, ws, rfl, ht⟩ := hprimary hp
    exact ⟨t, _, rfl, ht⟩

theorem denotes_unary {n : Nat} (hu : Denotes (expression n .unary) (WholePhrase n .unary))
    (hc : Denotes (expression n .call) (WholePhrase n .call)) :
    Denotes (expression (n + 1) .unary) (WholePhrase (n + 1) .unary) := by
  refine ((denotes_accept isUnary rfl).bind
    (E := fun o ts e c => o.elim (WholePhrase n .call ts e c) fun op =>
      ∃ e', WholePhrase n .unary ts e' c ∧ e = .unary op e') fun o => ?_).imp ?_
  · cases o with
    | some op => exact hu.map _
    | none => exact hc
  · intro ts e c hc
    constructor
    · rintro ⟨_, o, vs, rfl, ⟨op, rfl, rfl, hop⟩ | ⟨rfl, rfl, -⟩, h⟩
      · obtain ⟨e', ⟨hp, hk⟩, rfl⟩ := h
        exact ⟨.unary hop hp, hk⟩
      · exact ⟨.tighter (by decide) h.1, h.2⟩
    · rintro ⟨h, hk⟩
      cases h with
      | unary ho he => exact ⟨[_], some _, _, rfl, .inl ⟨_, rfl, rfl, ho⟩, _, ⟨he, hk⟩, rfl⟩
      | binary _ ho _ => exact absurd ho (by simp [Level.isOperator])
      | tighter _ he =>
        -- Without an operator in front it is a call, and the token ahead is not an operator.
        obtain ⟨t, us, rfl, ht⟩ := Phrase.first_call he
        exact ⟨[], none, _, rfl, .inr ⟨rfl, rfl, ht⟩, he, hk⟩

/-! ### Assignments -/

theorem Level.join_ne_var (l : Level) (e r : Expr) (op : Token) (ref : Reference) :
    l.join e op r ≠ .var ref := by
  cases l <;> simp [join]

theorem Level.join_ne_get (l : Level) (e r o : Expr) (op name : Token) :
    l.join e op r ≠ .get o name := by
  cases l <;> simp [join]

/-- A phrase that is a name is one token. -/
theorem Phrase.of_var {n : Nat} {l : Level} {ts : List Token} {ref : Reference}
    (h : Phrase n l ts (.var ref)) :
    ∃ t, ts = [t] ∧ t.kind = .identifier ∧ ref = { token := t } ∧ l.height < n := by
  generalize he : Expr.var ref = e at h
  induction h with
  | name ht =>
    cases he
    exact ⟨_, rfl, ht, rfl, Nat.succ_pos _⟩
  | binary _ _ _ _ _ => exact absurd he.symm (Level.join_ne_var _ _ _ _ _)
  | tighter hl _ ih =>
    obtain ⟨t, hts, ht, hr, hlt⟩ := ih he
    exact ⟨t, hts, ht, hr, by rw [Level.height_next hl]; omega⟩
  | _ => cases he

/-- A phrase that is a property ends with the dot and the name. -/
theorem Phrase.of_get {n : Nat} {l : Level} {ts : List Token} {o : Expr} {name : Token}
    (h : Phrase n l ts (.get o name)) :
    ∃ m us dot, ts = us ++ [dot, name] ∧ dot.kind = .dot ∧ name.kind = .identifier ∧
      Phrase m .call us o ∧ m + l.height = n + 1 := by
  generalize he : Expr.get o name = e at h
  induction h with
  | get ho hd hn _ =>
    cases he
    exact ⟨_, _, _, rfl, hd, hn, ho, rfl⟩
  | binary _ _ _ _ _ => exact absurd he.symm (Level.join_ne_get _ _ _ _ _ _)
  | tighter hl _ ih =>
    obtain ⟨m, us, dot, hts, hd, hn, ho, hm⟩ := ih he
    exact ⟨m, us, dot, hts, hd, hn, ho, by rw [Level.height_next hl]; omega⟩
  | _ => cases he

/-- A call is an operand of every level of operators. -/
theorem Phrase.disjunction_of_call {n : Nat} {ts : List Token} {e : Expr}
    (h : Phrase n .call ts e) : Phrase (n + 7) .disjunction ts e := by
  refine .tighter (by decide) (l := .disjunction) ?_
  refine .tighter (by decide) (l := .conjunction) ?_
  refine .tighter (by decide) (l := .equality) ?_
  refine .tighter (by decide) (l := .comparison) ?_
  refine .tighter (by decide) (l := .term) ?_
  refine .tighter (by decide) (l := .factor) ?_
  exact .tighter (by decide) (l := .unary) h

/-- What can stand left of an equals sign, and what becomes of it. -/
inductive Target (value : Expr) : Expr → Expr → Prop
  | var {ref : Reference} : Target value (.var ref) (.assign ref value)
  | get {o : Expr} {name : Token} : Target value (.get o name) (.set o name value)

theorem denotes_assignTo (target : Expr) (equals : Token) (value : Expr) :
    Denotes (assignTo target equals value) fun ts e _ => ts = [] ∧ Target value target e := by
  cases target with
  | var ref =>
    refine (Denotes.pure _).imp fun _ => ⟨?_, ?_⟩
    · rintro ⟨rfl, rfl⟩
      exact ⟨rfl, .var⟩
    · rintro ⟨rfl, ⟨⟩⟩
      exact ⟨rfl, rfl⟩
  | get o name =>
    refine (Denotes.pure _).imp fun _ => ⟨?_, ?_⟩
    · rintro ⟨rfl, rfl⟩
      exact ⟨rfl, .get⟩
    · rintro ⟨rfl, ⟨⟩⟩
      exact ⟨rfl, rfl⟩
  | _ =>
    refine ((denotes_complain equals .invalidTarget).bind fun _ => .pure _).imp fun _ => ⟨?_, ?_⟩
    · rintro ⟨_, _, _, -, hf, -⟩
      exact hf.elim
    · rintro ⟨-, ⟨⟩⟩

theorem Level.assignment_continues (k : Token.Kind) :
    assignment.continues k = (k == .equal || disjunction.continues k) := by
  simp only [continues, Bool.or_assoc]

theorem denotes_assignment {n : Nat}
    (hd : Denotes (expression n .disjunction) (WholePhrase n .disjunction))
    (ha : Denotes (expression n .assignment) (WholePhrase n .assignment)) :
    Denotes (expression (n + 1) .assignment) (WholePhrase (n + 1) .assignment) := by
  refine (hd.bind fun e => (denotes_accept (· == .equal) rfl).bind
    (E := fun o ts e' c => o.elim (ts = [] ∧ e' = e) fun _ =>
      ∃ us value vs, ts = us ++ vs ∧ WholePhrase n .assignment us value (c.back vs) ∧
        vs = [] ∧ Target value e e') fun o => ?_).imp ?_
  · cases o with
    | some equals => exact ha.bind fun value => denotes_assignTo e equals value
    | none => exact .pure e
  · intro ts e' c hc
    constructor
    · rintro ⟨us, e, _, rfl, ⟨he, hk⟩, _, o, vs, rfl, ⟨equals, rfl, rfl, hq⟩ | ⟨rfl, rfl, hq⟩, h⟩
      · obtain ⟨ws, value, _, rfl, ⟨hv, hk'⟩, rfl, ht⟩ := h
        rw [beq_iff_eq] at hq
        refine ⟨?_, by simpa using hk'⟩
        rw [List.append_nil]
        -- What stands left of the sign is a variable or a property; nothing else is a target.
        cases ht with
        | var =>
          obtain ⟨name, rfl, hn, rfl, hlt⟩ := he.of_var
          exact .assign hn hq hv hlt
        | get =>
          obtain ⟨m, xs, dot, rfl, hdot, hn, ho, hm⟩ := he.of_get
          rw [List.append_assoc]
          exact .set ho hdot hn hq hv (by simpa [Level.height] using hm)
      · obtain ⟨rfl, rfl⟩ := h
        rw [Cursor.back_nil] at hq
        refine ⟨?_, ?_⟩
        · simpa using Phrase.tighter (l := .assignment) (by decide) he
        · rw [Level.assignment_continues, hq]
          exact hk
    · -- A target is a call, so it is also read as a disjunction, up to the sign.
      rintro ⟨h, hk⟩
      have hk' := hk
      rw [Level.assignment_continues, Bool.or_eq_false_iff] at hk
      cases h with
      | binary _ ho _ => exact absurd ho (by simp [Level.isOperator])
      | assign hn hq hv hlt =>
        have hname := Phrase.disjunction_of_call (.tighter (by decide) (Phrase.name (n := 0) hn))
        refine ⟨[_], _, _ :: _, rfl, ⟨hname.mono hlt, ?_⟩, [_], some _, _, rfl,
          .inl ⟨_, rfl, rfl, by simpa using hq⟩, _, _, [], (List.append_nil _).symm, ⟨hv, hk'⟩,
          rfl, .var⟩
        rw [Cursor.current_back_cons, hq]
        rfl
      | set ho hdot hn hq hv hm =>
        subst hm
        refine ⟨_ ++ [_, _], _, _ :: _, (List.append_assoc _ [_, _] _).symm, ⟨?_, ?_⟩, [_],
          some _, _, rfl, .inl ⟨_, rfl, rfl, by simpa using hq⟩, _, _, [],
          (List.append_nil _).symm, ⟨hv, hk'⟩, rfl, .get⟩
        · rename_i m dot name equals xs us o value
          cases m with
          | zero => cases ho
          | succ m => exact (Phrase.get ho hdot hn).disjunction_of_call
        · rw [Cursor.current_back_cons, hq]
          rfl
      | tighter _ he =>
        refine ⟨_, _, [], (List.append_nil _).symm, ⟨he, hk.2⟩, [], none, [], rfl,
          .inr ⟨rfl, rfl, hk.1⟩, rfl, rfl⟩

/-! ### All levels -/

/-- With `n` frames, a level reads exactly the phrases of that level nested at
most `n` deep that the next token does not continue. -/
theorem denotes_expression (n : Nat) : ∀ l, Denotes (expression n l) (WholePhrase n l) := by
  induction n with
  | zero =>
    intro l
    unfold expression
    refine (Denotes.throw _).imp fun _ => ⟨False.elim, ?_⟩
    rintro ⟨h, -⟩
    cases h
  | succ n ih =>
    intro l
    cases l with
    | assignment => exact denotes_assignment (ih _) (ih _)
    | unary => exact denotes_unary (ih _) (ih _)
    | call => exact (denotes_suffixes (ih _) (ih _)).imp fun _ => wholePhrase_call
    | primary => exact (denotes_primary (ih _)).imp fun _ => wholePhrase_primary
    | disjunction => exact denotes_binary (l := .disjunction) rfl (ih _)
    | conjunction => exact denotes_binary (l := .conjunction) rfl (ih _)
    | equality => exact denotes_binary (l := .equality) rfl (ih _)
    | comparison => exact denotes_binary (l := .comparison) rfl (ih _)
    | term => exact denotes_binary (l := .term) rfl (ih _)
    | factor => exact denotes_binary (l := .factor) rfl (ih _)

end Lox.Tree
