/-
Properties that the rules of the grammar have from their parts.

The parser is put together from a few steps: looking at the tokens ahead, passing one,
complaining, and recovery.  A property that each of these has, and that goes on from steps
to computations made of them, is a property of every rule of the grammar.

* `Cursor.laid` — another report at the same place;
* `Inherited` — a property that a parser has if its parts have it;
* `Inherited.many`, `Inherited.commaList`, `Inherited.chainLeft`, `Inherited.suffixes` — loops;
* `Inherited.expression`, `Inherited.sentences` — the grammar, by recursion on the frames.
-/
import Lox.Tree.Parse

namespace Lox.Tree

open Lox.Tree.Parser

/-- A cursor with a change of the report. -/
def Cursor.laid (f : Report → Report) (c : Cursor) : Cursor :=
  { c with report := f c.report }

/-- A property that a parser has if its parts have it.  What is looked at is never the
report, and a parser refuses no token but the one ahead of it. -/
structure Inherited (P : ∀ {α : Type}, Parser α → Prop) : Prop where
  pure : ∀ {α : Type} (a : α), P (pure a : Parser α)
  bind : ∀ {α β : Type} {p : Parser α} {g : α → Parser β}, P p → (∀ a, P (g a)) → P (p >>= g)
  look : ∀ {α : Type} {k : Cursor → Parser α}, (∀ f c, k (Cursor.laid f c) = k c) →
    (∀ c, P (k c)) → P (get >>= k)
  choose : ∀ {α : Type} {k : Token → Parser α},
    (∀ t, P (k t) ∨ ∃ text, k t = throw (.complaint t (.expected text))) → P (peek >>= k)
  advance : P advance
  complain : ∀ t why, P (complain t why)
  tooDeep : ∀ {α : Type}, P (throw .tooDeep : Parser α)
  recovering : ∀ {α : Type} {p : Parser α}, P p → P (recovering p)

namespace Inherited

variable {P : ∀ {α : Type}, Parser α → Prop} (h : Inherited P) {α β : Type}

include h

/-! ### Single tokens -/

theorem map (g : α → β) {p : Parser α} (hp : P p) : P (g <$> p) := by
  rw [map_eq_pure_bind]
  exact h.bind hp fun a => h.pure (g a)

omit h in
theorem ite {c : Prop} [Decidable c] {p q : Parser α} (hp : P p) (hq : P q) :
    P (if c then p else q) := by
  split
  · exact hp
  · exact hq

theorem peek : P peek :=
  h.look (fun _ _ => rfl) fun _ => h.pure _

theorem accept (wanted : Token.Kind → Bool) : P (accept wanted) :=
  h.bind h.peek fun _ => ite (h.map some h.advance) (h.pure none)

theorem skips (k : Token.Kind) : P (skips k) :=
  h.look (fun _ _ => rfl) fun _ => ite (h.bind h.advance fun _ => h.pure true) (h.pure false)

theorem expect (k : Token.Kind) (text : String) : P (expect k text) := by
  refine h.choose fun t => ?_
  by_cases hk : (t.kind == k) = true
  · rw [if_pos hk]
    exact .inl h.advance
  · rw [if_neg hk]
    exact .inr ⟨text, rfl⟩

/-- The token ahead decides whether there is something to read. -/
theorem unlessSees {k : Token.Kind} {p : Parser β} {g : Option β → Parser α} (hp : P p)
    (hg : ∀ o, P (g o)) :
    P (do
      let o ← if (← get).sees k then Pure.pure none else some <$> p
      g o) :=
  h.look (fun _ _ => rfl) fun _ => ite (hg none) (h.bind (h.map some hp) hg)

/-- A token that is read decides whether more is. -/
theorem after {k : Token.Kind} {p : Parser β} {g : Option β → Parser α} (hp : P p)
    (hg : ∀ o, P (g o)) :
    P (do
      let o ← if ← Parser.skips k then some <$> p else Pure.pure none
      g o) :=
  h.bind (h.skips k) fun _ => ite (h.bind (h.map some hp) hg) (hg none)

/-! ### Loops -/

theorem manyFrom {more : Cursor → Bool} {step : Parser (Option α)}
    (hmore : ∀ f c, more (Cursor.laid f c) = more c) (hstep : P step) (fuel : Nat) :
    ∀ found, P (manyFrom more step fuel found) := by
  induction fuel with
  | zero => exact fun found => h.pure _
  | succ fuel ih =>
    intro found
    refine h.look (fun f c => ?_) fun c => ite (h.bind hstep fun _ => ih _) (h.pure _)
    rw [hmore]

theorem many {more : Cursor → Bool} {step : Parser (Option α)}
    (hmore : ∀ f c, more (Cursor.laid f c) = more c) (hstep : P step) : P (many more step) :=
  h.look (fun _ _ => rfl) fun _ => h.manyFrom hmore hstep _ _

theorem commaList {what : String} {item : Parser α} (hi : P item) :
    P (commaList what item) := by
  have hfrom : ∀ (fuel : Nat) (found : Array α), P (commaListFrom what item fuel found) := by
    intro fuel
    induction fuel with
    | zero => exact fun found => h.pure _
    | succ fuel ih =>
      intro found
      have hrest : P (do
          let a ← item
          if ← Parser.skips .comma then commaListFrom what item fuel (found.push a)
          else Pure.pure (found.push a).toList) :=
        h.bind hi fun a => h.bind (h.skips _) fun _ => ite (ih _) (h.pure _)
      exact ite (h.bind h.peek fun t => h.bind (h.complain t _) fun _ => hrest) hrest
  exact h.look (fun _ _ => rfl) fun _ => ite (h.pure [])
    (h.look (fun _ _ => rfl) fun _ => hfrom _ _)

theorem chainLeft {isOperator : Token.Kind → Bool} {join : Expr → Token → Expr → Expr}
    {operand : Parser Expr} (ho : P operand) : P (chainLeft isOperator join operand) := by
  have hfrom : ∀ fuel e, P (chainLeftFrom isOperator join operand fuel e) := by
    intro fuel
    induction fuel with
    | zero => exact fun e => h.pure e
    | succ fuel ih =>
      refine fun e => h.bind (h.accept _) fun o => ?_
      cases o with
      | some op => exact h.bind ho fun _ => ih _
      | none => exact h.pure e
  exact h.bind ho fun e => h.bind h.peek fun _ =>
    ite (h.look (fun _ _ => rfl) fun _ => hfrom _ e) (h.pure e)

theorem suffixes {inner operand : Parser Expr} (hi : P inner) (ho : P operand) :
    P (suffixes inner operand) := by
  have hfrom : ∀ fuel e, P (suffixesFrom inner fuel e) := by
    intro fuel
    induction fuel with
    | zero => exact fun e => h.pure e
    | succ fuel ih =>
      intro e
      have hcall : P (finishCall inner e) :=
        h.bind (h.commaList hi) fun _ => h.bind (h.expect _ _) fun _ => h.pure _
      exact h.bind (h.skips _) fun _ => ite (h.bind hcall ih)
        (h.bind (h.skips _) fun _ => ite (h.bind (h.expect _ _) fun _ => ih _) (h.pure e))
  exact h.bind ho fun e => h.bind h.peek fun _ =>
    ite (h.look (fun _ _ => rfl) fun _ => hfrom _ e) (h.pure e)

/-! ### Expressions -/

theorem primary {inner : Parser Expr} (hi : P inner) : P (primary inner) := by
  refine h.choose fun t => ?_
  by_cases hliteral : isLiteral t.kind = true
  · rw [if_pos hliteral]
    exact .inl (h.bind h.advance fun _ => h.pure _)
  · rw [if_neg hliteral]
    split
    · exact .inl (h.bind h.advance fun _ => h.bind (h.expect _ _) fun _ =>
        h.bind (h.expect _ _) fun _ => h.pure _)
    · exact .inl (h.bind h.advance fun _ => h.pure _)
    · exact .inl (h.bind h.advance fun _ => h.pure _)
    · exact .inl (h.bind h.advance fun _ => h.bind hi fun _ => h.bind (h.expect _ _) fun _ =>
        h.pure _)
    · exact .inr ⟨_, rfl⟩

theorem assignTo (target : Expr) (equals : Token) (value : Expr) :
    P (assignTo target equals value) := by
  unfold Lox.Tree.assignTo
  split
  · exact h.pure _
  · exact h.pure _
  · exact h.bind (h.complain _ _) fun _ => h.pure _

theorem expression (n : Nat) : ∀ l, P (expression n l) := by
  -- By induction on the frames, one level of precedence after another.
  induction n with
  | zero =>
    intro l
    unfold Lox.Tree.expression
    exact h.tooDeep
  | succ n ih =>
    intro l
    cases l with
    | assignment =>
      refine h.bind (ih .disjunction) fun e => h.bind (h.accept _) fun o => ?_
      cases o with
      | some equals => exact h.bind (ih .assignment) fun _ => h.assignTo _ _ _
      | none => exact h.pure e
    | unary =>
      refine h.bind (h.accept _) fun o => ?_
      cases o with
      | some op => exact h.map _ (ih .unary)
      | none => exact ih .call
    | call => exact h.suffixes (ih _) (ih _)
    | primary => exact h.primary (ih _)
    | disjunction | conjunction | equality | comparison | term | factor =>
      exact h.chainLeft (ih _)

/-! ### Statements -/

section Statements

variable {value : Parser Expr} {body : Parser Stmt} (hv : P value)

include hv

theorem expressionStatement : P (expressionStatement value) :=
  h.bind hv fun _ => h.bind (h.expect _ _) fun _ => h.pure _

theorem printStatement : P (printStatement value) :=
  h.bind hv fun _ => h.bind (h.expect _ _) fun _ => h.pure _

theorem varDeclaration : P (varDeclaration value) :=
  h.bind (h.expect _ _) fun _ => h.after hv fun _ => h.bind (h.expect _ _) fun _ => h.pure _

theorem returnStatement (keyword : Token) : P (returnStatement keyword value) :=
  h.unlessSees hv fun _ => h.bind (h.expect _ _) fun _ => h.pure _

omit hv in
theorem breakStatement (keyword : Token) (inLoop : Bool) : P (breakStatement keyword inLoop) := by
  have hrest : P (do
      let _ ← Parser.expect .semicolon "Expect ';' after 'break'."
      Pure.pure (Stmt.breakLoop keyword)) :=
    h.bind (h.expect _ _) fun _ => h.pure _
  exact ite hrest (h.bind (h.complain _ _) fun _ => hrest)

theorem whileStatement (hb : P body) : P (whileStatement value body) :=
  h.bind (h.expect _ _) fun _ => h.bind hv fun _ => h.bind (h.expect _ _) fun _ => h.map _ hb

theorem ifStatement (hb : P body) : P (ifStatement value body) :=
  h.bind (h.expect _ _) fun _ => h.bind hv fun _ => h.bind (h.expect _ _) fun _ =>
    h.bind hb fun _ => h.after hb fun _ => h.pure _

theorem forStatement (hb : P body) : P (forStatement value body) := by
  have hinit : P (forInit value) :=
    h.bind (h.skips _) fun _ => ite (h.pure none) (h.bind (h.skips _) fun _ =>
      ite (h.map some (h.varDeclaration hv)) (h.map some (h.expressionStatement hv)))
  exact h.bind (h.expect _ _) fun _ => h.bind hinit fun _ => h.unlessSees hv fun _ =>
    h.bind (h.expect _ _) fun _ => h.unlessSees hv fun _ => h.bind (h.expect _ _) fun _ =>
      h.map _ hb

end Statements

theorem block {declaration : Parser (Option Stmt)} (hd : P declaration) :
    P (block declaration) :=
  h.bind (h.many (fun _ _ => rfl) hd) fun _ => h.bind (h.expect _ _) fun _ => h.pure _

section Declarations

variable {stmts : Parser (List Stmt)} (hb : P stmts)

include hb

theorem function (kind : String) : P (function kind stmts) :=
  h.bind (h.expect _ _) fun _ => h.bind (h.expect _ _) fun _ =>
    h.bind (h.commaList (h.expect _ _)) fun _ => h.bind (h.expect _ _) fun _ =>
      h.bind (h.expect _ _) fun _ => h.map _ hb

theorem classDeclaration : P (classDeclaration stmts) := by
  have hparent : P superclass :=
    h.bind (h.skips _) fun _ => ite (h.bind (h.expect _ _) fun _ => h.pure _) (h.pure none)
  exact h.bind (h.expect _ _) fun _ => h.bind hparent fun _ => h.bind (h.expect _ _) fun _ =>
    h.bind (h.many (fun _ _ => rfl) (h.map some (h.function hb _))) fun _ =>
      h.bind (h.expect _ _) fun _ => h.pure _

end Declarations

/-- A declaration is chosen by its first token. -/
theorem declared {n : Nat} {other : Parser Stmt} (ho : P other)
    (hd : P (Lox.Tree.declaration n false)) :
    P (do
      if ← Parser.skips .classKeyword then
        Lox.Tree.classDeclaration (Lox.Tree.block (Lox.Tree.declaration n false))
      else if ← Parser.skips .funKeyword then
        .funDecl <$> Lox.Tree.function "function" (Lox.Tree.block (Lox.Tree.declaration n false))
      else if ← Parser.skips .varKeyword then
        Lox.Tree.varDeclaration (Lox.Tree.expression n .assignment)
      else other) :=
  have hbody : P (Lox.Tree.block (Lox.Tree.declaration n false)) := h.block hd
  h.bind (h.skips _) fun _ => ite (h.classDeclaration hbody) (h.bind (h.skips _) fun _ =>
    ite (h.map _ (h.function hbody _)) (h.bind (h.skips _) fun _ =>
      ite (h.varDeclaration (h.expression n _)) ho))

theorem sentences (n : Nat) :
    (∀ inLoop, P (statement n inLoop)) ∧ ∀ inLoop, P (declaration n inLoop) := by
  -- By induction on the frames, statements and declarations together.
  induction n with
  | zero =>
    constructor
    · intro inLoop
      rw [statement]
      exact h.tooDeep
    · intro inLoop
      rw [declaration]
      exact h.tooDeep
  | succ n ih =>
    obtain ⟨hs, hd⟩ := ih
    have hv : P (Lox.Tree.expression n .assignment) := h.expression n _
    constructor
    · intro inLoop
      rw [statement]
      refine h.bind h.peek fun t => ?_
      split
      · exact h.bind h.advance fun _ => h.printStatement hv
      · exact h.bind h.advance fun _ => h.returnStatement hv t
      · exact h.bind h.advance fun _ => h.whileStatement hv (hs true)
      · exact h.bind h.advance fun _ => h.forStatement hv (hs true)
      · exact h.bind h.advance fun _ => h.ifStatement hv (hs inLoop)
      · exact h.bind h.advance fun _ => h.breakStatement t inLoop
      · exact h.bind h.advance fun _ => h.map _ (h.block (hd inLoop))
      · exact h.expressionStatement hv
    · intro inLoop
      rw [declaration]
      exact h.recovering (h.declared (hs inLoop) (hd false))

end Inherited

end Lox.Tree
