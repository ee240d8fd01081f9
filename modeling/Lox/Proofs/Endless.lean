/-
The tokens of trees, and the token that a tree is reported at.

A tree holds only tokens that were asked for by their kind when the text was read, and
nobody asks for the end of the input.  So the token that stands for the lack of one is not
the token of any tree, and it tells that a tree has none.

* `Node.Endless` — no token of a tree is the end of the input;
* `brings_expression`, `brings_sentences`, `parse_endless` — what is read, whatever is wrong
  with it;
* `firstToken_nearest` — the token that a tree is reported at.
-/
import Lox.Proofs.Levels
import Lox.Proofs.Placing
import Mathlib.Data.List.Basic

namespace Lox

open Node.Field

/-! ### Trees without the end of the input -/

mutual

/-- No token in a tree is the end of the input. -/
inductive Node.Endless : Node → Prop
  | mk {n : Node} (h : ∀ f ∈ n.fields, f.Endless) : n.Endless

/-- No token in what is stored in a node is the end of the input. -/
inductive Node.Field.Endless : Node.Field → Prop
  | token {t : Token} (h : t.isEnd = false) : (token t).Endless
  | tokens {ts : List Token} (h : ∀ t ∈ ts, t.isEnd = false) : (tokens ts).Endless
  | node {n : Node} (h : n.Endless) : (node n).Endless
  | nodes {ns : List Node} (h : ∀ n ∈ ns, n.Endless) : (nodes ns).Endless
  | plain : plain.Endless

end

/-- No token in an expression is the end of the input. -/
abbrev Expr.Endless (e : Expr) : Prop :=
  (Node.expr e).Endless

/-- No token in a statement is the end of the input. -/
abbrev Stmt.Endless (s : Stmt) : Prop :=
  (Node.stmt s).Endless

/-- No token in a function is the end of the input. -/
abbrev Function.Endless (f : Function) : Prop :=
  (Stmt.funDecl f).Endless

namespace Node

variable {n : Node}

theorem Field.Endless.optional {o : Option Node} (h : ∀ n ∈ o, n.Endless) :
    (Field.optional o).Endless := by
  cases o with
  | none => exact .plain
  | some n => exact .node (h n rfl)

theorem Endless.fields (h : n.Endless) : n.fields.Forall Field.Endless := by
  cases h with
  | mk h => exact List.forall_iff_forall_mem.mpr h

theorem endless_of (h : n.fields.Forall Field.Endless) : n.Endless :=
  .mk (List.forall_iff_forall_mem.mp h)

theorem Endless.held (h : n.Endless) : ∀ t ∈ n.held?, t.isEnd = false := by
  intro t ht
  obtain ⟨f, hf, htoken⟩ := List.exists_of_findSome?_eq_some ht
  have hfield := List.forall_iff_forall_mem.mp h.fields f hf
  cases hfield with
  | token h =>
    cases htoken
    exact h
  | _ => cases htoken

theorem Endless.of_below (h : n.Endless) : ∀ m ∈ n.below, m.Endless := by
  intro m hm
  obtain ⟨f, hf, hm⟩ := List.mem_flatMap.mp hm
  have hfield := List.forall_iff_forall_mem.mp h.fields f hf
  cases hfield with
  | node h => exact List.mem_singleton.mp hm ▸ h
  | nodes h => exact h m hm
  | _ => cases hm

theorem Endless.levels (h : n.Endless) : ∀ depth, ∀ m ∈ n.level depth, m.Endless :=
  forall_levels (List.forall_mem_singleton.mpr h) fun _ => of_below

end Node

open Node

/-- What is stored in place of an option. -/
theorem endless_option {α : Type} {f : α → Node} {o : Option α} (h : ∀ a ∈ o, (f a).Endless) :
    (Field.optional (o.map f)).Endless := by
  refine .optional fun n hn => ?_
  obtain ⟨a, ha, rfl⟩ := Option.map_eq_some_iff.mp hn
  exact h a ha

/-- What is stored in place of a list. -/
theorem endless_list {α : Type} {f : α → Node} {as : List α} (h : ∀ a ∈ as, (f a).Endless) :
    (Field.nodes (as.map f)).Endless :=
  .nodes (List.forall_mem_map.mpr h)

theorem Token.isEnd_of_kind {t : Token} {k : Token.Kind} (h : t.kind = k)
    (hk : (k == .endOfInput) = false) : t.isEnd = false := by
  rw [Token.isEnd, h, hk]

namespace Tree

open Lox.Tree.Parser

/-! ### Single tokens -/

/-- Whatever is wrong with the tokens ahead, a parser that does not stop gives a result of
some kind. -/
abbrev Brings {α : Type} (p : Parser α) (P : α → Prop) : Prop :=
  Steady (fun _ => True) (fun _ => True) p P

section Tokens

variable {α : Type} {P : α → Prop}

theorem brings_any (p : Parser α) : Brings p fun _ => True :=
  ⟨fun _ _ => ⟨trivial, trivial⟩, fun _ _ => ⟨trivial, trivial⟩⟩

/-- Something is read of which nothing matters, and something else after it. -/
theorem brings_after {β : Type} {p : Parser β} {f : β → Parser α} (h : ∀ b, Brings (f b) P) :
    Brings (p >>= f) P :=
  .bind (brings_any p) fun b _ => h b

theorem brings_throw (e : Halt) : Brings (throw e : Parser α) P :=
  .throw trivial

/-- The token at the cursor, if it is one of those wanted. -/
theorem brings_accept {wanted : Token.Kind → Bool} (hwanted : wanted .endOfInput = false) :
    Brings (accept wanted) fun o => ∀ t ∈ o, t.isEnd = false := by
  refine ⟨fun {c o c'} _ hrun => ⟨trivial, fun t ht => ?_⟩, fun _ _ => ⟨trivial, trivial⟩⟩
  change (if wanted c.current.kind then some <$> advance else pure none : Parser _) c = _ at hrun
  by_cases hkind : wanted c.current.kind = true
  · rw [if_pos hkind] at hrun
    cases hrun
    cases ht
    rw [Token.isEnd, beq_eq_false_iff_ne]
    exact fun hend => Bool.false_ne_true (hwanted.symm.trans (hend ▸ hkind))
  · rw [if_neg hkind] at hrun
    cases hrun
    cases ht

theorem brings_expect {k : Token.Kind} {text : String} (hk : (k == .endOfInput) = false) :
    Brings (expect k text) fun t => t.isEnd = false := by
  refine ⟨fun {c t c'} _ hrun => ⟨trivial, ?_⟩, fun _ _ => ⟨trivial, trivial⟩⟩
  change (if c.current.kind == k then advance
    else throw (.complaint c.current (.expected text)) : Parser _) c = _ at hrun
  by_cases hkind : (c.current.kind == k) = true
  · rw [if_pos hkind] at hrun
    cases hrun
    exact Token.isEnd_of_kind (beq_iff_eq.mp hkind) hk
  · rw [if_neg hkind] at hrun
    cases hrun

theorem brings_recovering {p : Parser α} (h : Brings p P) :
    Brings (recovering p) fun o => ∀ a ∈ o, P a := by
  refine ⟨fun {c o c'} _ hrun => ⟨trivial, ?_⟩, fun _ _ => ⟨trivial, trivial⟩⟩
  unfold recovering at hrun
  cases hp : p c with
  | ok a d =>
    rw [hp] at hrun
    cases hrun
    simpa using (h.ok trivial hp).2
  | error e d =>
    -- After a mistake there is no result.
    rw [hp] at hrun
    cases e with
    | complaint t why =>
      cases hrun
      simp
    | tooDeep =>
      cases hrun
      simp

theorem brings_commaList {what : String} {item : Parser α} (h : Brings item P) :
    Brings (commaList what item) fun as => ∀ a ∈ as, P a :=
  steady_commaList (brings_any _) (brings_any _) (fun _ _ _ => brings_any _) h

end Tokens

/-! ### Expressions -/

theorem brings_primary {inner : Parser Expr} (hi : Brings inner Expr.Endless) :
    Brings (primary inner) Expr.Endless := by
  refine brings_after fun t =>
    .ite (brings_after fun _ => .pure (endless_of .plain)) ?_
  split
  · rename_i hkind
    have ht := Token.isEnd_of_kind hkind rfl
    exact brings_after fun _ => brings_after fun _ => .bind (brings_expect rfl) fun _ hm =>
      .pure (endless_of ⟨.token ht, .token hm⟩)
  · rename_i hkind
    exact brings_after fun _ => .pure (endless_of (.token (Token.isEnd_of_kind hkind rfl)))
  · rename_i hkind
    exact brings_after fun _ => .pure (endless_of (.token (Token.isEnd_of_kind hkind rfl)))
  · exact brings_after fun _ => .bind hi fun e he => brings_after fun _ =>
      .pure (endless_of (.node he))
  · exact brings_throw _

theorem brings_suffixes {inner operand : Parser Expr} (hi : Brings inner Expr.Endless)
    (ho : Brings operand Expr.Endless) : Brings (suffixes inner operand) Expr.Endless := by
  have hcall : ∀ e, Expr.Endless e → Brings (finishCall inner e) Expr.Endless := fun e he =>
    .bind (brings_commaList hi) fun es hes => .bind (brings_expect rfl) fun paren hp =>
      .pure (endless_of ⟨.node he, .token hp, endless_list hes⟩)
  exact steady_suffixes (fun _ => brings_any _) hcall (brings_expect rfl)
    (fun hn he => endless_of ⟨.node he, .token hn⟩) ho

theorem brings_assignTo {target value : Expr} {equals : Token} (ht : target.Endless)
    (hv : value.Endless) : Brings (assignTo target equals value) Expr.Endless := by
  unfold assignTo
  split
  · exact .pure (endless_of ⟨ht.fields, .node hv⟩)
  · obtain ⟨hobject, hname⟩ := ht.fields
    exact .pure (endless_of ⟨hobject, hname, .node hv⟩)
  · exact brings_after fun _ => .pure ht

theorem brings_expression (n : Nat) : ∀ l, Brings (expression n l) Expr.Endless := by
  -- By induction on the frames, one level of precedence after another.
  induction n with
  | zero =>
    intro l
    unfold expression
    exact brings_throw _
  | succ n ih =>
    have hlogical : ∀ {l op r}, op.isEnd = false → l.Endless → r.Endless →
        (Expr.logical l op r).Endless :=
      fun hop hl hr => endless_of ⟨.node hl, .token hop, .node hr⟩
    have hbinary : ∀ {l op r}, op.isEnd = false → l.Endless → r.Endless →
        (Expr.binary l op r).Endless :=
      fun hop hl hr => endless_of ⟨.node hl, .token hop, .node hr⟩
    intro l
    cases l with
    | assignment =>
      refine .bind (ih .disjunction) fun e he => brings_after fun o => ?_
      cases o with
      | some equals => exact .bind (ih .assignment) fun v hv => brings_assignTo he hv
      | none => exact .pure he
    | disjunction => exact steady_chainLeft (brings_accept rfl) (ih _) hlogical
    | conjunction => exact steady_chainLeft (brings_accept rfl) (ih _) hlogical
    | equality => exact steady_chainLeft (brings_accept rfl) (ih _) hbinary
    | comparison => exact steady_chainLeft (brings_accept rfl) (ih _) hbinary
    | term => exact steady_chainLeft (brings_accept rfl) (ih _) hbinary
    | factor => exact steady_chainLeft (brings_accept rfl) (ih _) hbinary
    | unary =>
      refine .bind (brings_accept rfl) fun o ho => ?_
      cases o with
      | some op =>
        exact .map (ih .unary) fun e he => endless_of ⟨.token (ho op rfl), .node he⟩
      | none => exact ih .call
    | call => exact brings_suffixes (ih _) (ih _)
    | primary => exact brings_primary (ih _)

/-! ### Statements -/

section Statements

variable {value : Parser Expr} {body : Parser Stmt}

theorem brings_expressionStatement (hv : Brings value Expr.Endless) :
    Brings (expressionStatement value) Stmt.Endless :=
  .bind hv fun _ he => brings_after fun _ => .pure (endless_of (.node he))

theorem brings_varDeclaration (hv : Brings value Expr.Endless) :
    Brings (varDeclaration value) Stmt.Endless := by
  have hrest : ∀ {name : Token} {o : Option Expr}, name.isEnd = false → (∀ e ∈ o, e.Endless) →
      Brings (do
        let _ ← expect .semicolon "Expect ';' after variable declaration."
        pure (Stmt.varDecl name o)) Stmt.Endless := fun hn ho =>
    brings_after fun _ => .pure (endless_of ⟨.token hn, endless_option ho⟩)
  exact .bind (brings_expect rfl) fun name hn => brings_after fun _ =>
    .ite (.bind (.some hv) fun _ ho => hrest hn ho) (hrest hn (by simp))

theorem brings_returnStatement {keyword : Token} (ht : keyword.isEnd = false)
    (hv : Brings value Expr.Endless) : Brings (returnStatement keyword value) Stmt.Endless :=
  steady_optional hv fun _ ho => brings_after fun _ =>
    .pure (endless_of ⟨.token ht, endless_option ho⟩)

theorem brings_breakStatement {keyword : Token} (ht : keyword.isEnd = false) (inLoop : Bool) :
    Brings (breakStatement keyword inLoop) Stmt.Endless := by
  have hrest : Brings (do
      let _ ← expect .semicolon "Expect ';' after 'break'."
      pure (Stmt.breakLoop keyword)) Stmt.Endless :=
    brings_after fun _ => .pure (endless_of (.token ht))
  exact .ite hrest (brings_after fun _ => hrest)

theorem brings_whileStatement (hv : Brings value Expr.Endless) (hb : Brings body Stmt.Endless) :
    Brings (whileStatement value body) Stmt.Endless :=
  brings_after fun _ => .bind hv fun _ he => brings_after fun _ =>
    .map hb fun _ hs => endless_of ⟨.node he, .node hs⟩

theorem brings_ifStatement (hv : Brings value Expr.Endless) (hb : Brings body Stmt.Endless) :
    Brings (ifStatement value body) Stmt.Endless := by
  have hif : ∀ {e s o}, Expr.Endless e → Stmt.Endless s → (∀ t ∈ o, Stmt.Endless t) →
      (Stmt.ifElse e s o).Endless :=
    fun he hs ho => endless_of ⟨.node he, .node hs, endless_option ho⟩
  exact brings_after fun _ => .bind hv fun _ he => brings_after fun _ => .bind hb fun _ hs =>
    brings_after fun _ => .ite (.bind (.some hb) fun _ ho => .pure (hif he hs ho))
      (.pure (hif he hs (by simp)))

theorem forLoop_endless {i : Option Stmt} {c e : Option Expr} {s : Stmt}
    (hi : ∀ t ∈ i, t.Endless) (hc : ∀ e ∈ c, e.Endless) (he : ∀ v ∈ e, v.Endless)
    (hs : s.Endless) : (forLoop i c e s).Endless := by
  have hblock : ∀ {s t : Stmt}, s.Endless → t.Endless → (Stmt.block [s, t]).Endless :=
    fun hs ht => endless_of (endless_list (by simpa using ⟨hs, ht⟩))
  have hbody : (e.elim s fun e => .block [s, .expression e]).Endless := by
    cases e with
    | none => exact hs
    | some e => exact hblock hs (endless_of (.node (he e rfl)))
  have hcondition : (c.getD (.literal (.bool true))).Endless := by
    cases c with
    | none => exact endless_of .plain
    | some c => exact hc c rfl
  have hloop : (Stmt.whileLoop (c.getD (.literal (.bool true)))
      (e.elim s fun e => .block [s, .expression e])).Endless :=
    endless_of ⟨.node hcondition, .node hbody⟩
  cases i with
  | none => exact hloop
  | some i => exact hblock (hi i rfl) hloop

theorem brings_forStatement (hv : Brings value Expr.Endless) (hb : Brings body Stmt.Endless) :
    Brings (forStatement value body) Stmt.Endless := by
  have hinit : Brings (forInit value) fun o => ∀ t ∈ o, t.Endless :=
    brings_after fun _ => .ite (.pure (by simp)) (brings_after fun _ =>
      .ite (.some (brings_varDeclaration hv)) (.some (brings_expressionStatement hv)))
  exact brings_after fun _ => .bind hinit fun _ hi => steady_optional hv fun _ hc =>
    brings_after fun _ => steady_optional hv fun _ he => brings_after fun _ =>
      .map hb fun _ hs => forLoop_endless hi hc he hs

theorem brings_block {declaration : Parser (Option Stmt)}
    (hd : Brings declaration fun o => ∀ s ∈ o, s.Endless) :
    Brings (block declaration) fun body => ∀ s ∈ body, s.Endless :=
  .bind (steady_many hd) fun _ hb => brings_after fun _ => .pure hb

variable {stmts : Parser (List Stmt)}

theorem brings_function (kind : String)
    (hb : Brings stmts fun body => ∀ s ∈ body, s.Endless) :
    Brings (function kind stmts) Function.Endless :=
  .bind (brings_expect rfl) fun _ hn => brings_after fun _ =>
    .bind (brings_commaList (brings_expect rfl)) fun _ hp => brings_after fun _ =>
      brings_after fun _ => .map hb fun _ hb =>
        endless_of ⟨.token hn, .tokens hp, endless_list hb⟩

theorem brings_superclass :
    Brings superclass fun o => ∀ ref ∈ o, (Expr.var ref).Endless := by
  have hname : ∀ {t : Token}, t.isEnd = false → (Expr.var { token := t }).Endless := fun ht =>
    endless_of (Field.Endless.token ht)
  exact brings_after fun _ => .ite (.bind (brings_expect rfl) fun _ ht =>
    .pure (by simpa using hname ht)) (.pure (by simp))

theorem brings_classDeclaration (hb : Brings stmts fun body => ∀ s ∈ body, s.Endless) :
    Brings (classDeclaration stmts) Stmt.Endless :=
  .bind (brings_expect rfl) fun _ hn => .bind brings_superclass fun _ hs => brings_after fun _ =>
    .bind (steady_many (.some (brings_function _ hb))) fun _ hm => brings_after fun _ =>
      .pure (endless_of ⟨.token hn, endless_option hs, endless_list hm⟩)

theorem brings_sentences (n : Nat) :
    (∀ inLoop, Brings (statement n inLoop) Stmt.Endless) ∧
      ∀ inLoop, Brings (declaration n inLoop) fun o => ∀ s ∈ o, s.Endless := by
  -- By induction on the frames, statements and declarations together.
  induction n with
  | zero =>
    constructor
    · intro inLoop
      rw [statement]
      exact brings_throw _
    · intro inLoop
      rw [declaration]
      exact brings_throw _
  | succ n ih =>
    obtain ⟨hs, hd⟩ := ih
    have hv : Brings (expression n .assignment) Expr.Endless := brings_expression n _
    have hbody := brings_block (hd false)
    constructor
    · intro inLoop
      rw [statement]
      refine brings_after fun t => ?_
      split
      · exact brings_after fun _ => .bind hv fun _ he => brings_after fun _ =>
          .pure (endless_of (.node he))
      · rename_i hkind
        exact brings_after fun _ => brings_returnStatement (Token.isEnd_of_kind hkind rfl) hv
      · exact brings_after fun _ => brings_whileStatement hv (hs true)
      · exact brings_after fun _ => brings_forStatement hv (hs true)
      · exact brings_after fun _ => brings_ifStatement hv (hs inLoop)
      · rename_i hkind
        exact brings_after fun _ => brings_breakStatement (Token.isEnd_of_kind hkind rfl) inLoop
      · exact brings_after fun _ => .map (brings_block (hd inLoop)) fun _ hb =>
          endless_of (endless_list hb)
      · exact brings_expressionStatement hv
    · intro inLoop
      rw [declaration]
      exact brings_recovering (brings_after fun _ => .ite (brings_classDeclaration hbody)
        (brings_after fun _ => .ite (.map (brings_function _ hbody) fun _ hf => hf)
          (brings_after fun _ => .ite (brings_varDeclaration hv) (hs inLoop))))

end Statements

/-- No tree that is read from a list of tokens holds the end of the input, whatever is wrong
with the tokens. -/
theorem parse_endless (frames : Nat) (tokens : List Token) (listing : Listing)
    (report : Report) : ∀ s ∈ (parse frames tokens listing report).1, s.Endless := by
  have hprogram : Brings (program frames) fun body => ∀ s ∈ body, s.Endless :=
    steady_many ((brings_sentences frames).2 false)
  unfold parse
  split
  · exact (hprogram.ok trivial ‹_›).2
  · exact fun _ hs => absurd hs List.not_mem_nil

end Tree

/-! ### The token to report at -/

namespace Node

theorem nearest_of_some {n : Node} {t : Token} (h : firstTokenFrom [n] = some t) :
    n.Nearest t := by
  obtain ⟨depth, before, m, after, hlevel, hm, hbefore, habove⟩ := firstTokenFrom_some h
  exact ⟨depth, before, m, after, hlevel, hm,
    fun left hl => stored_eq_nil_iff.mpr (hbefore left hl),
    fun higher hlt above ha => stored_eq_nil_iff.mpr (habove higher hlt above ha)⟩

theorem Nearest.stored {n : Node} {t : Token} (h : n.Nearest t) :
    ∃ depth, ∃ m ∈ n.level depth, t ∈ m.stored := by
  obtain ⟨depth, before, m, after, hlevel, hm, -⟩ := h
  exact ⟨depth, m, hlevel ▸ List.mem_append_right before List.mem_cons_self, held?_mem hm⟩

theorem Nearest.isEnd {n : Node} {t : Token} (h : n.Nearest t) (hn : n.Endless) :
    t.isEnd = false := by
  obtain ⟨depth, before, m, after, hlevel, hm, -⟩ := h
  have hmem : m ∈ n.level depth := hlevel ▸ List.mem_append_right before List.mem_cons_self
  exact (hn.levels depth m hmem).held t hm

/-- The search for a token of a tree that is part of what was read, or of the whole of it,
ends, and what it finds is what the tree is reported at: the nearest token, or, exactly if
there is none in the tree, the end of a text of which nothing has been read. -/
theorem firstToken_nearest (frames : Nat) (tokens : List Token) (listing : Listing)
    (report : Report) {s : Stmt} (hs : s ∈ (Tree.parse frames tokens listing report).1)
    {depth : Nat} {n : Node} (hn : n ∈ (stmt s).level depth) :
    ∃ found enough, (∀ turns ≥ enough, search turns [n] = some found) ∧
      n.firstToken = found.getD Token.endOfNothing ∧
      (∀ t, found = some t → n.Nearest t ∧ ∃ d, ∃ m ∈ n.level d, t ∈ m.stored) ∧
      (n.firstToken = Token.mk .endOfInput "" .nil ⟨⟨1, 1, 0, none⟩, ⟨1, 1, 0, none⟩⟩ ↔
        ∀ d, ∀ m ∈ n.level d, m.stored = []) := by
  have hendless : n.Endless :=
    (Tree.parse_endless frames tokens listing report s hs).levels depth n hn
  obtain ⟨enough, henough⟩ := search_firstTokenFrom [n]
  refine ⟨firstTokenFrom [n], enough, fun turns hle => search_of_le hle henough, rfl,
    fun t ht => ⟨nearest_of_some ht, (nearest_of_some ht).stored⟩, ?_⟩
  change (firstTokenFrom [n]).getD Token.endOfNothing = Token.endOfNothing ↔ _
  cases hfound : firstTokenFrom [n] with
  | none =>
    have hnone := firstTokenFrom_none hfound
    exact iff_of_true rfl fun d m hm => stored_eq_nil_iff.mpr (hnone d m hm)
  | some t =>
    -- No token of a tree that was read is the end, so this one was not made up.
    have ht := (nearest_of_some hfound).isEnd hendless
    obtain ⟨d, m, hm, hmem⟩ := (nearest_of_some hfound).stored
    refine iff_of_false (fun hend => ?_) fun hall => List.not_mem_nil (hall d m hm ▸ hmem)
    change t = Token.endOfNothing at hend
    rw [hend] at ht
    cases ht

/-- The operator is further to the left, and the name of the variable is nearer. -/
theorem firstToken_nearest_declaration :
    let tokens := (Token.scan "{ { print a + b; } var y; }" none {}).1.toList
    ∃ s ∈ (Tree.parse 30 tokens default {}).1, (stmt s).Nearest (stmt s).firstToken ∧
      (stmt s).firstToken.lexeme = "y" := by
  intro tokens
  have hlexemes : (Tree.parse 30 tokens default {}).1.map
      (fun s => (search 9 [stmt s]).map (Option.map Token.lexeme)) = [some (some "y")] := by
    decide +kernel
  obtain ⟨s, hs, hsearch⟩ := List.mem_map.mp (hlexemes ▸ List.mem_singleton_self _)
  obtain ⟨found, hfound, hlexeme⟩ := Option.map_eq_some_iff.mp hsearch
  obtain ⟨t, rfl, ht⟩ := Option.map_eq_some_iff.mp hlexeme
  have hroot : stmt s ∈ (stmt s).level 0 := List.mem_singleton_self (stmt s)
  obtain ⟨other, enough, hother, hfirst, hnearest, -⟩ :=
    firstToken_nearest 30 tokens default {} hs hroot
  have hsame : some other = some (some t) :=
    (hother (9 + enough) (Nat.le_add_left ..)).symm.trans
      (search_of_le (Nat.le_add_right ..) hfound)
  cases hsame
  refine ⟨s, hs, ?_⟩
  rw [hfirst]
  exact ⟨(hnearest t rfl).1, ht⟩

end Node

end Lox
