/-
Trees as they are read, without places.

What is read from a text and what is kept of it when the places of its tokens are left out.
Where nothing is known of the names, a tree holds no more than this: a sign or a reserved word
is told by its kind, and a name by its text.

* `Expr.unplaced`, `Stmt.unplaced`, `Function.unplaced` — trees without places;
* `Node.parts`, `Node.Holds`, `Node.Everywhere` — the nodes below a node;
* `Node.Scanned`, `Node.Read` — the tokens of a node, and of a tree, are those of a text;
* `Phrase.read`, `Sentence.read` — what is derived from the tokens of a text;
* `parse_read` — and so what is read from a text without a mistake.
-/
import Lox.Proofs.Checking
import Lox.Proofs.Lexemes
import Lox.Proofs.WellScoped

namespace Lox

/-! ### Trees without places -/

/-- A use of a name without its place. -/
def Reference.unplaced (r : Reference) : Reference :=
  { r with token := r.token.unplaced }

mutual

/-- An expression without the places of its tokens. -/
@[simp]
def Expr.unplaced : Expr → Expr
  | .literal value => .literal value
  | .grouping e => .grouping e.unplaced
  | .unary op e => .unary op.unplaced e.unplaced
  | .binary l op r => .binary l.unplaced op.unplaced r.unplaced
  | .logical l op r => .logical l.unplaced op.unplaced r.unplaced
  | .var ref => .var ref.unplaced
  | .assign target value => .assign target.unplaced value.unplaced
  | .call callee paren arguments =>
    .call callee.unplaced paren.unplaced (Expr.unplacedAll arguments)
  | .get object name => .get object.unplaced name.unplaced
  | .set object name value => .set object.unplaced name.unplaced value.unplaced
  | .thisRef ref => .thisRef ref.unplaced
  | .superRef ref method => .superRef ref.unplaced method.unplaced
  | .blank family => .blank family
  | .bare value => .bare value
  | .misplaced s => .misplaced s.unplaced

/-- Several expressions without places. -/
@[simp]
def Expr.unplacedAll : List Expr → List Expr
  | [] => []
  | e :: es => e.unplaced :: Expr.unplacedAll es

/-- A statement without the places of its tokens. -/
@[simp]
def Stmt.unplaced : Stmt → Stmt
  | .expression e => .expression e.unplaced
  | .print e => .print e.unplaced
  | .varDecl name none => .varDecl name.unplaced none
  | .varDecl name (some e) => .varDecl name.unplaced (some e.unplaced)
  | .block body => .block (Stmt.unplacedAll body)
  | .ifElse c t none => .ifElse c.unplaced t.unplaced none
  | .ifElse c t (some e) => .ifElse c.unplaced t.unplaced (some e.unplaced)
  | .whileLoop c body => .whileLoop c.unplaced body.unplaced
  | .breakLoop keyword => .breakLoop keyword.unplaced
  | .funDecl f => .funDecl f.unplaced
  | .returnWith keyword none => .returnWith keyword.unplaced none
  | .returnWith keyword (some e) => .returnWith keyword.unplaced (some e.unplaced)
  | .classDecl name superclass methods =>
    .classDecl name.unplaced (superclass.map Reference.unplaced) (Function.unplacedAll methods)
  | .misplaced e => .misplaced e.unplaced

/-- Several statements without places. -/
@[simp]
def Stmt.unplacedAll : List Stmt → List Stmt
  | [] => []
  | s :: ss => s.unplaced :: Stmt.unplacedAll ss

/-- A function without the places of its tokens. -/
@[simp]
def Function.unplaced : Function → Function
  | .mk name params body => .mk name.unplaced (params.map Token.unplaced) (Stmt.unplacedAll body)

/-- Several functions without places. -/
@[simp]
def Function.unplacedAll : List Function → List Function
  | [] => []
  | f :: fs => f.unplaced :: Function.unplacedAll fs

end

/-! ### Nodes and their parts -/

namespace Node

/-- The nodes right below a node; a method is a declaration of its own. -/
def parts : Node → List Node
  | expr e => e.parts.map expr
  | stmt s =>
    match s with
    | .expression e | .print e => [expr e]
    | .varDecl _ init => init.toList.map expr
    | .block body => body.map stmt
    | .ifElse c t other => expr c :: stmt t :: other.toList.map stmt
    | .whileLoop c body => [expr c, stmt body]
    | .funDecl f => f.body.map stmt
    | .returnWith _ value => value.toList.map expr
    | .classDecl _ _ methods => methods.map fun m => stmt (.funDecl m)
    | .breakLoop _ | .misplaced _ => []

/-- A node is another one, or it is somewhere below it. -/
def Holds : Node → Node → Prop :=
  Relation.ReflTransGen fun n part => part ∈ n.parts

/-- Something is so at a node and at all nodes below it. -/
inductive Everywhere (P : Node → Prop) : Node → Prop
  | mk {n : Node} (here : P n) (below : ∀ part ∈ n.parts, Everywhere P part) : Everywhere P n

variable {P Q : Node → Prop} {n m : Node}

theorem Everywhere.of_holds (h : n.Everywhere P) (hm : n.Holds m) : m.Everywhere P := by
  induction hm with
  | refl => exact h
  | tail _ hpart ih =>
    cases ih with
    | mk _ below => exact below _ hpart

theorem Everywhere.and (h : n.Everywhere P) (h' : n.Everywhere Q) :
    n.Everywhere fun m => P m ∧ Q m := by
  induction h with
  | mk here _ ih =>
    cases h' with
    | mk here' below' => exact .mk ⟨here, here'⟩ fun part hpart => ih part hpart (below' part hpart)

end Node

/-! ### Tokens of a text -/

open Token (ofKind ofName)

/-- The token of a name. -/
def Token.Named (t : Token) : Prop :=
  Token.IsName t.lexeme ∧ t.unplaced = ofName t.lexeme

/-- A use of a name whose distance is not yet known. -/
def Reference.Named (r : Reference) : Prop :=
  Token.IsName r.name ∧ r.unplaced = { token := ofName r.name }

/-- The token of an operator of some class. -/
def Token.Operator (isOperator : Token.Kind → Bool) (t : Token) : Prop :=
  isOperator t.kind = true ∧ t.unplaced = ofKind t.kind

/-- The operators of two operands of which the second may be left out. -/
def Tree.isLogical (k : Token.Kind) : Bool :=
  k == .orKeyword || k == .andKeyword

/-- The kinds of operators. -/
def Token.Kind.isOperator (k : Token.Kind) : Bool :=
  Tree.isUnary k || Scope.isStrict k || Tree.isLogical k

theorem Token.Kind.isFixed_of_isOperator {k : Token.Kind} (h : k.isOperator = true) :
    k.isFixed = true := by
  cases k <;> first | rfl | cases h

/-- The tokens of a node are as they are in a tree that was read. -/
def Node.Scanned : Node → Prop
  | expr e =>
    match e with
    | .literal (.text s) => '"' ∉ s.toList
    | .literal _ | .grouping _ => True
    | .unary op _ => op.Operator Tree.isUnary
    | .binary _ op _ => op.Operator Scope.isStrict
    | .logical _ op _ => op.Operator Tree.isLogical
    | .var ref | .assign ref _ => ref.Named
    | .call _ paren _ => paren.unplaced = ofKind .rightParen
    | .get _ name | .set _ name _ => name.Named
    | .thisRef ref => ref.unplaced = { token := ofKind .thisKeyword }
    | .superRef ref method => ref.unplaced = { token := ofKind .superKeyword } ∧ method.Named
    | .blank _ | .bare _ | .misplaced _ => False
  | stmt s =>
    match s with
    | .varDecl name _ => name.Named
    | .breakLoop keyword => keyword.unplaced = ofKind .breakKeyword
    | .funDecl f => f.name.Named ∧ ∀ p ∈ f.params, p.Named
    | .returnWith keyword _ => keyword.unplaced = ofKind .returnKeyword
    | .classDecl name superclass _ => name.Named ∧ ∀ r ∈ superclass, r.Named
    | .misplaced _ => False
    | _ => True

/-- The nodes of a tree are as they are in a tree that was read. -/
abbrev Node.Read (n : Node) : Prop :=
  n.Everywhere Node.Scanned

namespace Token

variable {t : Token}

theorem named_of (h : t.word.Scanned) (hk : t.kind = .identifier) : t.Named :=
  unplaced_of_identifier h hk

theorem Named.reference (h : t.Named) : Reference.Named { token := t } :=
  ⟨h.1, by rw [Reference.unplaced, h.2]; rfl⟩

theorem operator_of {p : Kind → Bool} (h : t.word.Scanned) (hk : p t.kind = true)
    (hoperator : t.kind.isOperator = true) : t.Operator p :=
  ⟨hk, unplaced_of_isFixed h (Kind.isFixed_of_isOperator hoperator)⟩

theorem unplaced_of_kind {k : Kind} (h : t.word.Scanned) (hk : t.kind = k)
    (hfixed : k.isFixed = true) : t.unplaced = ofKind k := by
  subst hk
  exact unplaced_of_isFixed h hfixed

theorem use_of_kind {k : Kind} (h : t.word.Scanned) (hk : t.kind = k) (hfixed : k.isFixed = true) :
    Reference.unplaced { token := t } = { token := ofKind k } := by
  rw [Reference.unplaced, unplaced_of_kind h hk hfixed]

/-- The value of a token of a text has no quote in it. -/
theorem scanned_literal (h : t.word.Scanned) : (Node.expr (.literal t.literal)).Scanned := by
  obtain ⟨w, hw⟩ : ∃ w, t.word = w := ⟨_, rfl⟩
  have hliteral : t.literal = w.literal := congrArg Word.literal hw
  rw [hliteral]
  rw [hw] at h
  cases h with
  | @fixed k _ => cases k <;> trivial
  | name => trivial
  | number => trivial
  | string hbody => exact hbody

end Token

namespace Tree

theorem Separated.mem {items : List (List Token)} {ts : List Token} (h : Separated items ts) :
    ∀ item ∈ items, ∀ t ∈ item, t ∈ ts := by
  induction h with
  | none => exact fun _ h => nomatch h
  | last => exact List.forall_mem_singleton.mpr fun t ht => ht
  | more _ _ ih =>
    refine List.forall_mem_cons.mpr ⟨fun t ht => List.mem_append_left _ ht,
      fun item hitem t ht => ?_⟩
    exact List.mem_append_right _ (List.mem_cons_of_mem _ (ih item hitem t ht))

theorem Level.read_join {l : Level} {e r : Expr} {op : Token} (hop : op.word.Scanned)
    (ho : l.isOperator op.kind = true) (he : (Node.expr e).Read) (hr : (Node.expr r).Read) :
    (Node.expr (l.join e op r)).Read := by
  have hparts : ∀ part ∈ [Node.expr e, Node.expr r], part.Read :=
    List.forall_mem_cons.mpr ⟨he, List.forall_mem_singleton.mpr hr⟩
  have hstrict (hk : Scope.isStrict op.kind = true) : (Node.expr (.binary e op r)).Read :=
    .mk (Token.operator_of hop hk (by simp [Token.Kind.isOperator, hk])) hparts
  have hlogical (hk : isLogical op.kind = true) : (Node.expr (.logical e op r)).Read :=
    .mk (Token.operator_of hop hk (by simp [Token.Kind.isOperator, hk])) hparts
  cases l with
  | disjunction => exact hlogical (by simp_all [isLogical, isOperator])
  | conjunction => exact hlogical (by simp_all [isLogical, isOperator])
  | equality => exact hstrict (by simp_all [Scope.isStrict, isOperator])
  | comparison => exact hstrict (by simp_all [Scope.isStrict, isOperator])
  | term => exact hstrict (by simp_all [Scope.isStrict, isOperator])
  | factor => exact hstrict (by simp_all [Scope.isStrict, isOperator])
  | _ => cases ho

/-- An expression that is derived from the tokens of a text. -/
theorem Phrase.read {n : Nat} {l : Level} {ts : List Token} {e : Expr} (h : Phrase n l ts e) :
    (∀ t ∈ ts, t.word.Scanned) → (Node.expr e).Read := by
  -- By induction on the derivation, which splits the tokens among the parts.
  induction h with
  | literal _ => exact fun hts => .mk (Token.scanned_literal (hts _ (.head _))) nofun
  | this ht =>
    intro hts
    exact .mk (Token.use_of_kind (hts _ (.head _)) ht rfl) nofun
  | name ht =>
    intro hts
    exact .mk (Token.named_of (hts _ (.head _)) ht).reference nofun
  | super ht _ hm =>
    intro hts
    simp only [List.forall_mem_cons] at hts
    obtain ⟨hkeyword, -, hmethod, -⟩ := hts
    exact .mk ⟨Token.use_of_kind hkeyword ht rfl, Token.named_of hmethod hm⟩ nofun
  | grouping _ _ _ ih =>
    intro hts
    simp only [List.forall_mem_cons, List.forall_mem_append] at hts
    exact .mk trivial (List.forall_mem_singleton.mpr (ih hts.2.1))
  | @call _ _ _ _ _ _ arguments _ _ _ hs _ hr ih iharguments =>
    intro hts
    simp only [List.forall_mem_cons, List.forall_mem_append] at hts
    obtain ⟨hcallee, -, hlisted, hright, -⟩ := hts
    refine .mk (Token.unplaced_of_kind hright hr rfl) (List.forall_mem_cons.mpr ⟨ih hcallee, ?_⟩)
    rw [List.map_map, List.forall_mem_map]
    intro a ha
    exact iharguments a ha fun t ht => hlisted t (hs.mem a.1 (List.mem_map_of_mem ha) t ht)
  | get _ _ hn ih =>
    intro hts
    simp only [List.forall_mem_cons, List.forall_mem_append] at hts
    exact .mk (Token.named_of hts.2.2.1 hn) (List.forall_mem_singleton.mpr (ih hts.1))
  | unary ho _ ih =>
    intro hts
    rw [List.forall_mem_cons] at hts
    exact .mk (Token.operator_of hts.1 ho (by simp [Token.Kind.isOperator, ho]))
      (List.forall_mem_singleton.mpr (ih hts.2))
  | binary _ ho _ ih ihr =>
    intro hts
    simp only [List.forall_mem_cons, List.forall_mem_append] at hts
    exact Level.read_join hts.2.1 ho (ih hts.1) (ihr hts.2.2)
  | assign hn _ _ _ ih =>
    intro hts
    simp only [List.forall_mem_cons] at hts
    exact .mk (Token.named_of hts.1 hn).reference (List.forall_mem_singleton.mpr (ih hts.2.2))
  | set _ _ hn _ _ _ iho ihe =>
    intro hts
    simp only [List.forall_mem_cons, List.forall_mem_append] at hts
    obtain ⟨hobject, -, hname, -, hvalue⟩ := hts
    exact .mk (Token.named_of hname hn)
      (List.forall_mem_cons.mpr ⟨ihe hvalue, List.forall_mem_singleton.mpr (iho hobject)⟩)
  | tighter _ _ ih => exact ih

/-- What follows the word `var`, derived from the tokens of a text. -/
theorem Variable.read {n : Nat} {ts : List Token} {s : Stmt} (h : Variable n ts s)
    (hts : ∀ t ∈ ts, t.word.Scanned) : (Node.stmt s).Read := by
  cases h with
  | plain hn _ => exact .mk (Token.named_of (hts _ (.head _)) hn) nofun
  | initialized hn _ he _ =>
    simp only [List.forall_mem_cons, List.forall_mem_append] at hts
    exact .mk (Token.named_of hts.1 hn) (List.forall_mem_singleton.mpr (he.read hts.2.2.1))

theorem Initializer.read {n : Nat} {ts : List Token} {i : Option Stmt} (h : Initializer n ts i)
    (hts : ∀ t ∈ ts, t.word.Scanned) : ∀ s ∈ i, (Node.stmt s).Read := by
  rintro s hs
  cases h with
  | absent _ => cases hs
  | declared _ hv =>
    cases hs
    exact hv.read (List.forall_mem_cons.mp hts).2
  | expression he _ =>
    cases hs
    exact .mk trivial (List.forall_mem_singleton.mpr (he.read (List.forall_mem_append.mp hts).1))

theorem Optional.read {n : Nat} {ts : List Token} {value : Option Expr}
    (h : Optional (Phrase n .assignment) ts value) (hts : ∀ t ∈ ts, t.word.Scanned) :
    ∀ e ∈ value, (Node.expr e).Read := by
  rintro e he
  cases h with
  | absent => cases he
  | present h =>
    cases he
    exact h.read hts

/-- The tree of a `for` loop has no tokens of its own. -/
theorem read_forLoop {init : Option Stmt} {condition increment : Option Expr} {body : Stmt}
    (hi : ∀ s ∈ init, (Node.stmt s).Read) (hc : ∀ e ∈ condition, (Node.expr e).Read)
    (he : ∀ e ∈ increment, (Node.expr e).Read) (hb : (Node.stmt body).Read) :
    (Node.stmt (forLoop init condition increment body)).Read := by
  have hblock : ∀ {s t : Stmt}, (Node.stmt s).Read → (Node.stmt t).Read →
      (Node.stmt (.block [s, t])).Read := fun hs ht =>
    .mk trivial (List.forall_mem_cons.mpr ⟨hs, List.forall_mem_singleton.mpr ht⟩)
  have hbody : (Node.stmt (increment.elim body fun e => .block [body, .expression e])).Read := by
    cases increment with
    | none => exact hb
    | some e => exact hblock hb (.mk trivial (List.forall_mem_singleton.mpr (he e rfl)))
  have hcondition : (Node.expr (condition.getD (.literal (.bool true)))).Read := by
    cases condition with
    | none => exact .mk trivial nofun
    | some e => exact hc e rfl
  have hloop := Node.Everywhere.mk (P := Node.Scanned) (n := .stmt (.whileLoop _ _)) trivial
    (List.forall_mem_cons.mpr ⟨hcondition, List.forall_mem_singleton.mpr hbody⟩)
  cases init with
  | none => exact hloop
  | some i => exact hblock (hi i rfl) hloop

/-- A function of which the body is known. -/
theorem Routine.Spelled.read {r : Routine} (hr : r.Spelled) (hts : ∀ t ∈ r.tokens, t.word.Scanned)
    (hb : ∀ p ∈ r.body, (∀ t ∈ p.1, t.word.Scanned) → (Node.stmt p.2).Read) :
    (Node.stmt (.funDecl r.function)).Read := by
  simp only [Routine.tokens, List.forall_mem_cons, List.forall_mem_append,
    List.forall_mem_flatten, List.forall_mem_map] at hts
  obtain ⟨hname, -, hlisted, -, -, hbody, -⟩ := hts
  refine .mk ⟨Token.named_of hname hr.name, fun p hp => ?_⟩ ?_
  · refine Token.named_of (hlisted p ?_) (hr.params p hp)
    exact hr.listed.mem [p] (List.mem_map_of_mem hp) p (.head _)
  · change ∀ part ∈ (r.body.map Prod.snd).map Node.stmt, part.Read
    rw [List.forall_mem_map, List.forall_mem_map]
    exact fun p hp => hb p hp (hbody p hp)

/-- A statement that is derived from the tokens of a text. -/
theorem Sentence.read {nearest : Bool} {n : Nat} {k : Category} {inLoop : Bool} {ts : List Token}
    {s : Stmt} (h : Sentence nearest n k inLoop ts s) :
    (∀ t ∈ ts, t.word.Scanned) → (Node.stmt s).Read := by
  -- By induction on the derivation; what is asked of the tokens is split like the tokens are.
  induction h with
  | expression he _ =>
    intro hts
    rw [List.forall_mem_append] at hts
    exact .mk trivial (List.forall_mem_singleton.mpr (he.read hts.1))
  | print _ he _ =>
    intro hts
    simp only [List.forall_mem_cons, List.forall_mem_append] at hts
    exact .mk trivial (List.forall_mem_singleton.mpr (he.read hts.2.1))
  | returned hk he _ =>
    intro hts
    simp only [List.forall_mem_cons, List.forall_mem_append] at hts
    refine .mk (Token.unplaced_of_kind hts.1 hk rfl) (List.forall_mem_map.mpr fun e hvalue => ?_)
    exact he.read hts.2.1 e (Option.mem_toList.mp hvalue)
  | broken hk _ => exact fun hts => .mk (Token.unplaced_of_kind (hts _ (.head _)) hk rfl) nofun
  | block _ _ _ ih =>
    intro hts
    simp only [List.forall_mem_cons, List.forall_mem_append, List.forall_mem_flatten,
      List.forall_mem_map] at hts
    refine .mk trivial ?_
    change ∀ part ∈ (List.map Prod.snd _).map Node.stmt, part.Read
    rw [List.forall_mem_map, List.forall_mem_map]
    exact fun p hp => ih p hp (hts.2.1 p hp)
  | whileDo _ _ he _ _ ih =>
    intro hts
    simp only [List.forall_mem_cons, List.forall_mem_append] at hts
    obtain ⟨-, -, hcondition, -, hbody⟩ := hts
    exact .mk trivial (List.forall_mem_cons.mpr
      ⟨he.read hcondition, List.forall_mem_singleton.mpr (ih hbody)⟩)
  | forDo _ _ hi hc _ he _ _ ih =>
    intro hts
    simp only [List.forall_mem_cons, List.forall_mem_append] at hts
    obtain ⟨-, -, hinit, hcondition, -, hincrement, -, hbody⟩ := hts
    exact read_forLoop (hi.read hinit) (hc.read hcondition) (he.read hincrement) (ih hbody)
  | ifAlone _ _ he _ _ ih =>
    intro hts
    simp only [List.forall_mem_cons, List.forall_mem_append] at hts
    obtain ⟨-, -, hcondition, -, hbranch⟩ := hts
    exact .mk trivial (List.forall_mem_cons.mpr
      ⟨he.read hcondition, List.forall_mem_singleton.mpr (ih hbranch)⟩)
  | ifElse _ _ he _ _ _ _ _ ih ih' =>
    intro hts
    simp only [List.forall_mem_cons, List.forall_mem_append] at hts
    obtain ⟨-, -, hcondition, -, hbranch, -, hother⟩ := hts
    exact .mk trivial (List.forall_mem_cons.mpr ⟨he.read hcondition,
      List.forall_mem_cons.mpr ⟨ih hbranch, List.forall_mem_singleton.mpr (ih' hother)⟩⟩)
  | varDecl _ hv => exact fun hts => hv.read (List.forall_mem_cons.mp hts).2
  | funDecl _ hr _ ih => exact fun hts => hr.read (List.forall_mem_cons.mp hts).2 ih
  | @classDecl _ _ _ _ _ _ parent methods _ hn hp _ hm _ _ ih =>
    intro hts
    simp only [List.forall_mem_cons, List.forall_mem_append, List.forall_mem_flatten,
      List.forall_mem_map] at hts
    obtain ⟨-, hname, hparent, -, hmethods, -⟩ := hts
    refine .mk ⟨Token.named_of hname hn, fun r hr => ?_⟩ ?_
    · cases parent with
      | none => cases hr
      | some q =>
        cases hr
        exact (Token.named_of (hparent q.2 (.tail _ (.head _))) (hp q rfl).2).reference
    · change ∀ part ∈ (methods.map Routine.function).map fun m => Node.stmt (.funDecl m), part.Read
      rw [List.forall_mem_map, List.forall_mem_map]
      exact fun r hr => (hm r hr).read (hmethods r hr) (ih r hr)
  | statement _ ih => exact ih

/-- What is read from a text without a mistake has the tokens of a text. -/
theorem parse_read {source : String} {file : Option String} {before report : Report}
    {frames : Nat} {listing : Listing} {program : List Stmt}
    (h : parse frames (Token.scan source file before).1.toList listing report = (program, report)) :
    ∀ s ∈ program, (Node.stmt s).Read := by
  obtain ⟨ts, last, hts, hwords, hlast, hspelled⟩ := Token.scan_tokens source file before
  rw [hts] at h
  have hscanned : ∀ t ∈ ts, t.word.Scanned := fun t ht =>
    Token.words_scanned source.toList _ (hwords ▸ List.mem_map_of_mem ht)
  cases (parse_iff_reads listing (fun t ht => Token.isEnd_eq_false_of_spelled (hspelled t ht))
    hlast).mp h with
  | nothing _ => exact fun _ hs => nomatch hs
  | all _ _ hp =>
    obtain ⟨parts, rfl, rfl, hall⟩ := hp
    rw [List.forall_mem_flatten, List.forall_mem_map] at hscanned
    rw [List.forall_mem_map]
    exact fun p hp => (hall p hp).read (hscanned p hp)

end Tree

end Lox
