/-
Trees of the same shape.

Two trees have the same shape when they differ in nothing but the places of
their tokens and the distances of their names.  What is known of the names is
given as `Rules`: whether a use may have a distance in some scopes, and whether
a name may be declared in them.  The scopes around a statement change as its
declarations are passed, so the shape of a statement tells the scopes before
and after it.

* `Rules`, `Rules.free` — what is known of names, and the rules that allow all;
* `ExprShape`, `StmtShape`, `BodyShape`, `FunctionShape` — trees of one shape;
* `Phrase.shape`, `Sentence.shape`, `Program.shape` — tokens with the same words
  are derived with the same shape, which holds no misplaced node, no operator
  without a meaning, and no declaration as a branch or the body of a loop.
-/
import Lox.Proofs.Grammar
import Lox.Proofs.Scanning
import Lox.Scope.Resolve
import Mathlib.Data.List.Forall2

namespace Lox

/-! ### Tokens -/

/-- Two tokens with the same word, which is spelled as it should be. -/
structure Token.Alike (t t' : Token) : Prop where
  word : t.word = t'.word
  spelled : t.word.Spelled

namespace Token.Alike

variable {t t' : Token}

theorem kind (h : t.Alike t') : t.kind = t'.kind :=
  congrArg Word.kind h.word

theorem lexeme (h : t.Alike t') : t.lexeme = t'.lexeme :=
  congrArg Word.lexeme h.word

theorem literal (h : t.Alike t') : t.literal = t'.literal :=
  congrArg Word.literal h.word

end Token.Alike

namespace Scope

/-! ### Scopes as declarations are passed -/

namespace Scopes

/-- A name is declared and made ready at once. -/
def add (scopes : Scopes) (name : String) : Scopes :=
  (scopes.declare name).define name

/-- The parameters of a function are declared in a scope of their own. -/
def enter (scopes : Scopes) (params : List Token) : Scopes :=
  params.foldl (fun s p => s.add p.lexeme) (Bindings.empty :: scopes)

/-- The scope of `this`. -/
def ofMethods (scopes : Scopes) : Scopes :=
  Names.of "this" :: scopes

/-- The scope of `super`. -/
def ofSubclass (scopes : Scopes) : Scopes :=
  Names.of "super" :: scopes

end Scopes

/-- What is known of the names of a tree. -/
structure Rules where
  /-- Whether a use of a name in some scopes may have a distance. -/
  uses : Scopes → UseKind → String → Option Nat → Prop
  /-- Whether a name may be declared in some scopes. -/
  declares : Scopes → String → Prop

/-- The rules that allow everything. -/
def Rules.free : Rules :=
  ⟨fun _ _ _ _ => True, fun _ _ => True⟩

/-- The names may be declared one after another. -/
def Rules.DeclaresAll (rules : Rules) : Scopes → List Token → Prop
  | _, [] => True
  | scopes, p :: params =>
    rules.declares scopes p.lexeme ∧ rules.DeclaresAll (scopes.add p.lexeme) params

theorem Rules.free_declaresAll (params : List Token) :
    ∀ scopes, Rules.free.DeclaresAll scopes params := by
  induction params with
  | nil => exact fun _ => trivial
  | cons p params ih => exact fun scopes => ⟨trivial, ih _⟩

/-! ### Trees -/

/-- The operators of two operands that are always evaluated. -/
def isStrict (k : Token.Kind) : Bool :=
  Tree.isEquality k || Tree.isComparison k || Tree.isTerm k || Tree.isFactor k

/-- Expressions of the same shape.  The tokens are related by `R`; the first tree
has no distances, and those of the second are as `uses` says. -/
inductive ExprShape (R : Token → Token → Prop) (uses : UseKind → String → Option Nat → Prop) :
    Expr → Expr → Prop
  | literal {v : Literal} : ExprShape R uses (.literal v) (.literal v)
  | grouping {e e' : Expr} (he : ExprShape R uses e e') :
      ExprShape R uses (.grouping e) (.grouping e')
  | unary {op op' : Token} {e e' : Expr} (hop : R op op') (hk : Tree.isUnary op.kind)
      (he : ExprShape R uses e e') : ExprShape R uses (.unary op e) (.unary op' e')
  | binary {op op' : Token} {l l' r r' : Expr} (hl : ExprShape R uses l l') (hop : R op op')
      (hk : isStrict op.kind) (hr : ExprShape R uses r r') :
      ExprShape R uses (.binary l op r) (.binary l' op' r')
  | logical {op op' : Token} {l l' r r' : Expr} (hl : ExprShape R uses l l') (hop : R op op')
      (hr : ExprShape R uses r r') :
      ExprShape R uses (.logical l op r) (.logical l' op' r')
  | var {t t' : Token} {hops : Option Nat} (ht : R t t') (hk : t.kind = .identifier)
      (hu : uses .variable_ t.lexeme hops) :
      ExprShape R uses (.var { token := t }) (.var { token := t', hops })
  | assign {t t' : Token} {hops : Option Nat} {e e' : Expr} (ht : R t t')
      (hk : t.kind = .identifier) (hu : uses .assignment t.lexeme hops)
      (he : ExprShape R uses e e') :
      ExprShape R uses (.assign { token := t } e) (.assign { token := t', hops } e')
  | call {paren paren' : Token} {f f' : Expr} {es es' : List Expr} (hf : ExprShape R uses f f')
      (hp : R paren paren') (hes : List.Forall₂ (ExprShape R uses) es es') :
      ExprShape R uses (.call f paren es) (.call f' paren' es')
  | get {name name' : Token} {o o' : Expr} (ho : ExprShape R uses o o') (hn : R name name') :
      ExprShape R uses (.get o name) (.get o' name')
  | set {name name' : Token} {o o' e e' : Expr} (ho : ExprShape R uses o o')
      (hn : R name name') (he : ExprShape R uses e e') :
      ExprShape R uses (.set o name e) (.set o' name' e')
  | this {t t' : Token} {hops : Option Nat} (ht : R t t') (hk : t.kind = .thisKeyword)
      (hu : uses .this_ t.lexeme hops) :
      ExprShape R uses (.thisRef { token := t }) (.thisRef { token := t', hops })
  | super {t t' method method' : Token} {hops : Option Nat} (ht : R t t')
      (hk : t.kind = .superKeyword) (hm : R method method')
      (hu : uses .super_ t.lexeme hops) :
      ExprShape R uses (.superRef { token := t } method) (.superRef { token := t', hops } method')

mutual

/-- Statements of the same shape, with the scopes before and after them. -/
inductive StmtShape (R : Token → Token → Prop) (rules : Rules) :
    Scopes → Stmt → Stmt → Scopes → Prop
  | expression {S : Scopes} {e e' : Expr} (he : ExprShape R (rules.uses S) e e') :
      StmtShape R rules S (.expression e) (.expression e') S
  | print {S : Scopes} {e e' : Expr} (he : ExprShape R (rules.uses S) e e') :
      StmtShape R rules S (.print e) (.print e') S
  | plain {S : Scopes} {name name' : Token} (hn : R name name')
      (hk : name.kind = .identifier) (hd : rules.declares S name.lexeme) :
      StmtShape R rules S (.varDecl name none) (.varDecl name' none) (S.add name.lexeme)
  | initialized {S : Scopes} {name name' : Token} {e e' : Expr} (hn : R name name')
      (hk : name.kind = .identifier) (hd : rules.declares S name.lexeme)
      (he : ExprShape R (rules.uses (S.declare name.lexeme)) e e') :
      StmtShape R rules S (.varDecl name (some e)) (.varDecl name' (some e'))
        (S.add name.lexeme)
  | block {S T : Scopes} {body body' : List Stmt}
      (hb : BodyShape R rules (Bindings.empty :: S) body body' T) :
      StmtShape R rules S (.block body) (.block body') S
  | ifAlone {S : Scopes} {e e' : Expr} {s s' : Stmt} (he : ExprShape R (rules.uses S) e e')
      (hs : StmtShape R rules S s s' S) :
      StmtShape R rules S (.ifElse e s none) (.ifElse e' s' none) S
  | ifElse {S : Scopes} {e e' : Expr} {s s' t t' : Stmt}
      (he : ExprShape R (rules.uses S) e e') (hs : StmtShape R rules S s s' S)
      (ht : StmtShape R rules S t t' S) :
      StmtShape R rules S (.ifElse e s (some t)) (.ifElse e' s' (some t')) S
  | whileLoop {S : Scopes} {e e' : Expr} {s s' : Stmt}
      (he : ExprShape R (rules.uses S) e e') (hs : StmtShape R rules S s s' S) :
      StmtShape R rules S (.whileLoop e s) (.whileLoop e' s') S
  | breakLoop {S : Scopes} {keyword keyword' : Token} (hk : R keyword keyword') :
      StmtShape R rules S (.breakLoop keyword) (.breakLoop keyword') S
  | funDecl {S : Scopes} {f f' : Function} (hd : rules.declares S f.name.lexeme)
      (hf : FunctionShape R rules (S.add f.name.lexeme) f f') :
      StmtShape R rules S (.funDecl f) (.funDecl f') (S.add f.name.lexeme)
  | returned {S : Scopes} {keyword keyword' : Token} (hk : R keyword keyword') :
      StmtShape R rules S (.returnWith keyword none) (.returnWith keyword' none) S
  | returnedWith {S : Scopes} {keyword keyword' : Token} {e e' : Expr}
      (hk : R keyword keyword') (he : ExprShape R (rules.uses S) e e') :
      StmtShape R rules S (.returnWith keyword (some e)) (.returnWith keyword' (some e')) S
  | classDecl {S : Scopes} {name name' : Token} {ms ms' : List Function} (hn : R name name')
      (hk : name.kind = .identifier) (hd : rules.declares S name.lexeme)
      (hm : MethodsShape R rules (S.add name.lexeme).ofMethods ms ms') :
      StmtShape R rules S (.classDecl name none ms) (.classDecl name' none ms')
        (S.add name.lexeme)
  | subclass {S : Scopes} {name name' t t' : Token} {hops : Option Nat}
      {ms ms' : List Function} (hn : R name name') (hk : name.kind = .identifier)
      (hd : rules.declares S name.lexeme) (ht : R t t') (hkt : t.kind = .identifier)
      (hu : rules.uses S .variable_ t.lexeme hops)
      (hm : MethodsShape R rules (S.add name.lexeme).ofSubclass.ofMethods ms ms') :
      StmtShape R rules S (.classDecl name (some { token := t }) ms)
        (.classDecl name' (some { token := t', hops }) ms') (S.add name.lexeme)

/-- Sequences of statements of the same shape. -/
inductive BodyShape (R : Token → Token → Prop) (rules : Rules) :
    Scopes → List Stmt → List Stmt → Scopes → Prop
  | nil {S : Scopes} : BodyShape R rules S [] [] S
  | cons {S T U : Scopes} {s s' : Stmt} {body body' : List Stmt}
      (hs : StmtShape R rules S s s' T) (hb : BodyShape R rules T body body' U) :
      BodyShape R rules S (s :: body) (s' :: body') U

/-- Functions of the same shape. -/
inductive FunctionShape (R : Token → Token → Prop) (rules : Rules) :
    Scopes → Function → Function → Prop
  | mk {S T : Scopes} {name name' : Token} {params params' : List Token}
      {body body' : List Stmt} (hn : R name name') (hk : name.kind = .identifier)
      (hp : List.Forall₂ R params params') (hkp : ∀ p ∈ params, p.kind = .identifier)
      (hd : rules.DeclaresAll (Bindings.empty :: S) params)
      (hb : BodyShape R rules (S.enter params) body body' T) :
      FunctionShape R rules S (.mk name params body) (.mk name' params' body')

/-- Lists of functions of the same shape. -/
inductive MethodsShape (R : Token → Token → Prop) (rules : Rules) :
    Scopes → List Function → List Function → Prop
  | nil {S : Scopes} : MethodsShape R rules S [] []
  | cons {S : Scopes} {f f' : Function} {ms ms' : List Function}
      (hf : FunctionShape R rules S f f') (hm : MethodsShape R rules S ms ms') :
      MethodsShape R rules S (f :: ms) (f' :: ms')

end

end Scope

namespace Tree

open Scope

/-! ### Lists of tokens, part by part -/

section Parts

variable {R : Token → Token → Prop}

theorem forall₂_append {us vs ts : List Token} (h : List.Forall₂ R (us ++ vs) ts) :
    ∃ us' vs', ts = us' ++ vs' ∧ List.Forall₂ R us us' ∧ List.Forall₂ R vs vs' := by
  induction us generalizing ts with
  | nil => exact ⟨[], ts, rfl, .nil, h⟩
  | cons u us ih =>
    cases h with
    | cons hu h =>
      obtain ⟨us', vs', rfl, hus, hvs⟩ := ih h
      exact ⟨_ :: us', vs', rfl, .cons hu hus, hvs⟩

theorem forall₂_flatten {tss : List (List Token)} {ts : List Token}
    (h : List.Forall₂ R tss.flatten ts) :
    ∃ tss', ts = tss'.flatten ∧ List.Forall₂ (List.Forall₂ R) tss tss' := by
  induction tss generalizing ts with
  | nil =>
    cases h
    exact ⟨[], rfl, .nil⟩
  | cons us tss ih =>
    obtain ⟨us', vs', rfl, hus, hvs⟩ := forall₂_append h
    obtain ⟨tss', rfl, htss⟩ := ih hvs
    exact ⟨us' :: tss', rfl, .cons hus htss⟩

theorem Separated.forall₂ (hR : ∀ {t t'}, R t t' → t.Alike t') {items : List (List Token)}
    {ts ts' : List Token} (hs : Separated items ts) (h : List.Forall₂ R ts ts') :
    ∃ items', Separated items' ts' ∧ List.Forall₂ (List.Forall₂ R) items items' := by
  induction hs generalizing ts' with
  | none =>
    cases h
    exact ⟨[], .none, .nil⟩
  | last => exact ⟨[ts'], .last, .cons h .nil⟩
  | more hc _ ih =>
    obtain ⟨us', _, rfl, hus, hrest⟩ := forall₂_append h
    cases hrest with
    | cons hcomma hrest =>
      obtain ⟨items', hs', hitems⟩ := ih hrest
      cases hitems with
      | cons hu hitems =>
        exact ⟨_, .more ((hR hcomma).kind ▸ hc) hs', .cons hus (.cons hu hitems)⟩

/-- Parts whose trees can be carried over one by one are carried over as a
whole. -/
theorem exists_parts_forall₂ {α : Type} {P : List Token → α → Prop} {Q : α → α → Prop} :
    ∀ {parts : List (List Token × α)} {tss : List (List Token)},
    List.Forall₂ (List.Forall₂ R) (parts.map Prod.fst) tss →
    (∀ p ∈ parts, ∀ {ts}, List.Forall₂ R p.1 ts → ∃ a, P ts a ∧ Q p.2 a) →
    ∃ parts' : List (List Token × α), parts'.map Prod.fst = tss ∧
      (∀ p ∈ parts', P p.1 p.2) ∧
      List.Forall₂ Q (parts.map Prod.snd) (parts'.map Prod.snd) := by
  intro parts
  induction parts with
  | nil =>
    intro tss h _
    cases h
    exact ⟨[], rfl, by simp, .nil⟩
  | cons p parts ih =>
    intro tss h hp
    cases h with
    | cons hts h =>
      obtain ⟨a, hP, hQ⟩ := hp p (by simp) hts
      obtain ⟨parts', rfl, hall, hQs⟩ := ih h fun q hq => hp q (by simp [hq])
      refine ⟨(_, a) :: parts', rfl, ?_, .cons hQ hQs⟩
      intro q hq
      rcases List.mem_cons.mp hq with rfl | hq
      · exact hP
      · exact hall q hq

end Parts

/-! ### Derivations of the same shape -/

section Shape

variable {R : Token → Token → Prop} (hR : ∀ {t t'}, R t t' → t.Alike t')

/-- The shape of expressions of which nothing is known but their derivations. -/
abbrev FreeShape (R : Token → Token → Prop) : Expr → Expr → Prop :=
  ExprShape R fun _ _ _ => True

theorem Level.join_shape {l : Level} {op op' : Token} {e e' r r' : Expr}
    (ho : l.isOperator op.kind) (hop : R op op') (he : FreeShape R e e')
    (hr : FreeShape R r r') : FreeShape R (l.join e op r) (l.join e' op' r') := by
  cases l with
  | disjunction => exact .logical he hop hr
  | conjunction => exact .logical he hop hr
  | equality => exact .binary he hop (by simp_all [isStrict, isOperator]) hr
  | comparison => exact .binary he hop (by simp_all [isStrict, isOperator]) hr
  | term => exact .binary he hop (by simp_all [isStrict, isOperator]) hr
  | factor => exact .binary he hop (by simp_all [isStrict, isOperator]) hr
  | _ => cases ho

include hR in
/-- Tokens with the same words are expressions of the same shape. -/
theorem Phrase.shape {n : Nat} {l : Level} {ts : List Token} {e : Expr}
    (h : Phrase n l ts e) : ∀ {ts' : List Token}, List.Forall₂ R ts ts' →
      ∃ e', Phrase n l ts' e' ∧ FreeShape R e e' := by
  -- Where a derivation splits its tokens, the tokens beside them are split.
  induction h with
  | literal ht =>
    rintro _ (_ | ⟨hr, ⟨⟩⟩)
    rw [(hR hr).kind] at ht
    rw [(hR hr).literal]
    exact ⟨_, .literal ht, .literal⟩
  | this ht =>
    rintro _ (_ | ⟨hr, ⟨⟩⟩)
    exact ⟨_, .this ((hR hr).kind ▸ ht), .this hr ht trivial⟩
  | name ht =>
    rintro _ (_ | ⟨hr, ⟨⟩⟩)
    exact ⟨_, .name ((hR hr).kind ▸ ht), .var hr ht trivial⟩
  | super ht hd hm =>
    rintro _ (_ | ⟨hr, _ | ⟨hrd, _ | ⟨hrm, ⟨⟩⟩⟩⟩)
    exact ⟨_, .super ((hR hr).kind ▸ ht) ((hR hrd).kind ▸ hd) ((hR hrm).kind ▸ hm),
      .super hr ht hrm trivial⟩
  | grouping hl _ hr ih =>
    rintro _ (_ | ⟨hrl, h⟩)
    obtain ⟨us', _, rfl, hus, hrest⟩ := forall₂_append h
    obtain ⟨e', he', hshape⟩ := ih hus
    rcases hrest with _ | ⟨hrr, ⟨⟩⟩
    exact ⟨_, .grouping ((hR hrl).kind ▸ hl) he' ((hR hrr).kind ▸ hr), .grouping hshape⟩
  | call _ hl _ hs hm hr ih iha =>
    intro ts' h
    obtain ⟨us', _, rfl, hus, hrest⟩ := forall₂_append h
    obtain ⟨e', he', hshape⟩ := ih hus
    rcases hrest with _ | ⟨hrl, hargs⟩
    obtain ⟨vs', _, rfl, hvs, hlast⟩ := forall₂_append hargs
    rcases hlast with _ | ⟨hrr, ⟨⟩⟩
    obtain ⟨items, hsep, hitems⟩ := hs.forall₂ hR hvs
    obtain ⟨arguments, rfl, hall, hshapes⟩ :=
      exists_parts_forall₂ hitems fun a ha ts hts => iha a ha hts
    have hlen : arguments.length ≤ maxArguments := by
      have := hshapes.length_eq
      simp only [List.length_map] at this
      omega
    exact ⟨_, .call he' ((hR hrl).kind ▸ hl) hall hsep hlen ((hR hrr).kind ▸ hr),
      .call hshape hrr hshapes⟩
  | get _ hd hn ih =>
    intro ts' h
    obtain ⟨us', _, rfl, hus, hrest⟩ := forall₂_append h
    obtain ⟨e', he', hshape⟩ := ih hus
    rcases hrest with _ | ⟨hrd, _ | ⟨hrn, ⟨⟩⟩⟩
    exact ⟨_, .get he' ((hR hrd).kind ▸ hd) ((hR hrn).kind ▸ hn), .get hshape hrn⟩
  | unary ho _ ih =>
    rintro _ (_ | ⟨hr, h⟩)
    obtain ⟨e', he', hshape⟩ := ih h
    exact ⟨_, .unary ((hR hr).kind ▸ ho) he', .unary hr ho hshape⟩
  | binary _ ho _ ih ihr =>
    intro ts' h
    obtain ⟨us', _, rfl, hus, hrest⟩ := forall₂_append h
    obtain ⟨e', he', hshape⟩ := ih hus
    rcases hrest with _ | ⟨hr, hright⟩
    obtain ⟨r', hr', hshape'⟩ := ihr hright
    exact ⟨_, .binary he' ((hR hr).kind ▸ ho) hr', Level.join_shape ho hr hshape hshape'⟩
  | assign hn hq _ hlt ih =>
    rintro _ (_ | ⟨hrn, _ | ⟨hrq, h⟩⟩)
    obtain ⟨e', he', hshape⟩ := ih h
    exact ⟨_, .assign ((hR hrn).kind ▸ hn) ((hR hrq).kind ▸ hq) he' hlt,
      .assign hrn hn trivial hshape⟩
  | set _ hd hn hq _ hm iho ih =>
    intro ts' h
    obtain ⟨us', _, rfl, hus, hrest⟩ := forall₂_append h
    obtain ⟨o', ho', hshape⟩ := iho hus
    rcases hrest with _ | ⟨hrd, _ | ⟨hrn, _ | ⟨hrq, hvalue⟩⟩⟩
    obtain ⟨e', he', hshape'⟩ := ih hvalue
    exact ⟨_, .set ho' ((hR hrd).kind ▸ hd) ((hR hrn).kind ▸ hn) ((hR hrq).kind ▸ hq) he' hm,
      .set hshape hrn hshape'⟩
  | tighter hl _ ih =>
    intro ts' h
    obtain ⟨e', he', hshape⟩ := ih h
    exact ⟨e', .tighter hl he', hshape⟩

/-- Statements of one shape in all scopes; a declaration changes them. -/
def Category.Fits (R : Token → Token → Prop) (k : Category) (s s' : Stmt) : Prop :=
  match k with
  | .statement _ => ∀ S, StmtShape R .free S s s' S
  | .declaration => ∀ S, ∃ T, StmtShape R .free S s s' T

theorem bodyShape_of_fits {body body' : List Stmt}
    (h : List.Forall₂ (Category.declaration.Fits R) body body') :
    ∀ S, ∃ T, BodyShape R .free S body body' T := by
  induction h with
  | nil => exact fun S => ⟨S, .nil⟩
  | cons hs _ ih =>
    intro S
    obtain ⟨T, hs⟩ := hs S
    obtain ⟨U, hb⟩ := ih T
    exact ⟨U, .cons hs hb⟩

/-- A part that may be missing is missing on both sides. -/
inductive OptionShape (R : Token → Token → Prop) : Option Expr → Option Expr → Prop
  | none : OptionShape R none none
  | some {e e' : Expr} (he : FreeShape R e e') : OptionShape R (some e) (some e')

include hR in
theorem Optional.shape {n : Nat} {ts ts' : List Token} {e : Option Expr}
    (h : Optional (Phrase n .assignment) ts e) (hts : List.Forall₂ R ts ts') :
    ∃ e', Optional (Phrase n .assignment) ts' e' ∧ OptionShape R e e' := by
  cases h with
  | absent =>
    cases hts
    exact ⟨none, .absent, .none⟩
  | present h =>
    obtain ⟨e', he', hshape⟩ := h.shape hR hts
    exact ⟨some e', .present he', .some hshape⟩

include hR in
theorem Variable.shape {n : Nat} {ts ts' : List Token} {s : Stmt} (h : Variable n ts s)
    (hts : List.Forall₂ R ts ts') :
    ∃ s', Variable n ts' s' ∧ Category.declaration.Fits R s s' := by
  cases h with
  | plain hn hs =>
    rcases hts with _ | ⟨hrn, _ | ⟨hrs, ⟨⟩⟩⟩
    exact ⟨_, .plain ((hR hrn).kind ▸ hn) ((hR hrs).kind ▸ hs), fun S => ⟨_, .plain hrn hn trivial⟩⟩
  | initialized hn hq he hs =>
    rcases hts with _ | ⟨hrn, _ | ⟨hrq, hrest⟩⟩
    obtain ⟨us', _, rfl, hus, hlast⟩ := forall₂_append hrest
    rcases hlast with _ | ⟨hrs, ⟨⟩⟩
    obtain ⟨e', he', hshape⟩ := he.shape hR hus
    exact ⟨_, .initialized ((hR hrn).kind ▸ hn) ((hR hrq).kind ▸ hq) he' ((hR hrs).kind ▸ hs),
      fun S => ⟨_, .initialized hrn hn trivial hshape⟩⟩

/-- The initializer of a loop, or none on both sides. -/
inductive InitShape (R : Token → Token → Prop) : Option Stmt → Option Stmt → Prop
  | none : InitShape R none none
  | some {s s' : Stmt} (hs : Category.declaration.Fits R s s') : InitShape R (some s) (some s')

include hR in
theorem Initializer.shape {n : Nat} {ts ts' : List Token} {s : Option Stmt}
    (h : Initializer n ts s) (hts : List.Forall₂ R ts ts') :
    ∃ s', Initializer n ts' s' ∧ InitShape R s s' := by
  cases h with
  | absent hs =>
    rcases hts with _ | ⟨hrs, ⟨⟩⟩
    exact ⟨_, .absent ((hR hrs).kind ▸ hs), .none⟩
  | declared hk hv =>
    rcases hts with _ | ⟨hrk, hrest⟩
    obtain ⟨s', hv', hfits⟩ := hv.shape hR hrest
    exact ⟨_, .declared ((hR hrk).kind ▸ hk) hv', .some hfits⟩
  | expression he hs =>
    obtain ⟨us', _, rfl, hus, hlast⟩ := forall₂_append hts
    rcases hlast with _ | ⟨hrs, ⟨⟩⟩
    obtain ⟨e', he', hshape⟩ := he.shape hR hus
    exact ⟨_, .expression he' ((hR hrs).kind ▸ hs), .some fun S => ⟨S, .expression hshape⟩⟩

/-- The loops that `for` loops stand for have the same shape. -/
theorem forLoop_shape {i i' : Option Stmt} {c c' e e' : Option Expr} {s s' : Stmt}
    (hi : InitShape R i i') (hc : OptionShape R c c') (he : OptionShape R e e')
    (hs : ∀ S, StmtShape R .free S s s' S) (S : Scopes) :
    StmtShape R .free S (forLoop i c e s) (forLoop i' c' e' s') S := by
  have hcondition : FreeShape R (c.getD (.literal (.bool true)))
      (c'.getD (.literal (.bool true))) := by
    cases hc with
    | none => exact .literal
    | some he => exact he
  have hbody : ∀ S, StmtShape R .free S (e.elim s fun e => .block [s, .expression e])
      (e'.elim s' fun e' => .block [s', .expression e']) S := by
    intro S
    cases he with
    | none => exact hs S
    | some he => exact .block (.cons (hs _) (.cons (.expression he) .nil))
  have hloop := fun S : Scopes => StmtShape.whileLoop hcondition (hbody S)
  cases hi with
  | none => exact hloop S
  | some hfits =>
    obtain ⟨T, hinit⟩ := hfits (Bindings.empty :: S)
    exact .block (.cons hinit (.cons (hloop T) .nil))

theorem forall₂_singletons {params : List Token} {items : List (List Token)}
    (h : List.Forall₂ (List.Forall₂ R) (params.map ([·])) items) :
    ∃ params', items = params'.map ([·]) ∧ List.Forall₂ R params params' := by
  induction params generalizing items with
  | nil =>
    cases h
    exact ⟨[], rfl, .nil⟩
  | cons p params ih =>
    rcases h with _ | ⟨_ | ⟨hp, ⟨⟩⟩, h⟩
    obtain ⟨params', rfl, hps⟩ := ih h
    exact ⟨_ :: params', rfl, .cons hp hps⟩

include hR in
theorem forall₂_kind {k : Token.Kind} {ts ts' : List Token} (h : List.Forall₂ R ts ts')
    (hk : ∀ t ∈ ts, t.kind = k) : ∀ t ∈ ts', t.kind = k := by
  induction h with
  | nil => simp
  | cons hr _ ih =>
    rw [List.forall_mem_cons] at hk ⊢
    exact ⟨(hR hr).kind ▸ hk.1, ih hk.2⟩

/-- A function with the same words as another. -/
def Routine.Like (R : Token → Token → Prop) (nearest : Bool) (n : Nat) (r : Routine)
    (ts : List Token) (r' : Routine) : Prop :=
  r'.Spelled ∧ r'.tokens = ts ∧
    (∀ p ∈ r'.body, Sentence nearest n .declaration false p.1 p.2) ∧
    ∀ S, FunctionShape R .free S r.function r'.function

include hR in
theorem Routine.exists_like {nearest : Bool} {n : Nat} {r : Routine} (hr : r.Spelled)
    (hb : ∀ p ∈ r.body, ∀ {ts}, List.Forall₂ R p.1 ts →
      ∃ s, Sentence nearest n .declaration false ts s ∧ Category.declaration.Fits R p.2 s)
    {ts : List Token} (h : List.Forall₂ R r.tokens ts) : ∃ r', r.Like R nearest n ts r' := by
  rcases h with _ | ⟨hname, _ | ⟨hleft, h⟩⟩
  obtain ⟨listed, _, rfl, hlisted, hrest⟩ := forall₂_append h
  rcases hrest with _ | ⟨hright, _ | ⟨hbrace, hrest⟩⟩
  obtain ⟨bs, _, rfl, hbody, hlast⟩ := forall₂_append hrest
  rcases hlast with _ | ⟨hclose, ⟨⟩⟩
  obtain ⟨items, hsep, hitems⟩ := hr.listed.forall₂ hR hlisted
  obtain ⟨params, rfl, hparams⟩ := forall₂_singletons hitems
  obtain ⟨tss, rfl, htss⟩ := forall₂_flatten hbody
  obtain ⟨body, rfl, hall, hfits⟩ := exists_parts_forall₂ htss hb
  have hfew : params.length ≤ maxArguments := hparams.length_eq ▸ hr.few
  refine ⟨⟨_, _, params, listed, _, _, body, _⟩,
    ⟨(hR hname).kind ▸ hr.name, (hR hleft).kind ▸ hr.leftParen, forall₂_kind hR hparams hr.params,
      hsep, hfew, (hR hright).kind ▸ hr.rightParen, (hR hbrace).kind ▸ hr.leftBrace,
      (hR hclose).kind ▸ hr.rightBrace⟩, rfl, hall, fun S => ?_⟩
  obtain ⟨T, hshape⟩ := bodyShape_of_fits hfits (S.enter r.params)
  exact .mk hname hr.name hparams hr.params (Rules.free_declaresAll _ _) hshape

theorem exists_methods_like {nearest : Bool} {n : Nat} {methods : List Routine}
    {tss : List (List Token)}
    (h : List.Forall₂ (List.Forall₂ R) (methods.map Routine.tokens) tss)
    (hm : ∀ r ∈ methods, ∀ {ts}, List.Forall₂ R r.tokens ts → ∃ r', r.Like R nearest n ts r') :
    ∃ methods' : List Routine, methods'.map Routine.tokens = tss ∧
      (∀ r ∈ methods', r.Spelled) ∧
      (∀ r ∈ methods', ∀ p ∈ r.body, Sentence nearest n .declaration false p.1 p.2) ∧
      ∀ S, MethodsShape R .free S (methods.map Routine.function)
        (methods'.map Routine.function) := by
  induction methods generalizing tss with
  | nil =>
    cases h
    exact ⟨[], rfl, by simp, by simp, fun S => .nil⟩
  | cons r methods ih =>
    rcases h with _ | ⟨hts, h⟩
    -- The tokens of each method are carried over on their own.
    obtain ⟨r', hspelled, rfl, hbody, hshape⟩ := hm r (by simp) hts
    obtain ⟨methods', rfl, hs, hb, hshapes⟩ := ih h fun q hq => hm q (by simp [hq])
    refine ⟨r' :: methods', rfl, ?_, ?_, fun S => .cons (hshape S) (hshapes S)⟩
    · simpa using ⟨hspelled, hs⟩
    · intro q hq
      rcases List.mem_cons.mp hq with rfl | hq
      · exact hbody
      · exact hb q hq

include hR in
/-- Tokens with the same words are statements of the same shape. -/
theorem Sentence.shape {nearest : Bool} {n : Nat} {k : Category} {inLoop : Bool}
    {ts : List Token} {s : Stmt} (h : Sentence nearest n k inLoop ts s) :
    ∀ {ts' : List Token}, List.Forall₂ R ts ts' →
      ∃ s', Sentence nearest n k inLoop ts' s' ∧ k.Fits R s s' := by
  -- As for expressions; what is declared may differ from scope to scope.
  induction h with
  | expression he hs =>
    intro ts' h
    obtain ⟨us', _, rfl, hus, hlast⟩ := forall₂_append h
    rcases hlast with _ | ⟨hrs, ⟨⟩⟩
    obtain ⟨e', he', hshape⟩ := he.shape hR hus
    exact ⟨_, .expression he' ((hR hrs).kind ▸ hs), fun S => .expression hshape⟩
  | print hk he hs =>
    rintro _ (_ | ⟨hrk, h⟩)
    obtain ⟨us', _, rfl, hus, hlast⟩ := forall₂_append h
    rcases hlast with _ | ⟨hrs, ⟨⟩⟩
    obtain ⟨e', he', hshape⟩ := he.shape hR hus
    exact ⟨_, .print ((hR hrk).kind ▸ hk) he' ((hR hrs).kind ▸ hs), fun S => .print hshape⟩
  | returned hk he hs =>
    rintro _ (_ | ⟨hrk, h⟩)
    obtain ⟨us', _, rfl, hus, hlast⟩ := forall₂_append h
    rcases hlast with _ | ⟨hrs, ⟨⟩⟩
    obtain ⟨e', he', hshape⟩ := he.shape hR hus
    refine ⟨_, .returned ((hR hrk).kind ▸ hk) he' ((hR hrs).kind ▸ hs), fun S => ?_⟩
    cases hshape with
    | none => exact .returned hrk
    | some hshape => exact .returnedWith hrk hshape
  | broken hk hs =>
    rintro _ (_ | ⟨hrk, _ | ⟨hrs, ⟨⟩⟩⟩)
    exact ⟨_, .broken ((hR hrk).kind ▸ hk) ((hR hrs).kind ▸ hs), fun S => .breakLoop hrk⟩
  | block hl _ hr ih =>
    rintro _ (_ | ⟨hrl, h⟩)
    obtain ⟨us', _, rfl, hus, hlast⟩ := forall₂_append h
    rcases hlast with _ | ⟨hrr, ⟨⟩⟩
    obtain ⟨tss, rfl, htss⟩ := forall₂_flatten hus
    obtain ⟨body, rfl, hall, hfits⟩ := exists_parts_forall₂ htss fun p hp ts hts => ih p hp hts
    refine ⟨_, .block ((hR hrl).kind ▸ hl) hall ((hR hrr).kind ▸ hr), fun S => ?_⟩
    obtain ⟨T, hshape⟩ := bodyShape_of_fits hfits (Bindings.empty :: S)
    exact .block hshape
  | whileDo hk hl he hr _ ih =>
    rintro _ (_ | ⟨hrk, _ | ⟨hrl, h⟩⟩)
    obtain ⟨us', _, rfl, hus, hrest⟩ := forall₂_append h
    rcases hrest with _ | ⟨hrr, hbody⟩
    obtain ⟨e', he', hshape⟩ := he.shape hR hus
    obtain ⟨s', hs', hfits⟩ := ih hbody
    exact ⟨_, .whileDo ((hR hrk).kind ▸ hk) ((hR hrl).kind ▸ hl) he' ((hR hrr).kind ▸ hr) hs',
      fun S => .whileLoop hshape (hfits S)⟩
  | forDo hk hl hi hc hm he hr _ ih =>
    rintro _ (_ | ⟨hrk, _ | ⟨hrl, h⟩⟩)
    obtain ⟨is', _, rfl, his, h₁⟩ := forall₂_append h
    obtain ⟨cs', _, rfl, hcs, h₂⟩ := forall₂_append h₁
    rcases h₂ with _ | ⟨hrm, h₃⟩
    obtain ⟨es', _, rfl, hes, h₄⟩ := forall₂_append h₃
    rcases h₄ with _ | ⟨hrr, hbody⟩
    obtain ⟨i', hi', hinit⟩ := hi.shape hR his
    obtain ⟨c', hc', hcondition⟩ := hc.shape hR hcs
    obtain ⟨e', he', hincrement⟩ := he.shape hR hes
    obtain ⟨s', hs', hfits⟩ := ih hbody
    exact ⟨_, .forDo ((hR hrk).kind ▸ hk) ((hR hrl).kind ▸ hl) hi' hc' ((hR hrm).kind ▸ hm) he'
      ((hR hrr).kind ▸ hr) hs', forLoop_shape hinit hcondition hincrement hfits⟩
  | ifAlone hk hl he hr _ ih =>
    rintro _ (_ | ⟨hrk, _ | ⟨hrl, h⟩⟩)
    obtain ⟨us', _, rfl, hus, hrest⟩ := forall₂_append h
    rcases hrest with _ | ⟨hrr, hbranch⟩
    obtain ⟨e', he', hshape⟩ := he.shape hR hus
    obtain ⟨s', hs', hfits⟩ := ih hbranch
    exact ⟨_, .ifAlone ((hR hrk).kind ▸ hk) ((hR hrl).kind ▸ hl) he' ((hR hrr).kind ▸ hr) hs',
      fun S => .ifAlone hshape (hfits S)⟩
  | ifElse hk hl he hr _ hn ho _ ih ih' =>
    rintro _ (_ | ⟨hrk, _ | ⟨hrl, h⟩⟩)
    obtain ⟨us', _, rfl, hus, hrest⟩ := forall₂_append h
    rcases hrest with _ | ⟨hrr, h₁⟩
    obtain ⟨vs', _, rfl, hvs, h₂⟩ := forall₂_append h₁
    rcases h₂ with _ | ⟨hro, hother⟩
    obtain ⟨e', he', hshape⟩ := he.shape hR hus
    obtain ⟨s', hs', hfits⟩ := ih hvs
    obtain ⟨t', ht', hfits'⟩ := ih' hother
    exact ⟨_, .ifElse ((hR hrk).kind ▸ hk) ((hR hrl).kind ▸ hl) he' ((hR hrr).kind ▸ hr) hs' hn
      ((hR hro).kind ▸ ho) ht', fun S => .ifElse hshape (hfits S) (hfits' S)⟩
  | varDecl hk hv =>
    rintro _ (_ | ⟨hrk, h⟩)
    obtain ⟨s', hv', hfits⟩ := hv.shape hR h
    exact ⟨s', .varDecl ((hR hrk).kind ▸ hk) hv', hfits⟩
  | funDecl hk hr _ ih =>
    rintro _ (_ | ⟨hrk, h⟩)
    obtain ⟨r', hr', rfl, hbody, hshape⟩ := Routine.exists_like hR hr ih h
    exact ⟨_, .funDecl ((hR hrk).kind ▸ hk) hr' hbody,
      fun S => ⟨_, .funDecl trivial (hshape _)⟩⟩
  | @classDecl n _ _ _ _ _ parent methods hk hn hp hl hm _ hr ih =>
    rintro _ (_ | ⟨hrk, _ | ⟨hrn, h⟩⟩)
    obtain ⟨ps', _, rfl, hps, hrest⟩ := forall₂_append h
    rcases hrest with _ | ⟨hrl, h₁⟩
    obtain ⟨us', _, rfl, hus, hlast⟩ := forall₂_append h₁
    rcases hlast with _ | ⟨hrr, ⟨⟩⟩
    obtain ⟨tss, rfl, htss⟩ := forall₂_flatten hus
    obtain ⟨methods', rfl, hm', hb', hshape⟩ := exists_methods_like (n := n) htss
      fun r hmem ts hts => Routine.exists_like hR (hm r hmem) (ih r hmem) hts
    cases parent with
    | none =>
      cases hps
      have hnone : Parent.Spelled none := fun q hq => nomatch hq
      exact ⟨_, .classDecl ((hR hrk).kind ▸ hk) ((hR hrn).kind ▸ hn) hnone ((hR hrl).kind ▸ hl) hm'
        hb' ((hR hrr).kind ▸ hr), fun S => ⟨_, .classDecl hrn hn trivial (hshape _)⟩⟩
    | some q =>
      obtain ⟨hless, hsuper⟩ := hp q rfl
      rcases hps with _ | ⟨hrless, _ | ⟨hrsuper, ⟨⟩⟩⟩
      rename_i less' super'
      have hsome : Parent.Spelled (some (less', super')) := by
        rintro _ ⟨⟩
        exact ⟨(hR hrless).kind ▸ hless, (hR hrsuper).kind ▸ hsuper⟩
      exact ⟨_, .classDecl ((hR hrk).kind ▸ hk) ((hR hrn).kind ▸ hn) hsome ((hR hrl).kind ▸ hl) hm'
        hb' ((hR hrr).kind ▸ hr),
        fun S => ⟨_, .subclass hrn hn trivial hrsuper hsuper trivial (hshape _)⟩⟩
  | statement _ ih =>
    intro ts' h
    obtain ⟨s', hs', hfits⟩ := ih h
    exact ⟨s', .statement hs', fun S => ⟨S, hfits S⟩⟩

include hR in
/-- Tokens with the same words are programs of the same shape. -/
theorem Program.shape {nearest : Bool} {n : Nat} {ts ts' : List Token} {program : List Stmt}
    (h : Program nearest n ts program) (hts : List.Forall₂ R ts ts') :
    ∃ program', Program nearest n ts' program' ∧
      List.Forall₂ (Category.declaration.Fits R) program program' := by
  obtain ⟨parts, rfl, rfl, hall⟩ := h
  obtain ⟨tss, rfl, htss⟩ := forall₂_flatten hts
  obtain ⟨parts', rfl, hall', hfits⟩ :=
    exists_parts_forall₂ htss fun p hp ts hts => (hall p hp).shape hR hts
  exact ⟨_, ⟨parts', rfl, rfl, hall'⟩, hfits⟩

end Shape

end Tree

end Lox
