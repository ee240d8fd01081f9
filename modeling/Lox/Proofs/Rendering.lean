/-
The text of a tree as the text of a form.

The text of a tree that was read is the text of a form, and the form tells the tree up to the
places of its tokens.  Its words are names, numbers, or words of their own, and a number begins
like none of the others.  Its heads are operators, or words for the kinds of nodes; a minus sign
with one part is told from one with two.

* `Expr.form`, `Stmt.form` — trees as forms;
* `Expr.form_unplaced`, `Stmt.form_unplaced` — a form does not depend on places;
* `Form.expr`, `Form.stmt` — forms as trees;
* `Form.Writes` — a form is written as some text;
* `Expr.ReadBack`, `Expr.readBack_of_parts` — expressions that are told by their text, and
  whether one is when its parts are.
-/
import Lox.Proofs.Forms
import Lox.Proofs.Numerals
import Lox.Proofs.Unplaced
import Lox.Tree.Render

namespace Lox

open Token (ofKind ofName)

/-! ### Trees as forms -/

/-- A literal as a form. -/
def Literal.form : Literal → Form
  | nil => .word "nil"
  | bool b => .word (if b then "true" else "false")
  | number x => .word (Number.write .literal x)
  | text s => .quoted s

mutual

/-- An expression as a form; nodes without a meaning have an empty one. -/
@[simp]
def Expr.form : Expr → Form
  | .literal value => value.form
  | .grouping e => .node "group" [e.form]
  | .unary op e => .node op.lexeme [e.form]
  | .binary l op r | .logical l op r => .node op.lexeme [l.form, r.form]
  | .var ref => .word ref.name
  | .assign target value => .node "assign" [.word target.name, value.form]
  | .call callee _ arguments => .node "call" (callee.form :: Expr.forms arguments)
  | .get object name => .node "get" [object.form, .word name.lexeme]
  | .set object name value => .node "set" [object.form, .word name.lexeme, value.form]
  | .thisRef _ => .word "this"
  | .superRef _ method => .node "super" [.word method.lexeme]
  | .blank _ | .bare _ | .misplaced _ => .node "" []

/-- Several expressions as forms. -/
@[simp]
def Expr.forms : List Expr → List Form
  | [] => []
  | e :: es => e.form :: Expr.forms es

end

mutual

/-- A statement as a form. -/
@[simp]
def Stmt.form : Stmt → Form
  | .expression e => .node "expression" [e.form]
  | .print e => .node "print" [e.form]
  | .varDecl name none => .node "vardecl" [.word name.lexeme]
  | .varDecl name (some e) => .node "vardecl" [.word name.lexeme, e.form]
  | .block body => .node "block" (Stmt.forms body)
  | .ifElse c t none => .node "if" [c.form, t.form]
  | .ifElse c t (some e) => .node "if" [c.form, t.form, e.form]
  | .whileLoop c body => .node "while" [c.form, body.form]
  | .breakLoop _ => .node "break" []
  | .funDecl f => f.form
  | .returnWith _ none => .node "return" []
  | .returnWith _ (some e) => .node "return" [e.form]
  | .classDecl name superclass methods =>
    .node "classdef" (.word name.lexeme ::
      ((superclass.elim [] fun r => [r.name]).map .word ++ Function.forms methods))
  | .misplaced _ => .node "" []

/-- Several statements as forms. -/
@[simp]
def Stmt.forms : List Stmt → List Form
  | [] => []
  | s :: ss => s.form :: Stmt.forms ss

/-- A function as a form. -/
@[simp]
def Function.form : Function → Form
  | .mk name params body =>
    .node "functiondef" (.word name.lexeme ::
      ((params.map (·.lexeme)).map .word ++ Stmt.forms body))

/-- Several functions as forms. -/
@[simp]
def Function.forms : List Function → List Form
  | [] => []
  | f :: fs => f.form :: Function.forms fs

end

/-! ### Forms have no places -/

@[simp]
theorem Token.lexeme_unplaced (t : Token) : t.unplaced.lexeme = t.lexeme :=
  rfl

@[simp]
theorem Reference.name_unplaced (r : Reference) : r.unplaced.name = r.name :=
  rfl

mutual

/-- The form of an expression does not depend on places. -/
theorem Expr.form_unplaced : ∀ e : Expr, e.unplaced.form = e.form
  | .literal _ | .var _ | .thisRef _ | .superRef .. | .blank _ | .bare _ | .misplaced _ => by simp
  | .grouping e | .unary _ e | .assign _ e | .get e _ => by simp [e.form_unplaced]
  | .binary l _ r | .logical l _ r | .set l _ r => by simp [l.form_unplaced, r.form_unplaced]
  | .call f _ es => by simp [f.form_unplaced, Expr.forms_unplaced es]

theorem Expr.forms_unplaced : ∀ es : List Expr, Expr.forms (Expr.unplacedAll es) = Expr.forms es
  | [] => by simp
  | e :: es => by simp [e.form_unplaced, Expr.forms_unplaced es]

end

mutual

/-- The form of a statement does not depend on places. -/
theorem Stmt.form_unplaced : ∀ s : Stmt, s.unplaced.form = s.form
  | .breakLoop _ | .misplaced _ | .varDecl _ none | .returnWith _ none => by simp
  | .expression e | .print e | .varDecl _ (some e) | .returnWith _ (some e) => by
    simp [e.form_unplaced]
  | .block body => by simp [Stmt.forms_unplaced body]
  | .ifElse c t none => by simp [c.form_unplaced, t.form_unplaced]
  | .ifElse c t (some e) => by simp [c.form_unplaced, t.form_unplaced, e.form_unplaced]
  | .whileLoop c body => by simp [c.form_unplaced, body.form_unplaced]
  | .funDecl f => by simp [f.form_unplaced]
  | .classDecl _ superclass methods => by
    cases superclass <;> simp [Function.forms_unplaced methods]

theorem Stmt.forms_unplaced : ∀ body : List Stmt,
    Stmt.forms (Stmt.unplacedAll body) = Stmt.forms body
  | [] => by simp
  | s :: body => by simp [s.form_unplaced, Stmt.forms_unplaced body]

theorem Function.form_unplaced : ∀ f : Function, f.unplaced.form = f.form
  | .mk _ params body => by
    simp [Stmt.forms_unplaced body, Function.comp_def]

theorem Function.forms_unplaced : ∀ fs : List Function,
    Function.forms (Function.unplacedAll fs) = Function.forms fs
  | [] => by simp
  | f :: fs => by simp [f.form_unplaced, Function.forms_unplaced fs]

end

/-! ### Forms as trees -/

/-- What the head of a form says. -/
inductive Head where
  | group | assign | call | get | set | super
  | expression | print | varDecl | block | ifElse | whileLoop | breakLoop | function | returned
  | classDecl
  /-- An operator. -/
  | sign (k : Token.Kind)

namespace Head

/-- The heads that are words. -/
def words : List (String × Head) :=
  [("group", group), ("assign", assign), ("call", call), ("get", get), ("set", set),
   ("super", super), ("expression", expression), ("print", print), ("vardecl", varDecl),
   ("block", block), ("if", ifElse), ("while", whileLoop), ("break", breakLoop),
   ("functiondef", function), ("return", returned), ("classdef", classDecl)]

/-- What is written as a head. -/
def ofString (s : String) : Head :=
  (words.lookup s).getD (sign (.ofSpelling s))

/-- The tree of an operator of two operands. -/
def join : Token.Kind → Expr → Token → Expr → Expr
  | .andKeyword | .orKeyword => .logical
  | _ => .binary

end Head

/-- The expression that is written as a word.  What does not begin like a word is the number
that is written so. -/
noncomputable def Form.atom (s : String) : Expr :=
  match Token.Kind.ofWord s with
  | .nilKeyword => .literal .nil
  | .trueKeyword => .literal (.bool true)
  | .falseKeyword => .literal (.bool false)
  | .thisKeyword => .thisRef { token := ofKind .thisKeyword }
  | _ =>
    if s.toList.head?.any Token.isWordStart then .var { token := ofName s }
    else .literal (.number (Function.invFun (Number.write .literal) s))

/-- The names that some forms begin with. -/
def Form.names : List Form → List Token
  | .word s :: fs => ofName s :: names fs
  | _ => []

/-- The expression with a head and some parts, of which the expressions are known. -/
def Head.expr : Head → List Form → List Expr → Expr
  | .group, _, [e] => .grouping e
  | .assign, [.word name, _], [_, e] => .assign { token := ofName name } e
  | .call, _, f :: es => .call f (ofKind .rightParen) es
  | .get, [_, .word name], [o, _] => .get o (ofName name)
  | .set, [_, .word name, _], [o, _, e] => .set o (ofName name) e
  | .super, [.word name], _ => .superRef { token := ofKind .superKeyword } (ofName name)
  | .sign k, _, [e] => .unary (ofKind k) e
  | .sign k, _, [l, r] => join k l (ofKind k) r
  | _, _, _ => default

mutual

/-- The expression that is written as a form. -/
@[simp]
noncomputable def Form.expr : Form → Expr
  | .word s => atom s
  | .quoted s => .literal (.text s)
  | .node head parts => (Head.ofString head).expr parts (Form.exprs parts)

/-- The expressions that are written as forms. -/
@[simp]
noncomputable def Form.exprs : List Form → List Expr
  | [] => []
  | f :: fs => f.expr :: Form.exprs fs

end

/-- A declaration of a function as a method. -/
def Stmt.function? : Stmt → Option Function
  | .funDecl f => some f
  | _ => none

/-- The statement with a head and some parts, of which the statements are known. -/
noncomputable def Head.stmt : Head → List Form → List Stmt → Stmt
  | .expression, [e], _ => .expression e.expr
  | .print, [e], _ => .print e.expr
  | .varDecl, [.word name], _ => .varDecl (ofName name) none
  | .varDecl, [.word name, e], _ => .varDecl (ofName name) (some e.expr)
  | .block, _, body => .block body
  | .ifElse, [c, _], [_, t] => .ifElse c.expr t none
  | .ifElse, [c, _, _], [_, t, e] => .ifElse c.expr t (some e)
  | .whileLoop, [c, _], [_, s] => .whileLoop c.expr s
  | .breakLoop, _, _ => .breakLoop (ofKind .breakKeyword)
  -- The words in front of the body are among the parts, but are no statements.
  | .function, .word name :: parts, _ :: body =>
    .funDecl (.mk (ofName name) (Form.names parts) (body.drop (Form.names parts).length))
  | .returned, [], _ => .returnWith (ofKind .returnKeyword) none
  | .returned, [e], _ => .returnWith (ofKind .returnKeyword) (some e.expr)
  | .classDecl, .word name :: parts, methods =>
    .classDecl (ofName name) ((Form.names parts).head?.map fun t => { token := t })
      (methods.filterMap Stmt.function?)
  | _, _, _ => default

mutual

/-- The statement that is written as a form. -/
@[simp]
noncomputable def Form.stmt : Form → Stmt
  | .node head parts => (Head.ofString head).stmt parts (Form.stmts parts)
  | _ => default

/-- The statements that are written as forms. -/
@[simp]
noncomputable def Form.stmts : List Form → List Stmt
  | [] => []
  | f :: fs => f.stmt :: Form.stmts fs

end

/-! ### The text of a form -/

namespace Form

/-- A form is written as some text, and can be told from it. -/
structure Writes (f : Form) (s : String) : Prop where
  text : f.text = s.toList
  valid : f.Valid

theorem texts_eq (fs : List Form) :
    texts fs = (fs.map text).foldr (fun s rest => ' ' :: (s ++ rest)) [')'] := by
  induction fs with
  | nil => rfl
  | cons f fs ih => rw [texts, ih, List.map_cons, List.foldr_cons]

theorem toList_intercalate_append (parts : List String) : ∀ head : String,
    (" ".intercalate (head :: parts)).toList ++ [')'] = head.toList ++
      (parts.map String.toList).foldr (fun s rest => ' ' :: (s ++ rest)) [')'] := by
  induction parts with
  | nil =>
    intro head
    rw [String.intercalate_singleton]
    rfl
  | cons p parts ih =>
    intro head
    rw [String.intercalate_cons_cons, String.toList_append, String.toList_append, List.append_assoc,
      ih p, List.append_assoc]
    rfl

/-- A form is written in parentheses when its parts are written as their parts. -/
theorem writes_node {head : String} {fs : List Form} {parts : List String} (hh : Bare head)
    (h : List.Forall₂ Writes fs parts) : (node head fs).Writes (inParens (head :: parts)) := by
  have htexts : fs.map text = parts.map String.toList := by
    induction h with
    | nil => rfl
    | cons hf _ ih => rw [List.map_cons, List.map_cons, hf.text, ih]
  have hvalid : ∀ f ∈ fs, f.Valid := by
    induction h with
    | nil => exact List.forall_mem_nil _
    | cons hf _ ih => exact List.forall_mem_cons.mpr ⟨hf.valid, ih (List.cons.inj htexts).2⟩
  refine ⟨?_, .node hh hvalid⟩
  rw [inParens, String.toList_append, String.toList_append, List.append_assoc, text, texts_eq,
    htexts, ← toList_intercalate_append]
  rfl

end Form

theorem inParens_two (head a : String) : inParens [head, a] = "(" ++ head ++ " " ++ a ++ ")" := by
  apply String.toList_inj.mp
  simp [inParens, String.intercalate_cons_cons]

theorem inParens_three (head a b : String) :
    inParens [head, a, b] = "(" ++ head ++ " " ++ a ++ " " ++ b ++ ")" := by
  apply String.toList_inj.mp
  simp [inParens, String.intercalate_cons_cons]

/-! ### Words -/

theorem Form.isPlain_of {p : Char → Bool} (hp : [' ', '(', ')', '"'].all (!p ·) = true) {c : Char}
    (hc : p c = true) : isPlain c = true := by
  have hne : ∀ d ∈ [' ', '(', ')', '"'], c ≠ d := by
    rintro d hd rfl
    have hd := List.all_eq_true.mp hp c hd
    rw [hc] at hd
    cases hd
  simp only [List.forall_mem_cons, ← bne_iff_ne] at hne
  rw [isPlain, hne.1, hne.2.1, hne.2.2.1, hne.2.2.2.1]
  rfl

theorem bare_of_isName {s : String} (h : Token.IsName s) : Form.Bare s := by
  obtain ⟨⟨c, rest, hs, hc, hrest⟩, -⟩ := h
  have hparts : ∀ d ∈ s.toList, Token.isWordPart d = true := by
    rw [hs]
    refine List.forall_mem_cons.mpr ⟨?_, hrest⟩
    rw [Token.isWordPart, hc]
    rfl
  refine ⟨hs ▸ List.cons_ne_nil c rest, fun d hd => ?_⟩
  exact Form.isPlain_of (by decide) (hparts d hd)

theorem writes_name {s : String} (h : Token.IsName s) : (Form.word s).Writes s :=
  ⟨rfl, .word (bare_of_isName h)⟩

theorem atom_of_isName {s : String} (h : Token.IsName s) :
    Form.atom s = .var { token := ofName s } := by
  obtain ⟨⟨c, rest, hs, hc, -⟩, hkind⟩ := h
  have hstart : s.toList.head?.any Token.isWordStart = true := by
    rw [hs]
    exact hc
  unfold Form.atom
  rw [hkind]
  exact if_pos hstart

section Numbers

variable {x : Float} {negative : Bool} {m : Nat} {q : Int}

theorem write_literal_finite (hx : Binary64.ofFloat x = .finite negative m q) :
    (∃ c rest, (Number.write .literal x).toList = c :: rest ∧ (c.isDigit = true ∨ c = '-')) ∧
      ∀ c ∈ (Number.write .literal x).toList, Number.inNumeral c = true :=
  Number.write_finite (List.all_eq_true.mp rfl) hx

theorem bare_write (hx : Binary64.ofFloat x = .finite negative m q) :
    Form.Bare (Number.write .literal x) := by
  obtain ⟨⟨c, rest, hs, -⟩, hnumeral⟩ := write_literal_finite hx
  refine ⟨hs ▸ List.cons_ne_nil c rest, fun d hd => ?_⟩
  exact Form.isPlain_of (by decide) (hnumeral d hd)

theorem isWordStart_of_isDigit {c : Char} (h : c.isDigit = true) : Token.isWordStart c = false := by
  rw [Char.isDigit, Bool.and_eq_true, decide_eq_true_iff, decide_eq_true_iff, ge_iff_le,
    UInt32.le_iff_toNat_le, UInt32.le_iff_toNat_le] at h
  rw [← Bool.not_eq_true]
  intro hstart
  simp only [Token.isWordStart, Bool.or_eq_true, Bool.and_eq_true, decide_eq_true_iff, beq_iff_eq,
    Char.le_def, UInt32.le_iff_toNat_le] at hstart
  have hnine : '9'.val.toNat = 57 := rfl
  have hlow : 'a'.val.toNat = 97 := rfl
  have hhigh : 'A'.val.toNat = 65 := rfl
  rcases hstart with (hstart | hstart) | rfl
  · omega
  · omega
  · exact absurd h.2 (by decide)

/-- A number is not written like a word. -/
theorem atom_write (hx : Binary64.ofFloat x = .finite negative m q) :
    Form.atom (Number.write .literal x) = .literal (.number x) := by
  obtain ⟨⟨c, rest, hs, hc⟩, -⟩ := write_literal_finite hx
  have hstart : Token.isWordStart c = false := by
    rcases hc with hc | rfl
    · exact isWordStart_of_isDigit hc
    · rfl
  -- Reserved words begin with a letter, the text of a number with a digit or a sign.
  have hkind : Token.Kind.ofWord (Number.write .literal x) = .identifier := by
    have hreserved : ∀ p ∈ Token.Kind.reserved,
        p.1.toList.head?.all Token.isWordStart = true := by decide
    unfold Token.Kind.ofWord
    cases hlookup : Token.Kind.reserved.lookup (Number.write .literal x) with
    | none => rfl
    | some k =>
      obtain ⟨before, after, hsplit, -⟩ := List.lookup_eq_some_iff.mp hlookup
      have hword := hreserved (Number.write .literal x, k) (by rw [hsplit]; simp)
      rw [hs, List.head?_cons, Option.all_some, hstart] at hword
      cases hword
  have hhead : ¬(Number.write .literal x).toList.head?.any Token.isWordStart = true := by
    rw [hs]
    exact Bool.eq_false_iff.mp hstart
  unfold Form.atom
  rw [hkind]
  refine (if_neg hhead).trans ?_
  rw [Function.leftInverse_invFun (Number.write_injective Number.literal_legible) x]

end Numbers

/-! ### Expressions -/

/-- A node is no number, or a finite one. -/
def Node.Finite : Node → Prop
  | expr (.literal (.number x)) => ∃ negative m q, Binary64.ofFloat x = .finite negative m q
  | _ => True

/-- The form of an expression is written as the expression, and is the form of no other
expression but for places. -/
structure Expr.ReadBack (e : Expr) : Prop where
  writes : e.form.Writes e.render
  tree : e.form.expr = e.unplaced
  present : e.isAbsent = false

theorem Form.head_of_isOperator {k : Token.Kind} (hk : k.isOperator = true) :
    Bare k.spelling ∧ Head.ofString k.spelling = .sign k := by
  cases k <;> first | exact absurd hk (by decide) | exact ⟨by decide, rfl⟩

theorem Head.join_of_isStrict {k : Token.Kind} (hk : Scope.isStrict k = true) :
    join k = .binary := by
  cases k <;> first | exact absurd hk (by decide) | rfl

theorem Head.join_of_isLogical {k : Token.Kind} (hk : Tree.isLogical k = true) :
    join k = .logical := by
  cases k <;> first | exact absurd hk (by decide) | rfl

namespace Expr

theorem ReadBack.part {e : Expr} (h : e.ReadBack) : e.part = [e.render] := by
  rw [Expr.part, h.present]
  rfl

theorem forms_readBack {es : List Expr} (h : ∀ e ∈ es, e.ReadBack) :
    List.Forall₂ Form.Writes (forms es) (renderAll es) ∧
      Form.exprs (forms es) = unplacedAll es := by
  induction es with
  | nil =>
    rw [forms, renderAll, unplacedAll, Form.exprs]
    exact ⟨.nil, rfl⟩
  | cons e es ih =>
    rw [List.forall_mem_cons] at h
    obtain ⟨hwrites, htrees⟩ := ih h.2
    rw [forms, renderAll, unplacedAll, Form.exprs, h.1.tree, htrees]
    exact ⟨.cons h.1.writes hwrites, rfl⟩

/-- An expression is read back from the parts of its form. -/
theorem ReadBack.of_node {e : Expr} {head : String} {fs : List Form} {parts : List String}
    (hform : e.form = .node head fs) (hrender : e.render = inParens (head :: parts))
    (hh : Form.Bare head) (hwrites : List.Forall₂ Form.Writes fs parts)
    (htree : (Head.ofString head).expr fs (Form.exprs fs) = e.unplaced)
    (hpresent : e.isAbsent = false) : e.ReadBack := by
  refine ⟨?_, ?_, hpresent⟩
  · rw [hform, hrender]
    exact Form.writes_node hh hwrites
  · rw [hform, Form.expr, htree]

section

variable {e f l r o : Expr} {op name method paren : Token} {ref : Reference} {es : List Expr}

theorem readBack_literal {v : Literal} (h : (Node.expr (.literal v)).Scanned)
    (hf : (Node.expr (.literal v)).Finite) : (literal v).ReadBack := by
  have hform : v.form.Writes v.render ∧ v.form.expr = literal v := by
    cases v with
    | nil => exact ⟨⟨rfl, .word (by decide)⟩, rfl⟩
    | bool b => cases b <;> exact ⟨⟨rfl, .word (by decide)⟩, rfl⟩
    | number x =>
      obtain ⟨negative, m, q, hx⟩ := hf
      exact ⟨⟨rfl, .word (bare_write hx)⟩, atom_write hx⟩
    | text s =>
      refine ⟨⟨?_, .quoted h⟩, rfl⟩
      simp [Literal.form, Form.text, Literal.render]
  refine ⟨?_, ?_, rfl⟩
  · rw [form, render]
    exact hform.1
  · rw [form, unplaced, hform.2]

theorem readBack_var (h : ref.Named) : (var ref).ReadBack := by
  refine ⟨?_, ?_, rfl⟩
  · rw [form, render]
    exact writes_name h.1
  · rw [form, Form.expr, atom_of_isName h.1, unplaced, h.2]

theorem readBack_thisRef (h : ref.unplaced = { token := ofKind .thisKeyword }) :
    (thisRef ref).ReadBack := by
  refine ⟨?_, ?_, rfl⟩
  · rw [form, render]
    exact ⟨rfl, .word (by decide)⟩
  · rw [form, Form.expr, unplaced, h]
    rfl

theorem readBack_grouping (h : e.ReadBack) : (grouping e).ReadBack := by
  refine .of_node (by rw [form]) ?_ (by decide) (.cons h.writes .nil) ?_ rfl
  · rw [inParens_two, render]
    rfl
  · rw [Form.exprs, Form.exprs, h.tree, unplaced]
    rfl

/-- An operator is written as its kind is. -/
theorem head_of_operator {p : Token.Kind → Bool} (hop : op.Operator p)
    (hk : op.kind.isOperator = true) :
    Form.Bare op.lexeme ∧ Head.ofString op.lexeme = .sign op.kind := by
  have hlexeme : op.lexeme = op.kind.spelling := congrArg Token.lexeme hop.2
  rw [hlexeme]
  exact Form.head_of_isOperator hk

theorem readBack_unary (hop : op.Operator Tree.isUnary) (h : e.ReadBack) :
    (unary op e).ReadBack := by
  obtain ⟨hbare, hhead⟩ := head_of_operator hop (by simp [Token.Kind.isOperator, hop.1])
  refine .of_node (by rw [form]) ?_ hbare (.cons h.writes .nil) ?_ rfl
  · rw [inParens_two, render]
  · rw [hhead, Form.exprs, Form.exprs, h.tree, unplaced, hop.2]
    rfl

theorem readBack_binary (hop : op.Operator Scope.isStrict) (hl : l.ReadBack) (hr : r.ReadBack) :
    (binary l op r).ReadBack := by
  obtain ⟨hbare, hhead⟩ := head_of_operator hop (by simp [Token.Kind.isOperator, hop.1])
  refine .of_node (by rw [form]) ?_ hbare (.cons hl.writes (.cons hr.writes .nil)) ?_ rfl
  · rw [inParens_three, render]
  · rw [hhead, Form.exprs, Form.exprs, Form.exprs, hl.tree, hr.tree, unplaced, hop.2, Head.expr,
      Head.join_of_isStrict hop.1]

theorem readBack_logical (hop : op.Operator Tree.isLogical) (hl : l.ReadBack) (hr : r.ReadBack) :
    (logical l op r).ReadBack := by
  obtain ⟨hbare, hhead⟩ := head_of_operator hop (by simp [Token.Kind.isOperator, hop.1])
  refine .of_node (by rw [form]) ?_ hbare (.cons hl.writes (.cons hr.writes .nil)) ?_ rfl
  · rw [inParens_three, render]
  · rw [hhead, Form.exprs, Form.exprs, Form.exprs, hl.tree, hr.tree, unplaced, hop.2, Head.expr,
      Head.join_of_isLogical hop.1]

theorem readBack_assign (href : ref.Named) (h : e.ReadBack) : (assign ref e).ReadBack := by
  refine .of_node (by rw [form]) ?_ (by decide) (.cons (writes_name href.1) (.cons h.writes .nil))
    ?_ rfl
  · rw [render, h.part]
  · rw [Form.exprs, Form.exprs, Form.exprs, h.tree, unplaced, href.2]
    rfl

theorem readBack_call (hparen : paren.unplaced = ofKind .rightParen) (hf : f.ReadBack)
    (hes : ∀ e ∈ es, e.ReadBack) : (call f paren es).ReadBack := by
  obtain ⟨hwrites, htrees⟩ := forms_readBack hes
  refine .of_node (by rw [form]) ?_ (by decide) (.cons hf.writes hwrites) ?_ rfl
  · rw [render, hf.part]
    rfl
  · rw [Form.exprs, hf.tree, htrees, unplaced, hparen]
    rfl

theorem readBack_get (hname : name.Named) (ho : o.ReadBack) : (get o name).ReadBack := by
  refine .of_node (by rw [form]) ?_ (by decide) (.cons ho.writes (.cons (writes_name hname.1) .nil))
    ?_ rfl
  · rw [render, ho.part]
    rfl
  · rw [Form.exprs, Form.exprs, Form.exprs, ho.tree, unplaced, hname.2]
    rfl

theorem readBack_set (hname : name.Named) (ho : o.ReadBack) (he : e.ReadBack) :
    (set o name e).ReadBack := by
  refine .of_node (by rw [form]) ?_ (by decide)
    (.cons ho.writes (.cons (writes_name hname.1) (.cons he.writes .nil))) ?_ rfl
  · rw [render, ho.part, he.part]
    rfl
  · rw [Form.exprs, Form.exprs, Form.exprs, Form.exprs, ho.tree, he.tree, unplaced, hname.2]
    rfl

theorem readBack_superRef (href : ref.unplaced = { token := ofKind .superKeyword })
    (hmethod : method.Named) : (superRef ref method).ReadBack := by
  refine .of_node (by rw [form]) ?_ (by decide) (.cons (writes_name hmethod.1) .nil) ?_ rfl
  · rw [inParens_two, render]
    rfl
  · rw [unplaced, href, hmethod.2]
    rfl

end

/-- An expression is told by its text if its parts are. -/
theorem readBack_of_parts {e : Expr} (h : (Node.expr e).Scanned) (hf : (Node.expr e).Finite)
    (hparts : ∀ part ∈ e.parts, part.ReadBack) : e.ReadBack := by
  cases e with
  | literal v => exact readBack_literal h hf
  | grouping e => exact readBack_grouping (hparts e (.head _))
  | unary op e => exact readBack_unary h (hparts e (.head _))
  | binary l op r => exact readBack_binary h (hparts l (.head _)) (hparts r (.tail _ (.head _)))
  | logical l op r => exact readBack_logical h (hparts l (.head _)) (hparts r (.tail _ (.head _)))
  | var ref => exact readBack_var h
  | assign ref e => exact readBack_assign h (hparts e (.head _))
  | call f paren es =>
    obtain ⟨hf, hes⟩ := List.forall_mem_cons.mp hparts
    exact readBack_call h hf hes
  | get o name => exact readBack_get h (hparts o (.head _))
  | set o name e => exact readBack_set h (hparts o (.tail _ (.head _))) (hparts e (.head _))
  | thisRef ref => exact readBack_thisRef h
  | superRef ref method => exact readBack_superRef h.1 h.2
  | blank family => exact h.elim
  | bare v => exact h.elim
  | misplaced s => exact h.elim

end Expr

end Lox
