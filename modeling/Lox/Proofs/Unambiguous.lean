/-
The text of a statement is not ambiguous.

Parts of a statement that may be missing are told by the number of its parts.  A superclass and
parameters are told from methods and statements that follow them, as only they are words.

* `Stmt.ReadBack` — statements that are told by their text;
* `Node.Read.readBack` — trees that were read, with finite numbers, are told by their text;
* `Stmt.render_eq_iff_unplaced_eq` — two statements that were read, with finite numbers, have
  the same text if and only if they are the same but for places.
-/
import Lox.Proofs.Rendering

namespace Lox

open Token (ofKind ofName)

/-! ### Statements -/

namespace Form

theorem names_append {names : List String} {fs : List Form}
    (h : ∀ s, fs.head? ≠ some (.word s)) :
    Form.names (names.map word ++ fs) = names.map ofName := by
  induction names with
  | nil =>
    cases fs with
    | nil => rfl
    | cons f fs =>
      cases f with
      | word s => exact absurd rfl (h s)
      | quoted s => rfl
      | node head parts => rfl
  | cons name names ih => rw [List.map_cons, List.cons_append, Form.names, ih, List.map_cons]

/-- Words in front of statements are no statements. -/
theorem stmts_append (names : List String) (fs : List Form) :
    stmts (names.map word ++ fs) = (names.map fun _ => default) ++ stmts fs := by
  induction names with
  | nil => rfl
  | cons name names ih =>
    rw [List.map_cons, List.map_cons, List.cons_append, stmts, ih]
    rfl

end Form

theorem writes_names {names parts : List String} {fs : List Form}
    (hnames : ∀ s ∈ names, Token.IsName s) (h : List.Forall₂ Form.Writes fs parts) :
    List.Forall₂ Form.Writes (names.map .word ++ fs) (names ++ parts) := by
  refine List.rel_append ?_ h
  rw [List.forall₂_map_left_iff, List.forall₂_same]
  exact fun s hs => writes_name (hnames s hs)

/-- The form of a statement is written as the statement, and is the form of no other statement
but for places. -/
structure Stmt.ReadBack (s : Stmt) : Prop where
  writes : s.form.Writes s.render
  tree : s.form.stmt = s.unplaced
  present : s.isAbsent = false

theorem Function.form_ne_word (f : Function) (w : String) : f.form ≠ .word w := by
  obtain ⟨name, params, body⟩ := f
  rw [form]
  exact nofun

theorem Stmt.form_ne_word (s : Stmt) (w : String) : s.form ≠ .word w := by
  cases s with
  | varDecl name init => cases init <;> rw [form] <;> exact nofun
  | ifElse c t other => cases other <;> rw [form] <;> exact nofun
  | returnWith keyword value => cases value <;> rw [form] <;> exact nofun
  | funDecl f =>
    rw [form]
    exact f.form_ne_word w
  | _ =>
    rw [form]
    exact nofun

namespace Stmt

theorem ReadBack.part {s : Stmt} (h : s.ReadBack) : s.part = [s.render] := by
  rw [Stmt.part, h.present]
  rfl

theorem forms_readBack {body : List Stmt} (h : ∀ s ∈ body, s.ReadBack) :
    List.Forall₂ Form.Writes (forms body) (renderAll body) ∧
      Form.stmts (forms body) = unplacedAll body := by
  induction body with
  | nil =>
    rw [forms, renderAll, unplacedAll, Form.stmts]
    exact ⟨.nil, rfl⟩
  | cons s body ih =>
    rw [List.forall_mem_cons] at h
    obtain ⟨hwrites, htrees⟩ := ih h.2
    rw [forms, renderAll, unplacedAll, Form.stmts, h.1.tree, htrees]
    exact ⟨.cons h.1.writes hwrites, rfl⟩

theorem head?_forms_ne (body : List Stmt) (w : String) : (forms body).head? ≠ some (.word w) := by
  cases body with
  | nil => exact nofun
  | cons s body =>
    rw [forms]
    exact fun h => s.form_ne_word w (Option.some.inj h)

theorem methods_readBack {methods : List Function} (h : ∀ m ∈ methods, (funDecl m).ReadBack) :
    List.Forall₂ Form.Writes (Function.forms methods) (Function.renderAll methods) ∧
      Form.stmts (Function.forms methods) = (Function.unplacedAll methods).map funDecl := by
  induction methods with
  | nil =>
    rw [Function.forms, Function.renderAll, Function.unplacedAll, Form.stmts]
    exact ⟨.nil, rfl⟩
  | cons m methods ih =>
    rw [List.forall_mem_cons] at h
    obtain ⟨hwrites, htrees⟩ := ih h.2
    have hfirst := h.1.writes
    have htree := h.1.tree
    rw [form, render] at hfirst
    rw [form, unplaced] at htree
    rw [Function.forms, Function.renderAll, Function.unplacedAll, Form.stmts, htree, htrees]
    exact ⟨.cons hfirst hwrites, rfl⟩

theorem head?_methods_ne (methods : List Function) (w : String) :
    (Function.forms methods).head? ≠ some (.word w) := by
  cases methods with
  | nil => exact nofun
  | cons m methods =>
    rw [Function.forms]
    exact fun h => m.form_ne_word w (Option.some.inj h)

/-- A statement is read back from the parts of its form. -/
theorem ReadBack.of_node {s : Stmt} {head : String} {fs : List Form} {parts : List String}
    (hform : s.form = .node head fs) (hrender : s.render = inParens (head :: parts))
    (hh : Form.Bare head) (hwrites : List.Forall₂ Form.Writes fs parts)
    (htree : (Head.ofString head).stmt fs (Form.stmts fs) = s.unplaced)
    (hpresent : s.isAbsent = false) : s.ReadBack := by
  refine ⟨?_, ?_, hpresent⟩
  · rw [hform, hrender]
    exact Form.writes_node hh hwrites
  · rw [hform, Form.stmt, htree]

section

variable {e c : Expr} {s t : Stmt} {name keyword : Token} {body : List Stmt}

theorem readBack_expression (he : e.ReadBack) : (expression e).ReadBack := by
  refine .of_node (by rw [form]) ?_ (by decide) (.cons he.writes .nil) ?_ rfl
  · rw [render, he.part]
  · rw [unplaced, ← he.tree]
    rfl

theorem readBack_print (he : e.ReadBack) : (print e).ReadBack := by
  refine .of_node (by rw [form]) ?_ (by decide) (.cons he.writes .nil) ?_ rfl
  · rw [render, he.part]
  · rw [unplaced, ← he.tree]
    rfl

theorem readBack_varDecl {init : Option Expr} (hname : name.Named) (he : ∀ e ∈ init, e.ReadBack) :
    (varDecl name init).ReadBack := by
  cases init with
  | none =>
    refine .of_node (by rw [form]) ?_ (by decide) (.cons (writes_name hname.1) .nil) ?_ rfl
    · rw [render]
    · rw [unplaced, hname.2]
      rfl
  | some e =>
    have he := he e rfl
    refine .of_node (by rw [form]) ?_ (by decide)
      (.cons (writes_name hname.1) (.cons he.writes .nil)) ?_ rfl
    · rw [render, he.part]
    · rw [unplaced, hname.2, ← he.tree]
      rfl

theorem readBack_block (hbody : ∀ s ∈ body, s.ReadBack) : (block body).ReadBack := by
  obtain ⟨hwrites, htrees⟩ := forms_readBack hbody
  refine .of_node (by rw [form]) ?_ (by decide) hwrites ?_ rfl
  · rw [render]
  · rw [htrees, unplaced]
    rfl

theorem readBack_ifElse {other : Option Stmt} (hc : c.ReadBack) (ht : t.ReadBack)
    (hs : ∀ s ∈ other, s.ReadBack) : (ifElse c t other).ReadBack := by
  cases other with
  | none =>
    refine .of_node (by rw [form]) ?_ (by decide) (.cons hc.writes (.cons ht.writes .nil)) ?_ rfl
    · rw [render, hc.part, ht.part]
      rfl
    · rw [Form.stmts, Form.stmts, Form.stmts, unplaced, ← hc.tree, ht.tree]
      rfl
  | some s =>
    have hs := hs s rfl
    refine .of_node (by rw [form]) ?_ (by decide)
      (.cons hc.writes (.cons ht.writes (.cons hs.writes .nil))) ?_ rfl
    · rw [render, hc.part, ht.part, hs.part]
      rfl
    · rw [Form.stmts, Form.stmts, Form.stmts, Form.stmts, unplaced, ← hc.tree, ht.tree, hs.tree]
      rfl

theorem readBack_whileLoop (hc : c.ReadBack) (hs : s.ReadBack) : (whileLoop c s).ReadBack := by
  refine .of_node (by rw [form]) ?_ (by decide) (.cons hc.writes (.cons hs.writes .nil)) ?_ rfl
  · rw [render, hc.part, hs.part]
    rfl
  · rw [Form.stmts, Form.stmts, Form.stmts, unplaced, ← hc.tree, hs.tree]
    rfl

theorem readBack_breakLoop (h : keyword.unplaced = ofKind .breakKeyword) :
    (breakLoop keyword).ReadBack := by
  refine .of_node (by rw [form]) ?_ (by decide) .nil ?_ rfl
  · rw [render]
  · rw [unplaced, h]
    rfl

theorem readBack_returnWith {value : Option Expr} (h : keyword.unplaced = ofKind .returnKeyword)
    (he : ∀ e ∈ value, e.ReadBack) : (returnWith keyword value).ReadBack := by
  cases value with
  | none =>
    refine .of_node (by rw [form]) ?_ (by decide) .nil ?_ rfl
    · rw [render]
    · rw [unplaced, h]
      rfl
  | some e =>
    have he := he e rfl
    refine .of_node (by rw [form]) ?_ (by decide) (.cons he.writes .nil) ?_ rfl
    · rw [render, he.part]
    · rw [unplaced, h, ← he.tree]
      rfl

/-- Parameters end where the first statement begins. -/
theorem readBack_funDecl {params : List Token} (hname : name.Named)
    (hparams : ∀ p ∈ params, p.Named) (hbody : ∀ s ∈ body, s.ReadBack) :
    (funDecl (.mk name params body)).ReadBack := by
  obtain ⟨hwrites, htrees⟩ := forms_readBack hbody
  have hnames : ∀ s ∈ params.map (·.lexeme), Token.IsName s :=
    List.forall_mem_map.mpr fun p hp => (hparams p hp).1
  have hunplaced : (params.map (·.lexeme)).map ofName = params.map Token.unplaced := by
    rw [List.map_map]
    exact List.map_congr_left fun p hp => (hparams p hp).2.symm
  refine .of_node (by rw [form, Function.form]) ?_ (by decide)
    (.cons (writes_name hname.1) (writes_names hnames hwrites)) ?_ rfl
  · rw [render, Function.render]
  · rw [Form.stmts, Form.stmts_append, htrees]
    change funDecl (.mk (ofName name.lexeme) (Form.names _)
      (List.drop (Form.names _).length (_ ++ unplacedAll body))) = _
    rw [Form.names_append (head?_forms_ne body), List.drop_left' (by simp), unplaced,
      Function.unplaced, hname.2, hunplaced]

theorem filterMap_function? (names : List String) (methods : List Function) :
    ((names.map fun _ => default) ++ methods.map funDecl).filterMap function? = methods := by
  have hnone : (names.map fun _ => default).filterMap function? = [] := by
    rw [List.filterMap_map, List.filterMap_eq_nil_iff]
    exact fun _ _ => rfl
  rw [List.filterMap_append, hnone, List.filterMap_map]
  exact List.filterMap_some

/-- A superclass is told from the methods, as it is a name. -/
theorem readBack_classDecl {superclass : Option Reference} {methods : List Function}
    (hname : name.Named) (hsuper : ∀ r ∈ superclass, r.Named)
    (hmethods : ∀ m ∈ methods, (funDecl m).ReadBack) :
    (classDecl name superclass methods).ReadBack := by
  obtain ⟨hwrites, htrees⟩ := methods_readBack hmethods
  have hnames : ∀ s ∈ superclass.elim [] fun r => [r.name], Token.IsName s := by
    cases superclass with
    | none => exact List.forall_mem_nil _
    | some r => exact List.forall_mem_singleton.mpr (hsuper r rfl).1
  have hunplaced : ((superclass.elim [] fun r => [r.name]).map ofName).head?.map
      (fun t => Reference.mk t none) = superclass.map Reference.unplaced := by
    cases superclass with
    | none => rfl
    | some r => exact congrArg some (hsuper r rfl).2.symm
  refine .of_node (by rw [form]) ?_ (by decide)
    (.cons (writes_name hname.1) (writes_names hnames hwrites)) ?_ rfl
  · rw [render]
  · rw [Form.stmts, Form.stmts_append, htrees]
    change classDecl (ofName name.lexeme) ((Form.names _).head?.map _)
      (List.filterMap function? (_ ++ (Function.unplacedAll methods).map funDecl)) = _
    rw [Form.names_append (head?_methods_ne methods), hunplaced, filterMap_function?, unplaced,
      hname.2]

end

end Stmt

/-- A tree that is told by its text. -/
def Node.ReadBack : Node → Prop
  | expr e => e.ReadBack
  | stmt s => s.ReadBack

namespace Stmt

/-- A statement is told by its text if its parts are. -/
theorem readBack_of_parts {s : Stmt} (h : (Node.stmt s).Scanned)
    (hparts : ∀ part ∈ (Node.stmt s).parts, part.ReadBack) : s.ReadBack := by
  cases s with
  | expression e => exact readBack_expression (hparts _ (.head _))
  | print e => exact readBack_print (hparts _ (.head _))
  | varDecl name init =>
    exact readBack_varDecl h fun e he => hparts (.expr e) (List.mem_map_of_mem (by simpa using he))
  | block body => exact readBack_block fun s hs => hparts (.stmt s) (List.mem_map_of_mem hs)
  | ifElse c t other =>
    refine readBack_ifElse (hparts _ (.head _)) (hparts _ (.tail _ (.head _))) fun s hs => ?_
    exact hparts (.stmt s) (.tail _ (.tail _ (List.mem_map_of_mem (by simpa using hs))))
  | whileLoop c s => exact readBack_whileLoop (hparts _ (.head _)) (hparts _ (.tail _ (.head _)))
  | breakLoop keyword => exact readBack_breakLoop h
  | funDecl f =>
    obtain ⟨name, params, body⟩ := f
    exact readBack_funDecl h.1 h.2 fun s hs => hparts (.stmt s) (List.mem_map_of_mem hs)
  | returnWith keyword value =>
    exact readBack_returnWith h fun e he =>
      hparts (.expr e) (List.mem_map_of_mem (by simpa using he))
  | classDecl name superclass methods =>
    exact readBack_classDecl h.1 h.2 fun m hm =>
      hparts (.stmt (.funDecl m)) (List.mem_map_of_mem hm)
  | misplaced e => exact h.elim

end Stmt

/-- A tree that was read, with finite numbers, is told by its text. -/
theorem Node.Read.readBack {n : Node} (h : n.Read) (hfinite : n.Everywhere Finite) :
    n.ReadBack := by
  have hall := h.and hfinite
  clear h hfinite
  induction hall with
  | @mk n here _ ih =>
    cases n with
    | expr e =>
      refine Expr.readBack_of_parts here.1 here.2 fun part hpart => ?_
      exact ih (.expr part) (List.mem_map_of_mem hpart)
    | stmt s => exact Stmt.readBack_of_parts here.1 ih

/-! ### Statements with the same text -/

/-- A statement is somewhere in a program that was read from a text, and no mistake was found in
reading it. -/
def Stmt.IsRead (s : Stmt) : Prop :=
  ∃ source file before frames listing report program,
    Tree.parse frames (Token.scan source file before).1.toList listing report = (program, report) ∧
      ∃ t ∈ program, (Node.stmt t).Holds (.stmt s)

theorem Stmt.IsRead.readBack {s : Stmt} (h : s.IsRead)
    (hfinite : (Node.stmt s).Everywhere Node.Finite) : s.ReadBack := by
  obtain ⟨source, file, before, frames, listing, report, program, hparse, t, ht, hholds⟩ := h
  exact Node.Read.readBack ((Tree.parse_read hparse t ht).of_holds hholds) hfinite

/-- Statements that were read, with finite numbers, have the same text if and only if they are
the same but for places. -/
theorem Stmt.render_eq_iff_unplaced_eq {s s' : Stmt} (hs : s.IsRead) (hs' : s'.IsRead)
    (hfinite : (Node.stmt s).Everywhere Node.Finite)
    (hfinite' : (Node.stmt s').Everywhere Node.Finite) :
    s.render = s'.render ↔ s.unplaced = s'.unplaced := by
  have hback := hs.readBack hfinite
  have hback' := hs'.readBack hfinite'
  constructor
  · intro h
    have htext : s.form.text = s'.form.text := by rw [hback.writes.text, hback'.writes.text, h]
    have hform : s.form = s'.form := Form.text_inj hback.writes.valid hback'.writes.valid htext
    rw [← hback.tree, ← hback'.tree, hform]
  · intro h
    have hform : s.form = s'.form := by rw [← s.form_unplaced, ← s'.form_unplaced, h]
    rw [← String.toList_inj, ← hback.writes.text, ← hback'.writes.text, hform]

/-- What is read from a text by itself. -/
def readAlone (source : String) : List Stmt × Report :=
  Tree.parse 30 (Token.scan source none {}).1.toList default {}

/-- The number, the operator and the name of a program that prints a sum. -/
def printedSum? : List Stmt → Option (Binary64 × String × String)
  | [.print (.binary (.literal (.number x)) op (.var ref))] =>
    some (Binary64.ofFloat x, op.lexeme, ref.name)
  | _ => none

theorem exists_of_printedSum (source : String) {negative : Bool} {m : Nat} {q : Int}
    {op name : String} (hclean : (readAlone source).2.hasErrors = false)
    (h : printedSum? (readAlone source).1 = some (.finite negative m q, op, name)) :
    ∃ s, (readAlone source).1 = [s] ∧ s.IsRead ∧ (Node.stmt s).Everywhere Node.Finite ∧
      s.render = inParens ["print", inParens
        [op, String.ofList (Number.writeView .literal (.finite negative m q)), name]] := by
  -- The report only grows, and one without errors at the end is the one of the start.
  have hreport : ({} : Report) = (readAlone source).2 :=
    (Tree.parse_grows 30 _ default {}).eq_of_hasErrors hclean
  unfold printedSum? at h
  split at h
  case h_1 x operator ref hprogram =>
    obtain ⟨hx, hop, hname⟩ : Binary64.ofFloat x = .finite negative m q ∧
        operator.lexeme = op ∧ ref.name = name := by simpa using h
    refine ⟨_, hprogram, ?_, ?_, ?_⟩
    · refine ⟨source, none, {}, 30, default, {}, (readAlone source).1, ?_, _, ?_, .refl⟩
      · exact Prod.ext rfl hreport.symm
      · rw [hprogram]
        exact List.mem_singleton_self _
    · exact .mk trivial (List.forall_mem_singleton.mpr (.mk trivial (List.forall_mem_cons.mpr
        ⟨.mk ⟨negative, m, q, hx⟩ nofun, List.forall_mem_singleton.mpr (.mk trivial nofun)⟩)))
    · rw [inParens_three, Stmt.render, Expr.part, Expr.render, Expr.render, Expr.render,
        Literal.render, Number.write, hx, hop, hname]
      rfl
  case h_2 => cases h

/-- The same number with another digit, and a comment. -/
theorem Stmt.render_eq_iff_unplaced_eq_brokenLine :
    (readAlone "print 1.5 + x;").1.map Stmt.unplaced =
      (readAlone "print 1.50 // half\n  + x;").1.map Stmt.unplaced := by
  have hsum : ∀ source ∈ ["print 1.5 + x;", "print 1.50 // half\n  + x;"],
      (readAlone source).2.hasErrors = false ∧ printedSum? (readAlone source).1 =
        some (.finite false 6755399441055744 (-52), "+", "x") := by
    decide +kernel
  have hfirst := hsum _ (.head _)
  have hsecond := hsum _ (.tail _ (.head _))
  obtain ⟨s, hprogram, hs, hfinite, hrender⟩ := exists_of_printedSum _ hfirst.1 hfirst.2
  obtain ⟨s', hprogram', hs', hfinite', hrender'⟩ := exists_of_printedSum _ hsecond.1 hsecond.2
  rw [hprogram, hprogram', List.map_singleton, List.map_singleton,
    (Stmt.render_eq_iff_unplaced_eq hs hs' hfinite hfinite').mp (hrender.trans hrender'.symm)]

end Lox
