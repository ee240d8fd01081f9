/-
Local names in another spelling.

A local declaration may be given another name, if that name is not used around
it, together with the uses that refer to it.  One scope of a program is the one
whose declaration is renamed; a place inside it knows how many scopes out it
lies.  A use with that distance and the old name is spelled in the new way, and
all other tokens stay.

* `Renaming` — the old name and the new one;
* `Depth` — how far out the renamed scope lies;
* `ExprRenamed`, `StmtRenamed`, `FunctionRenamed` — a tree and the tree in which
  the name is changed; each block and each function outside may be the scope;
* `Bindings.rename` — bindings with the name changed;
* `StmtRenamed.refl` — outside, a tree may stay as it is.
-/
import Lox.Machine.Eval
import Lox.Proofs.Resolution

namespace Lox

open Scope

/-- A local name, and the one it is given instead. -/
structure Renaming where
  old : String
  new : String
  old_ordinary : Ordinary old
  new_ordinary : Ordinary new

/-- How many scopes out from a place the renamed scope lies; none for a place
outside of it. -/
abbrev Depth := Option Nat

namespace Depth

/-- The depth one scope further inside. -/
def inner (d : Depth) : Depth :=
  d.map (· + 1)

/-- The depth in a scope that is opened at a place: outside, any scope may be the
one that is renamed. -/
inductive Opens : Depth → Depth → Prop
  | inner {d : Depth} : Opens d d.inner
  | renamed : Opens none (some 0)

end Depth

namespace Renaming

variable (ρ : Renaming)

/-- A name, in the new spelling. -/
def apply (name : String) : String :=
  if name = ρ.old then ρ.new else name

/-- A token in the new spelling, at the same place. -/
def token (t : Token) : Token :=
  { t with lexeme := ρ.apply t.lexeme }

/-- The token of a variable that is declared `hops` scopes out; it changes if that
is the renamed scope. -/
def tokenAt (d : Depth) (hops : Option Nat) (t : Token) : Token :=
  if d.isSome ∧ hops = d then ρ.token t else t

/-- A use of a variable, in the new spelling if it refers to the renamed scope. -/
def reference (d : Depth) (ref : Reference) : Reference :=
  { ref with token := ρ.tokenAt d ref.hops ref.token }

/-- Inside the renamed scope the new name is not used otherwise. -/
def Fresh (d : Depth) (t : Token) : Prop :=
  d.isSome → t.lexeme ≠ ρ.new

/-- Inside the renamed scope a word is neither the old name nor the new one. -/
def Spares (d : Depth) (t : Token) : Prop :=
  d.isSome → t.lexeme ≠ ρ.old ∧ t.lexeme ≠ ρ.new

/-- A function or a class keeps its name: it is not what is renamed. -/
def Keeps (d : Depth) (t : Token) : Prop :=
  ρ.Fresh d t ∧ (d = some 0 → t.lexeme ≠ ρ.old)

end Renaming

/-! ### Trees -/

/-- An expression, and the one in which the name is changed. -/
inductive ExprRenamed (ρ : Renaming) (d : Depth) : Expr → Expr → Prop
  | literal {v : Literal} : ExprRenamed ρ d (.literal v) (.literal v)
  | grouping {e e' : Expr} (he : ExprRenamed ρ d e e') :
      ExprRenamed ρ d (.grouping e) (.grouping e')
  | unary {op : Token} {e e' : Expr} (he : ExprRenamed ρ d e e') :
      ExprRenamed ρ d (.unary op e) (.unary op e')
  | binary {op : Token} {l l' r r' : Expr} (hl : ExprRenamed ρ d l l')
      (hr : ExprRenamed ρ d r r') : ExprRenamed ρ d (.binary l op r) (.binary l' op r')
  | logical {op : Token} {l l' r r' : Expr} (hl : ExprRenamed ρ d l l')
      (hr : ExprRenamed ρ d r r') : ExprRenamed ρ d (.logical l op r) (.logical l' op r')
  | var {ref : Reference} (hf : ρ.Fresh d ref.token) :
      ExprRenamed ρ d (.var ref) (.var (ρ.reference d ref))
  | assign {ref : Reference} {e e' : Expr} (hf : ρ.Fresh d ref.token)
      (he : ExprRenamed ρ d e e') :
      ExprRenamed ρ d (.assign ref e) (.assign (ρ.reference d ref) e')
  | call {paren : Token} {f f' : Expr} {es es' : List Expr} (hf : ExprRenamed ρ d f f')
      (hes : List.Forall₂ (ExprRenamed ρ d) es es') :
      ExprRenamed ρ d (.call f paren es) (.call f' paren es')
  | get {name : Token} {o o' : Expr} (ho : ExprRenamed ρ d o o') :
      ExprRenamed ρ d (.get o name) (.get o' name)
  | set {name : Token} {o o' e e' : Expr} (ho : ExprRenamed ρ d o o')
      (he : ExprRenamed ρ d e e') : ExprRenamed ρ d (.set o name e) (.set o' name e')
  | this {ref : Reference} (hs : ρ.Spares d ref.token) :
      ExprRenamed ρ d (.thisRef ref) (.thisRef ref)
  | super {ref : Reference} {method : Token} (hs : ρ.Spares d ref.token) :
      ExprRenamed ρ d (.superRef ref method) (.superRef ref method)
  | blank {family : Blank} : ExprRenamed ρ d (.blank family) (.blank family)
  | bare {v : Literal} : ExprRenamed ρ d (.bare v) (.bare v)
  | misplaced {s : Stmt} : ExprRenamed ρ d (.misplaced s) (.misplaced s)

mutual

/-- A statement, and the one in which the name is changed. -/
inductive StmtRenamed (ρ : Renaming) : Depth → Stmt → Stmt → Prop
  | expression {d : Depth} {e e' : Expr} (he : ExprRenamed ρ d e e') :
      StmtRenamed ρ d (.expression e) (.expression e')
  | print {d : Depth} {e e' : Expr} (he : ExprRenamed ρ d e e') :
      StmtRenamed ρ d (.print e) (.print e')
  | varDecl {d : Depth} {name : Token} {init init' : Option Expr} (hf : ρ.Fresh d name)
      (hi : Option.Rel (ExprRenamed ρ d) init init') :
      StmtRenamed ρ d (.varDecl name init) (.varDecl (ρ.tokenAt d (some 0) name) init')
  | block {d inside : Depth} {body body' : List Stmt} (ho : d.Opens inside)
      (hb : BodyRenamed ρ inside body body') : StmtRenamed ρ d (.block body) (.block body')
  | ifAlone {d : Depth} {e e' : Expr} {s s' : Stmt} (he : ExprRenamed ρ d e e')
      (hs : StmtRenamed ρ d s s') : StmtRenamed ρ d (.ifElse e s none) (.ifElse e' s' none)
  | ifElse {d : Depth} {e e' : Expr} {s s' t t' : Stmt} (he : ExprRenamed ρ d e e')
      (hs : StmtRenamed ρ d s s') (ht : StmtRenamed ρ d t t') :
      StmtRenamed ρ d (.ifElse e s (some t)) (.ifElse e' s' (some t'))
  | whileLoop {d : Depth} {e e' : Expr} {s s' : Stmt} (he : ExprRenamed ρ d e e')
      (hs : StmtRenamed ρ d s s') : StmtRenamed ρ d (.whileLoop e s) (.whileLoop e' s')
  | breakLoop {d : Depth} {keyword : Token} :
      StmtRenamed ρ d (.breakLoop keyword) (.breakLoop keyword)
  | funDecl {d : Depth} {f f' : Function} (hk : ρ.Keeps d f.name)
      (hf : FunctionRenamed ρ d f f') : StmtRenamed ρ d (.funDecl f) (.funDecl f')
  | returned {d : Depth} {keyword : Token} {value value' : Option Expr}
      (hv : Option.Rel (ExprRenamed ρ d) value value') :
      StmtRenamed ρ d (.returnWith keyword value) (.returnWith keyword value')
  | classDecl {d : Depth} {name : Token} {ms ms' : List Function} (hk : ρ.Keeps d name)
      (hm : MethodsRenamed ρ d.inner ms ms') :
      StmtRenamed ρ d (.classDecl name none ms) (.classDecl name none ms')
  | subclass {d : Depth} {name : Token} {ref : Reference} {ms ms' : List Function}
      (hk : ρ.Keeps d name) (hf : ρ.Fresh d ref.token)
      (hm : MethodsRenamed ρ d.inner.inner ms ms') :
      StmtRenamed ρ d (.classDecl name (some ref) ms)
        (.classDecl name (some (ρ.reference d ref)) ms')
  | misplaced {d : Depth} {e : Expr} : StmtRenamed ρ d (.misplaced e) (.misplaced e)

/-- Statements, and those in which the name is changed. -/
inductive BodyRenamed (ρ : Renaming) : Depth → List Stmt → List Stmt → Prop
  | nil {d : Depth} : BodyRenamed ρ d [] []
  | cons {d : Depth} {s s' : Stmt} {body body' : List Stmt} (hs : StmtRenamed ρ d s s')
      (hb : BodyRenamed ρ d body body') : BodyRenamed ρ d (s :: body) (s' :: body')

/-- A function, and the one in which the name is changed; its parameters and its
body are in one scope. -/
inductive FunctionRenamed (ρ : Renaming) : Depth → Function → Function → Prop
  | mk {d inside : Depth} {name : Token} {params : List Token} {body body' : List Stmt}
      (ho : d.Opens inside) (hp : ∀ p ∈ params, ρ.Fresh inside p)
      (hb : BodyRenamed ρ inside body body') :
      FunctionRenamed ρ d (.mk name params body)
        (.mk name (params.map (ρ.tokenAt inside (some 0))) body')

/-- Methods, and those in which the name is changed. -/
inductive MethodsRenamed (ρ : Renaming) : Depth → List Function → List Function → Prop
  | nil {d : Depth} : MethodsRenamed ρ d [] []
  | cons {d : Depth} {f f' : Function} {ms ms' : List Function} (hf : FunctionRenamed ρ d f f')
      (hm : MethodsRenamed ρ d ms ms') : MethodsRenamed ρ d (f :: ms) (f' :: ms')

end

section Names

variable {ρ : Renaming}

/-! ### Tokens -/

namespace Renaming

@[simp] theorem tokenAt_none (hops : Option Nat) (t : Token) : ρ.tokenAt none hops t = t := by
  simp [tokenAt]

@[simp] theorem reference_none (ref : Reference) : ρ.reference none ref = ref := by
  simp [reference]

theorem apply_of_ne {name : String} (h : name ≠ ρ.old) : ρ.apply name = name :=
  if_neg h

/-- Other words are spelled apart from the new name. -/
theorem apply_inj {name other : String} (hn : name ≠ ρ.new) (ho : other ≠ ρ.new) :
    ρ.apply name = ρ.apply other ↔ name = other := by
  unfold apply
  by_cases h : name = ρ.old <;> by_cases h' : other = ρ.old <;> simp_all [eq_comm]

theorem tokenAt_some (d : Depth) (j : Nat) (t : Token) :
    ρ.tokenAt d (some j) t = if d = some j then ρ.token t else t := by
  unfold tokenAt
  by_cases h : d = some j
  · rw [if_pos h, if_pos ⟨by rw [h]; rfl, h.symm⟩]
  · rw [if_neg h, if_neg fun hd => h hd.2.symm]

theorem tokenAt_of_ne {d : Depth} {hops : Option Nat} {t : Token} (h : t.lexeme ≠ ρ.old) :
    ρ.tokenAt d hops t = t := by
  unfold tokenAt
  split
  · rw [Renaming.token, apply_of_ne h]
  · rfl

theorem tokenAt_span (d : Depth) (hops : Option Nat) (t : Token) :
    (ρ.tokenAt d hops t).span = t.span := by
  unfold tokenAt
  split <;> rfl

theorem Keeps.tokenAt {d : Depth} {t : Token} (h : ρ.Keeps d t) :
    ρ.tokenAt d (some 0) t = t := by
  unfold Renaming.tokenAt
  split
  · rename_i hd
    rw [Renaming.token, apply_of_ne (h.2 hd.2.symm)]
  · rfl

theorem Spares.fresh {d : Depth} {t : Token} (h : ρ.Spares d t) : ρ.Fresh d t :=
  fun hd => (h hd).2

theorem Spares.reference {d : Depth} {ref : Reference} (h : ρ.Spares d ref.token) :
    ρ.reference d ref = ref := by
  obtain ⟨t, hops⟩ := ref
  unfold Renaming.reference Renaming.tokenAt
  split
  · rename_i hd
    rw [Renaming.token, apply_of_ne (h hd.1).1]
  · rfl

/-- A class is named apart from a superclass, also under its other name. -/
theorem Fresh.apart {d : Depth} {t : Token} {ref : Reference} (h : ρ.Fresh d t)
    (hne : ref.name ≠ t.lexeme) : (ρ.reference d ref).name ≠ t.lexeme := by
  change (ρ.tokenAt d ref.hops ref.token).lexeme ≠ t.lexeme
  unfold Renaming.tokenAt
  split
  · rename_i hd
    unfold Renaming.token Renaming.apply
    split
    · exact (h hd.1).symm
    · exact hne
  · exact hne

end Renaming

/-! ### Functions -/

theorem FunctionRenamed.name {d : Depth} {f f' : Function} (h : FunctionRenamed ρ d f f') :
    f'.name = f.name := by
  cases h with
  | mk => rfl

theorem FunctionRenamed.arity {d : Depth} {f f' : Function} (h : FunctionRenamed ρ d f f') :
    f'.params.length = f.params.length := by
  cases h with
  | mk => exact List.length_map _

theorem FunctionRenamed.isInit {d : Depth} {f f' : Function} (h : FunctionRenamed ρ d f f') :
    f'.isInit = f.isInit := by
  rw [Function.isInit, Function.isInit, h.name]

theorem StmtRenamed.branches {d : Depth} {e : Expr} {s : Stmt} {t : Option Stmt} {r : Stmt}
    (h : StmtRenamed ρ d (.ifElse e s t) r) : ∃ e' s' t', r = .ifElse e' s' t' ∧
      ExprRenamed ρ d e e' ∧ StmtRenamed ρ d s s' ∧ Option.Rel (StmtRenamed ρ d) t t' := by
  cases h with
  | ifAlone he hs => exact ⟨_, _, none, rfl, he, hs, .none⟩
  | ifElse he hs ht => exact ⟨_, _, some _, rfl, he, hs, .some ht⟩

theorem BodyRenamed.forall₂ {d : Depth} {body body' : List Stmt} (h : BodyRenamed ρ d body body') :
    List.Forall₂ (StmtRenamed ρ d) body body' := by
  induction body generalizing body' with
  | nil =>
    cases h
    exact .nil
  | cons s body ih =>
    obtain _ | ⟨hs, hb⟩ := h
    exact .cons hs (ih hb)

theorem MethodsRenamed.forall₂ {d : Depth} {ms ms' : List Function}
    (h : MethodsRenamed ρ d ms ms') : List.Forall₂ (FunctionRenamed ρ d) ms ms' := by
  induction ms generalizing ms' with
  | nil =>
    cases h
    exact .nil
  | cons f ms ih =>
    obtain _ | ⟨hf, hm⟩ := h
    exact .cons hf (ih hm)

end Names

/-! ### Bindings -/

namespace Bindings

variable {α : Type} {ρ : Renaming}

/-- The same bindings, with the name changed. -/
def rename (ρ : Renaming) (b : Bindings α) : Bindings α :=
  ⟨b.entries.map fun (key, value) => (ρ.apply key, value)⟩

/-- A name has the value it had before under its old spelling. -/
theorem get?_rename {b : Bindings α} {name : String} (hb : b.get? ρ.new = none)
    (hn : name ≠ ρ.new) : (b.rename ρ).get? (ρ.apply name) = b.get? name := by
  obtain ⟨entries⟩ := b
  unfold get? rename at *
  induction entries with
  | nil => rfl
  | cons entry rest ih =>
    obtain ⟨key, value⟩ := entry
    simp only [find?, List.map_cons] at hb ⊢
    by_cases hk : key = ρ.new
    · simp [hk] at hb
    · rw [if_neg hk] at hb
      simp only [Renaming.apply_inj hk hn, ih hb]

/-- The old name itself is gone. -/
theorem get?_rename_old {b : Bindings α} (h : ρ.old ≠ ρ.new) :
    (b.rename ρ).get? ρ.old = none := by
  obtain ⟨entries⟩ := b
  unfold get? rename
  induction entries with
  | nil => rfl
  | cons entry rest ih =>
    obtain ⟨key, value⟩ := entry
    simp only [find?, List.map_cons]
    have hne : ρ.apply key ≠ ρ.old := by
      unfold Renaming.apply
      split
      · exact h.symm
      · assumption
    rw [if_neg hne]
    exact ih

/-- Binding a name and changing names may be done in either order. -/
theorem set_rename {b : Bindings α} {name : String} (value : α) (hb : b.get? ρ.new = none)
    (hn : name ≠ ρ.new) : (b.set name value).rename ρ = (b.rename ρ).set (ρ.apply name) value := by
  obtain ⟨entries⟩ := b
  unfold get? rename set at *
  refine congrArg mk ?_
  induction entries with
  | nil => rfl
  | cons entry rest ih =>
    obtain ⟨key, old⟩ := entry
    simp only [find?, insert, List.map_cons] at hb ⊢
    by_cases hk : key = ρ.new
    · simp [hk] at hb
    · rw [if_neg hk] at hb
      simp only [Renaming.apply_inj hk hn]
      by_cases hkn : key = name
      · simp [hkn]
      · simp [hkn, ih hb]

theorem get?_set_new {b : Bindings α} {name : String} (value : α) (hb : b.get? ρ.new = none)
    (hn : name ≠ ρ.new) : (b.set name value).get? ρ.new = none := by
  rw [get?_set, if_neg hn, hb]

end Bindings

/-! ### Parameters -/

section Parameters

variable {ρ : Renaming}

/-- Parameters in the new spelling are bound to the same arguments. -/
theorem bindParams_rename {params : List Token} (hp : ∀ p ∈ params, p.lexeme ≠ ρ.new)
    (arguments : List Value) : (bindParams params arguments).get? ρ.new = none ∧
      bindParams (params.map ρ.token) arguments = (bindParams params arguments).rename ρ := by
  -- What was bound before is carried through the list.
  have hfrom : ∀ {params : List Token}, (∀ p ∈ params, p.lexeme ≠ ρ.new) →
      ∀ (arguments : List Value) (b : Bindings Value), b.get? ρ.new = none →
      ((params.zip arguments).foldl (fun b e => b.set e.1.lexeme e.2) b).get? ρ.new = none ∧
        ((params.map ρ.token).zip arguments).foldl (fun b e => b.set e.1.lexeme e.2) (b.rename ρ) =
          ((params.zip arguments).foldl (fun b e => b.set e.1.lexeme e.2) b).rename ρ := by
    intro params
    induction params with
    | nil => exact fun _ _ _ hb => ⟨hb, rfl⟩
    | cons p params ih =>
      intro hp arguments b hb
      rw [List.forall_mem_cons] at hp
      cases arguments with
      | nil => exact ⟨hb, rfl⟩
      | cons v arguments =>
        have hset : (b.set p.lexeme v).rename ρ = (b.rename ρ).set (ρ.token p).lexeme v :=
          Bindings.set_rename v hb hp.1
        have hrest := ih hp.2 arguments (b.set p.lexeme v) (Bindings.get?_set_new v hb hp.1)
        rwa [hset] at hrest
  exact hfrom hp arguments .empty rfl

end Parameters

/-! ### Trees that stay -/

section Refl

variable {ρ : Renaming}

theorem Renaming.Fresh.outside (t : Token) : ρ.Fresh none t :=
  fun h => nomatch h

theorem Renaming.Keeps.outside (t : Token) : ρ.Keeps none t :=
  ⟨.outside t, fun h => nomatch h⟩

mutual

/-- Outside of the renamed scope an expression may stay as it is. -/
theorem ExprRenamed.refl (e : Expr) : ExprRenamed ρ none e e := by
  cases e with
  | literal v => exact .literal
  | grouping e => exact .grouping (ExprRenamed.refl e)
  | unary op e => exact .unary (ExprRenamed.refl e)
  | binary l op r => exact .binary (ExprRenamed.refl l) (ExprRenamed.refl r)
  | logical l op r => exact .logical (ExprRenamed.refl l) (ExprRenamed.refl r)
  | var ref =>
    have h : ExprRenamed ρ none (.var ref) (.var (ρ.reference none ref)) := .var (.outside _)
    rwa [Renaming.reference_none] at h
  | assign ref e =>
    have h : ExprRenamed ρ none (.assign ref e) (.assign (ρ.reference none ref) e) :=
      .assign (.outside _) (ExprRenamed.refl e)
    rwa [Renaming.reference_none] at h
  | call f paren es => exact .call (ExprRenamed.refl f) (exprs_refl es)
  | get o name => exact .get (ExprRenamed.refl o)
  | set o name e => exact .set (ExprRenamed.refl o) (ExprRenamed.refl e)
  | thisRef ref => exact .this fun h => nomatch h
  | superRef ref method => exact .super fun h => nomatch h
  | blank family => exact .blank
  | bare v => exact .bare
  | misplaced s => exact .misplaced

theorem exprs_refl (es : List Expr) : List.Forall₂ (ExprRenamed ρ none) es es := by
  cases es with
  | nil => exact .nil
  | cons e es => exact .cons (ExprRenamed.refl e) (exprs_refl es)

end

theorem optionExpr_refl (e : Option Expr) : Option.Rel (ExprRenamed ρ none) e e := by
  cases e with
  | none => exact .none
  | some e => exact .some (.refl e)

mutual

/-- Outside of the renamed scope a statement may stay as it is. -/
theorem StmtRenamed.refl (s : Stmt) : StmtRenamed ρ none s s := by
  cases s with
  | expression e => exact .expression (.refl e)
  | print e => exact .print (.refl e)
  | varDecl name init =>
    have h : StmtRenamed ρ none (.varDecl name init)
        (.varDecl (ρ.tokenAt none (some 0) name) init) :=
      .varDecl (.outside _) (optionExpr_refl init)
    -- With no scope to rename in, the token at a use is the token itself.
    rwa [Renaming.tokenAt_none] at h
  | block body => exact .block .inner (BodyRenamed.refl body)
  | ifElse e s t =>
    cases t with
    | none => exact .ifAlone (.refl e) (StmtRenamed.refl s)
    | some t => exact .ifElse (.refl e) (StmtRenamed.refl s) (StmtRenamed.refl t)
  | whileLoop e s => exact .whileLoop (.refl e) (StmtRenamed.refl s)
  | breakLoop keyword => exact .breakLoop
  | funDecl f => exact .funDecl (.outside _) (FunctionRenamed.refl f)
  | returnWith keyword value => exact .returned (optionExpr_refl value)
  | classDecl name superclass ms =>
    cases superclass with
    | none => exact .classDecl (.outside _) (MethodsRenamed.refl ms)
    | some ref =>
      have h : StmtRenamed ρ none (.classDecl name (some ref) ms)
          (.classDecl name (some (ρ.reference none ref)) ms) :=
        .subclass (.outside _) (.outside _) (MethodsRenamed.refl ms)
      rwa [Renaming.reference_none] at h
  | misplaced e => exact .misplaced

theorem BodyRenamed.refl (body : List Stmt) : BodyRenamed ρ none body body := by
  cases body with
  | nil => exact .nil
  | cons s body => exact .cons (StmtRenamed.refl s) (BodyRenamed.refl body)

theorem FunctionRenamed.refl (f : Function) : FunctionRenamed ρ none f f := by
  cases f with
  | mk name params body =>
    have h : FunctionRenamed ρ none (.mk name params body)
        (.mk name (params.map (ρ.tokenAt none (some 0))) body) :=
      .mk .inner (fun p _ => .outside p) (BodyRenamed.refl body)
    have hid : ρ.tokenAt none (some 0) = id := funext fun t => Renaming.tokenAt_none _ t
    rwa [hid, List.map_id] at h

theorem MethodsRenamed.refl (ms : List Function) : MethodsRenamed ρ none ms ms := by
  cases ms with
  | nil => exact .nil
  | cons f ms => exact .cons (FunctionRenamed.refl f) (MethodsRenamed.refl ms)

end

end Refl

end Lox
