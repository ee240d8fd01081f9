/-
Trees that were read from a text hold no misplaced node.

Trees can be put together by hand with nodes in places where they have no
meaning.  Reading never makes such a node, whatever is wrong with the text, and
resolution stops at nothing else but its frames.

* `ProperExpr`, `ProperStmt`, `ProperFunction` — trees without misplaced nodes;
* `ProperStmt.placed`, `PlacedStmt.proper` — these are the trees whose tokens may be
  anywhere;
* `parse_proper` — what is read is proper, also after a mistake;
* `Tame` — resolution of a proper tree adds errors to the report, and can only stop
  because the tree is too deep;
* `mapM_topLevel_ne_tooDeep` — and that ends at its own statement;
* `resolve_proper`, `resolve_grows` — so there is no misfit in what was read.
-/
import Lox.Proofs.Placing

namespace Lox

/-! ### Proper trees -/

/-- An expression without misplaced nodes. -/
inductive ProperExpr : Expr → Prop
  | literal {v : Literal} : ProperExpr (.literal v)
  | grouping {e : Expr} (he : ProperExpr e) : ProperExpr (.grouping e)
  | unary {op : Token} {e : Expr} (he : ProperExpr e) : ProperExpr (.unary op e)
  | binary {op : Token} {l r : Expr} (hl : ProperExpr l) (hr : ProperExpr r) :
      ProperExpr (.binary l op r)
  | logical {op : Token} {l r : Expr} (hl : ProperExpr l) (hr : ProperExpr r) :
      ProperExpr (.logical l op r)
  | var {ref : Reference} : ProperExpr (.var ref)
  | assign {ref : Reference} {e : Expr} (he : ProperExpr e) : ProperExpr (.assign ref e)
  | call {paren : Token} {f : Expr} {es : List Expr} (hf : ProperExpr f)
      (hes : ∀ e ∈ es, ProperExpr e) : ProperExpr (.call f paren es)
  | get {name : Token} {o : Expr} (ho : ProperExpr o) : ProperExpr (.get o name)
  | set {name : Token} {o e : Expr} (ho : ProperExpr o) (he : ProperExpr e) :
      ProperExpr (.set o name e)
  | this {ref : Reference} : ProperExpr (.thisRef ref)
  | super {ref : Reference} {method : Token} : ProperExpr (.superRef ref method)

mutual

/-- A statement without misplaced nodes. -/
inductive ProperStmt : Stmt → Prop
  | expression {e : Expr} (he : ProperExpr e) : ProperStmt (.expression e)
  | print {e : Expr} (he : ProperExpr e) : ProperStmt (.print e)
  | varDecl {name : Token} {init : Option Expr} (hi : ∀ e ∈ init, ProperExpr e) :
      ProperStmt (.varDecl name init)
  | block {body : List Stmt} (hb : ∀ s ∈ body, ProperStmt s) : ProperStmt (.block body)
  | ifElse {e : Expr} {s : Stmt} {other : Option Stmt} (he : ProperExpr e) (hs : ProperStmt s)
      (ho : ∀ t ∈ other, ProperStmt t) : ProperStmt (.ifElse e s other)
  | whileLoop {e : Expr} {s : Stmt} (he : ProperExpr e) (hs : ProperStmt s) :
      ProperStmt (.whileLoop e s)
  | breakLoop {keyword : Token} : ProperStmt (.breakLoop keyword)
  | funDecl {f : Function} (hf : ProperFunction f) : ProperStmt (.funDecl f)
  | returnWith {keyword : Token} {value : Option Expr} (hv : ∀ e ∈ value, ProperExpr e) :
      ProperStmt (.returnWith keyword value)
  | classDecl {name : Token} {superclass : Option Reference} {ms : List Function}
      (hm : ∀ f ∈ ms, ProperFunction f) : ProperStmt (.classDecl name superclass ms)

/-- A function without misplaced nodes. -/
inductive ProperFunction : Function → Prop
  | mk {name : Token} {params : List Token} {body : List Stmt}
      (hb : ∀ s ∈ body, ProperStmt s) : ProperFunction (.mk name params body)

end

/-! ### Proper trees and places -/

/-- Any stretch of a text is a place. -/
abbrev Anywhere (_ : Span) : Prop :=
  True

theorem ProperExpr.placed {e : Expr} (h : ProperExpr e) : PlacedExpr Anywhere e := by
  induction h with
  | literal => exact .literal
  | grouping _ ih => exact .grouping ih
  | unary _ ih => exact .unary trivial ih
  | binary _ _ ihl ihr => exact .binary trivial ihl ihr
  | logical _ _ ihl ihr => exact .logical trivial ihl ihr
  | var => exact .var trivial
  | assign _ ih => exact .assign trivial ih
  | call _ _ ihf ihes => exact .call trivial ihf ihes
  | get _ ih => exact .get trivial ih
  | set _ _ iho ihe => exact .set trivial iho ihe
  | this => exact .this trivial
  | super => exact .super trivial

theorem PlacedExpr.proper {T : Span → Prop} {e : Expr} (h : PlacedExpr T e) : ProperExpr e := by
  induction h with
  | literal => exact .literal
  | grouping _ ih => exact .grouping ih
  | unary _ _ ih => exact .unary ih
  | binary _ _ _ ihl ihr => exact .binary ihl ihr
  | logical _ _ _ ihl ihr => exact .logical ihl ihr
  | var => exact .var
  | assign _ _ ih => exact .assign ih
  | call _ _ _ ihf ihes => exact .call ihf ihes
  | get _ _ ih => exact .get ih
  | set _ _ _ iho ihe => exact .set iho ihe
  | this => exact .this
  | super => exact .super

mutual

theorem ProperStmt.placed {s : Stmt} (h : ProperStmt s) : PlacedStmt Anywhere s :=
  match h with
  | .expression he => .expression he.placed
  | .print he => .print he.placed
  | .varDecl hi => .varDecl trivial fun e he => (hi e he).placed
  | .block hb => .block fun s hs => (hb s hs).placed
  | .ifElse he hs ho => .ifElse he.placed hs.placed fun t ht => (ho t ht).placed
  | .whileLoop he hs => .whileLoop he.placed hs.placed
  | .breakLoop => .breakLoop trivial
  | .funDecl hf => .funDecl hf.placed
  | .returnWith hv => .returnWith trivial fun e he => (hv e he).placed
  | .classDecl hm => .classDecl trivial (fun _ _ => trivial) fun f hf => (hm f hf).placed

theorem ProperFunction.placed {f : Function} (h : ProperFunction f) : PlacedFunction Anywhere f :=
  match h with
  | .mk hb => .mk trivial (fun _ _ => trivial) fun s hs => (hb s hs).placed

end

mutual

theorem PlacedStmt.proper {T : Span → Prop} {s : Stmt} (h : PlacedStmt T s) : ProperStmt s :=
  match h with
  | .expression he => .expression he.proper
  | .print he => .print he.proper
  | .varDecl _ hi => .varDecl fun e he => (hi e he).proper
  | .block hb => .block fun s hs => (hb s hs).proper
  | .ifElse he hs ho => .ifElse he.proper hs.proper fun t ht => (ho t ht).proper
  | .whileLoop he hs => .whileLoop he.proper hs.proper
  | .breakLoop _ => .breakLoop
  | .funDecl hf => .funDecl hf.proper
  | .returnWith _ hv => .returnWith fun e he => (hv e he).proper
  | .classDecl _ _ hm => .classDecl fun f hf => (hm f hf).proper

theorem PlacedFunction.proper {T : Span → Prop} {f : Function} (h : PlacedFunction T f) :
    ProperFunction f :=
  match h with
  | .mk _ _ hb => .mk fun s hs => (hb s hs).proper

end

/-- Whatever is wrong with the tokens, the statements are proper. -/
theorem Tree.parse_proper (frames : Nat) (tokens : List Token) (listing : Listing)
    (report : Report) : ∀ s ∈ (parse frames tokens listing report).1, ProperStmt s :=
  fun s hs => ((parse_placed (T := Anywhere) frames listing report (fun _ _ => trivial)
    trivial).1 s hs).proper

namespace Scope

open Resolver

/-! ### Resolution of proper trees -/

/-- A computation that adds errors to the report, and that only stops because
something is too deep. -/
structure Tame {α : Type} (p : Resolver α) : Prop where
  grows : ∀ c : Context, c.report.Extends (EStateM.Result.final (p c)).report
  stops : ∀ {c e c'}, p c = .error e c' → e = .tooDeep

namespace Tame

variable {α β : Type}

theorem pure (a : α) : Tame (pure a) := by
  refine ⟨fun c => .refl c.report, ?_⟩
  rintro c e c' ⟨⟩

theorem get : Tame (get : Resolver Context) := by
  refine ⟨fun c => .refl c.report, ?_⟩
  rintro c e c' ⟨⟩

theorem modify {f : Context → Context} (hf : ∀ c : Context, c.report.Extends (f c).report) :
    Tame (modify f : Resolver Unit) := by
  refine ⟨hf, ?_⟩
  rintro c e c' ⟨⟩

theorem bind {x : Resolver α} {f : α → Resolver β} (hx : Tame x) (hf : ∀ a, Tame (f a)) :
    Tame (x >>= f) := by
  refine ⟨fun c => ?_, fun {c e c'} h => ?_⟩
  · have hc := hx.grows c
    change c.report.Extends (EStateM.Result.final (EStateM.bind x f c)).report
    unfold EStateM.bind
    cases hxc : x c with
    | ok a t =>
      rw [hxc] at hc
      exact hc.trans ((hf a).grows t)
    | error e t =>
      rw [hxc] at hc
      exact hc
  · change EStateM.bind x f c = _ at h
    unfold EStateM.bind at h
    cases hxc : x c with
    | ok a t =>
      rw [hxc] at h
      exact (hf a).stops h
    | error e' t =>
      rw [hxc] at h
      cases h
      exact hx.stops hxc

theorem map {x : Resolver α} (f : α → β) (hx : Tame x) : Tame (f <$> x) := by
  rw [map_eq_pure_bind]
  exact hx.bind fun a => pure (f a)

theorem ite {c : Prop} [Decidable c] {x y : Resolver α} (hx : Tame x) (hy : Tame y) :
    Tame (if c then x else y) := by
  split
  · exact hx
  · exact hy

theorem complain (t : Token) (p : Problem) : Tame (complain t p) :=
  modify fun c => .add c.report (p.static t c.listing)

theorem locate (kind : UseKind) (ref : Reference) : Tame (locate kind ref) := by
  refine get.bind fun c => ?_
  split
  · exact .bind (.modify fun c => .refl c.report) fun _ => pure _
  · exact pure _

theorem call (n : Nat) : Tame (call n) := by
  cases n with
  | zero =>
    refine ⟨fun c => .refl c.report, ?_⟩
    rintro c e c' ⟨⟩
    rfl
  | succ n => exact pure ()

theorem declare (n : Nat) (name : Token) : Tame (declare n name) :=
  (call n).bind fun _ => get.bind fun _ =>
    ite ((complain _ _).bind fun _ => modify fun c => .refl c.report)
      (modify fun c => .refl c.report)

theorem define (n : Nat) (name : Token) : Tame (define n name) :=
  (call n).bind fun _ => modify fun c => .refl c.report

/-- What keeps to places is tame. -/
theorem of_places {p : Resolver α} (h : ∀ L r, Places Anywhere L r p) : Tame p := by
  refine ⟨fun c => ?_, fun {c e c'} hrun => ?_⟩
  · have hplaces := h c.listing c.report
    have hstart : Context.Placed Anywhere c.listing c.report c := ⟨rfl, .refl⟩
    cases hrun : p c with
    | ok a c' => exact (hplaces.ok hstart hrun).1.report.grows
    | error e c' => exact (hplaces.error hstart hrun).1.report.grows
  · exact ((h c.listing c.report).error ⟨rfl, .refl⟩ hrun).2

end Tame

theorem tame_statement (n : Nat) {s : Stmt} (hs : ProperStmt s) : Tame (statement n s) :=
  .of_places fun _ _ => places_statement n hs.placed

theorem tame_topLevel (frames : Nat) {s : Stmt} (hs : ProperStmt s) :
    Tame (topLevel frames s) := by
  refine .of_places fun L r => ?_
  have htop : Steady (Context.Placed Anywhere L r) (fun _ => False) (topLevel frames s)
      fun _ => True := places_topLevel frames hs.placed trivial
  exact ⟨htop.ok, fun hc hrun => (htop.error hc hrun).2.elim⟩

/-- What is nested too deeply is reported at its own statement, and does not stop the program. -/
theorem topLevel_ne_tooDeep (frames : Nat) (s : Stmt) (c c' : Context) :
    topLevel frames s c ≠ .error .tooDeep c' := by
  unfold topLevel
  split
  · exact fun h => nomatch h
  · rename_i hnot
    exact hnot c'

theorem mapM_topLevel_ne_tooDeep (frames : Nat) (program : List Stmt) : ∀ c c' : Context,
    program.mapM (topLevel frames) c ≠ .error .tooDeep c' := by
  induction program with
  | nil => exact fun c c' h => nomatch h
  | cons s program ih =>
    intro c c' h
    rw [List.mapM_cons] at h
    -- A statement that is too deep is reported, which is not an error of the loop.
    cases hs : topLevel frames s c with
    | error e d =>
      rw [bind_error hs] at h
      cases h
      exact topLevel_ne_tooDeep frames s c _ hs
    | ok a d =>
      rw [bind_ok hs] at h
      cases hrest : program.mapM (topLevel frames) d with
      | error e d' =>
        rw [bind_error hrest] at h
        cases h
        exact ih _ _ hrest
      | ok as d' =>
        rw [bind_ok hrest] at h
        cases h

/-- Statements that were read have no misfit. -/
theorem resolve_proper (frames : Nat) {statements : List Stmt} (listing : Listing)
    (report : Report) (hs : ∀ s ∈ statements, ProperStmt s) :
    ∃ ss c, statements.mapM (topLevel frames) { listing, report } = .ok ss c ∧
      resolve frames statements listing report
        = .ok ⟨ss, c.uses, c.report, c.scopes.length⟩ := by
  obtain ⟨ss, c, hrun, hresolve, -⟩ := resolve_placed frames listing report
    (fun s hmem => (hs s hmem).placed) trivial
  exact ⟨ss, c, hrun, hresolve⟩

/-- Resolving statements that were read adds errors to the report. -/
theorem resolve_grows {frames : Nat} {statements : List Stmt} {listing : Listing}
    {report : Report} {r : Resolved} (hs : ∀ s ∈ statements, ProperStmt s)
    (hr : resolve frames statements listing report = .ok r) : report.Extends r.report := by
  obtain ⟨ss, c, -, hresolve, hplaced⟩ := resolve_placed frames listing report
    (fun s hmem => (hs s hmem).placed) trivial
  obtain rfl : _ = r := Except.ok.inj (hresolve.symm.trans hr)
  exact hplaced.grows

end Scope

end Lox
