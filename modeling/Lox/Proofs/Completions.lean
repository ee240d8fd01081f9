/-
Where breaks and returns go.

Running would silently drop a break that comes out of a function body, and a
break or a return that comes out of a top-level statement.  None ever does.
Reading admits a break only inside a loop of the same function, resolution
admits a return only inside a function, and a statement that keeps to both can
only end as it is allowed to end where it stands.

* `Contained` — breaks in loops, returns in functions;
* `contained_of_sentence` — reading sees to the breaks;
* `within_trees`, `contained_of_accepted` — resolution sees to the returns;
* `exec_allowed` — how a contained statement can end, from any state;
* `no_completion_lost` — a run that is watched for lost completions is the run
  itself.
-/
import Lox.Proofs.Watching

namespace Lox

/-! ### Statements whose breaks and returns are contained -/

/-- `Contained inLoop inFunction s`: every break in `s` is inside a loop of `s`
or, with `inLoop`, may leave it; every return is inside a function of `s` or,
with `inFunction`, may leave it.  The body of a function is no part of the loops
around the function. -/
inductive Contained : (inLoop inFunction : Bool) → Stmt → Prop
  | expression {l f : Bool} {e : Expr} : Contained l f (.expression e)
  | print {l f : Bool} {e : Expr} : Contained l f (.print e)
  | varDecl {l f : Bool} {name : Token} {init : Option Expr} : Contained l f (.varDecl name init)
  | block {l f : Bool} {body : List Stmt} (hb : ∀ s ∈ body, Contained l f s) :
      Contained l f (.block body)
  | ifElse {l f : Bool} {e : Expr} {s : Stmt} {other : Option Stmt} (hs : Contained l f s)
      (ho : ∀ t ∈ other, Contained l f t) : Contained l f (.ifElse e s other)
  | whileLoop {l f : Bool} {e : Expr} {s : Stmt} (hs : Contained true f s) :
      Contained l f (.whileLoop e s)
  | breakLoop {f : Bool} {keyword : Token} : Contained true f (.breakLoop keyword)
  | funDecl {l f : Bool} {g : Function} (hg : ∀ s ∈ g.body, Contained false true s) :
      Contained l f (.funDecl g)
  | returnWith {l : Bool} {keyword : Token} {value : Option Expr} :
      Contained l true (.returnWith keyword value)
  | classDecl {l f : Bool} {name : Token} {superclass : Option Reference}
      {methods : List Function} (hm : ∀ g ∈ methods, ∀ s ∈ g.body, Contained false true s) :
      Contained l f (.classDecl name superclass methods)

/-- No break leaves the body of a function. -/
def Function.Enclosed (f : Function) : Prop :=
  ∀ s ∈ f.body, Contained false true s

/-- Contained in some place or other. -/
def Contained.Somewhere (s : Stmt) : Prop :=
  ∃ inLoop inFunction, Contained inLoop inFunction s

theorem hereditary_contained : Hereditary Contained.Somewhere Function.Enclosed where
  block := by
    rintro body ⟨l, f, h⟩ s hs
    cases h with
    | block hb => exact ⟨l, f, hb s hs⟩
  thenBranch := by
    rintro e s other ⟨l, f, h⟩
    cases h with
    | ifElse hs _ => exact ⟨l, f, hs⟩
  elseBranch := by
    rintro e s t ⟨l, f, h⟩
    cases h with
    | ifElse _ ho => exact ⟨l, f, ho t rfl⟩
  loop := by
    rintro e s ⟨l, f, h⟩
    cases h with
    | whileLoop hs => exact ⟨true, f, hs⟩
  funDecl := by
    rintro g ⟨l, f, h⟩
    cases h with
    | funDecl hg => exact hg
  classDecl := by
    rintro name superclass methods ⟨l, f, h⟩
    cases h with
    | classDecl hm => exact hm
  -- A body begins anew, in a function and outside of all loops.
  body := fun hf s hs => ⟨false, true, hf s hs⟩

/-! ### Reading -/

namespace Tree

theorem contained_of_variable {n : Nat} {ts : List Token} {s : Stmt} {l f : Bool}
    (h : Variable n ts s) : Contained l f s := by
  cases h with
  | plain _ _ => exact .varDecl
  | initialized _ _ _ _ => exact .varDecl

theorem contained_of_initializer {n : Nat} {ts : List Token} {i : Option Stmt} {l f : Bool}
    (h : Initializer n ts i) : ∀ s ∈ i, Contained l f s := by
  cases h with
  | absent _ => simp
  | declared _ hv => simpa using contained_of_variable hv
  | expression _ _ => simpa using Contained.expression

/-- A break in the body of a `for` loop leaves the loop. -/
theorem contained_forLoop {i : Option Stmt} {c e : Option Expr} {s : Stmt} {l f : Bool}
    (hi : ∀ t ∈ i, Contained l f t) (hs : Contained true f s) :
    Contained l f (forLoop i c e s) := by
  have hbody : Contained true f (e.elim s fun e => .block [s, .expression e]) := by
    cases e with
    | none => exact hs
    | some e => exact .block (by simpa using ⟨hs, Contained.expression⟩)
  have hloop := Contained.whileLoop (l := l) (e := c.getD (.literal (.bool true))) hbody
  cases i with
  | none => exact hloop
  | some i => exact .block (by simpa using ⟨hi i rfl, hloop⟩)

theorem enclosed_routine {r : Routine} (h : ∀ p ∈ r.body, Contained false true p.2) :
    r.function.Enclosed := by
  intro s hs
  obtain ⟨p, hp, rfl⟩ := List.mem_map.mp hs
  exact h p hp

/-- The grammar has breaks in loops only. -/
theorem contained_of_sentence {nearest : Bool} {n : Nat} {k : Category} {inLoop : Bool}
    {ts : List Token} {s : Stmt} (h : Sentence nearest n k inLoop ts s) :
    Contained inLoop true s := by
  -- By induction on the derivation: the body of a loop is in a loop, that of a function is not.
  induction h with
  | expression _ _ => exact .expression
  | print _ _ _ => exact .print
  | returned _ _ _ => exact .returnWith
  | broken _ _ => exact .breakLoop
  | block _ _ _ ih =>
    refine .block fun s hs => ?_
    obtain ⟨p, hp, rfl⟩ := List.mem_map.mp hs
    exact ih p hp
  | whileDo _ _ _ _ _ ih => exact .whileLoop ih
  | forDo _ _ hi _ _ _ _ _ ih => exact contained_forLoop (contained_of_initializer hi) ih
  | ifAlone _ _ _ _ _ ih => exact .ifElse ih (by simp)
  | ifElse _ _ _ _ _ _ _ _ ih ih' => exact .ifElse ih (by simpa using ih')
  | varDecl _ hv => exact contained_of_variable hv
  | funDecl _ _ _ ih => exact .funDecl (enclosed_routine ih)
  | classDecl _ _ _ _ _ _ _ ih =>
    refine .classDecl fun g hg => ?_
    obtain ⟨r, hr, rfl⟩ := List.mem_map.mp hg
    exact enclosed_routine (ih r hr)
  | statement _ ih => exact ih

end Tree

/-! ### Resolution -/

namespace Scope

open Resolver

/-- Quiet runs inside a function of kind `k` stay inside it, and give something
with a property. -/
structure Within {α : Type} (k : FunctionKind) (p : Resolver α) (P : α → Prop) : Prop where
  runs : Sound p fun c a c' => c.functionKind = k → c'.functionKind = k ∧ P a

namespace Within

variable {α β : Type} {k : FunctionKind} {p : Resolver α} {P Q : α → Prop}

theorem imp (h : Within k p P) (hP : ∀ a, P a → Q a) : Within k p Q :=
  ⟨h.runs.imp fun hrun hk => (hrun hk).imp_right (hP _)⟩

theorem any (h : Within k p P) : Within k p fun _ => True :=
  h.imp fun _ _ => trivial

theorem pure (a : α) : Within k (pure a) (· = a) := by
  refine ⟨(Sound.pure a).imp ?_⟩
  rintro c b c' ⟨rfl, rfl⟩ hk
  exact ⟨hk, rfl⟩

theorem throw (e : Halt) : Within k (throw e : Resolver α) P :=
  ⟨(Sound.throw e).imp False.elim⟩

theorem bind {f : α → Resolver β} {R : α → β → Prop} (h : Within k p P)
    (hf : ∀ a, Within k (f a) (R a)) : Within k (p >>= f) fun b => ∃ a, P a ∧ R a b := by
  refine ⟨(h.runs.bind fun a => (hf a).runs).imp ?_⟩
  rintro c b c' ⟨a, t, hfirst, hrest⟩ hk
  obtain ⟨ht, ha⟩ := hfirst hk
  obtain ⟨hc', hb⟩ := hrest ht
  exact ⟨hc', a, ha, hb⟩

/-- After a step of which nothing is known. -/
theorem after {f : α → Resolver β} {R : β → Prop} (h : Within k p P)
    (hf : ∀ a, Within k (f a) R) : Within k (p >>= f) R :=
  (h.bind hf).imp fun _ ⟨_, _, hb⟩ => hb

theorem map {f : α → β} (h : Within k p P) :
    Within k (f <$> p) fun b => ∃ a, P a ∧ b = f a := by
  rw [map_eq_pure_bind]
  exact h.bind fun a => pure (f a)

theorem ite {c : Prop} [Decidable c] {q : Resolver α} (h : Within k p P) (h' : Within k q P) :
    Within k (if c then p else q) P := by
  split
  · exact h
  · exact h'

theorem get : Within k (get : Resolver Context) fun c => c.functionKind = k := by
  refine ⟨Sound.get.imp ?_⟩
  rintro c b c' ⟨rfl, rfl⟩ hk
  exact ⟨hk, hk⟩

/-- A change of neither the report nor the kind of function. -/
theorem modify {f : Context → Context} (hr : ∀ c, (f c).report = c.report)
    (hf : ∀ c, (f c).functionKind = c.functionKind) :
    Within k (modify f : Resolver Unit) fun _ => True := by
  refine ⟨(Sound.modify hr).imp ?_⟩
  rintro c _ _ rfl hk
  exact ⟨(hf c).trans hk, trivial⟩

/-- A complaint is not quiet. -/
theorem complain (t : Token) (problem : Problem) {P : Unit → Prop} :
    Within k (complain t problem) P := by
  refine ⟨⟨(Tame.complain t problem).grows, ?_⟩⟩
  rintro c _ _ ⟨⟨⟩, hr⟩
  exact absurd hr (Report.add_ne _ _)

theorem mapM {ι : Type} {f : ι → Resolver α} {as : List ι}
    (h : ∀ i ∈ as, Within k (f i) P) : Within k (as.mapM f) fun bs => ∀ b ∈ bs, P b := by
  induction as with
  | nil => exact (pure []).imp fun bs hbs => by simp [hbs]
  | cons i as ih =>
    rw [List.forall_mem_cons] at h
    rw [List.mapM_cons]
    refine (h.1.bind fun b => (ih h.2).bind fun bs => pure (b :: bs)).imp ?_
    rintro r ⟨b, hb, bs, hbs, rfl⟩
    exact List.forall_mem_cons.mpr ⟨hb, hbs⟩

theorem optionMapM {ι : Type} {f : ι → Resolver α} {o : Option ι}
    (h : ∀ i ∈ o, Within k (f i) P) : Within k (o.mapM f) fun r => ∀ b ∈ r, P b := by
  cases o with
  | none => exact (pure none).imp fun r hr => by simp [hr]
  | some i =>
    refine ((h i rfl).map (f := some)).imp ?_
    rintro r ⟨b, hb, rfl⟩
    simpa using hb

/-- On leaving, the context is changed, but not the report. -/
theorem leaving {leave : Context → Context} (h : Within k p P)
    (hr : ∀ c, (leave c).report = c.report)
    (hl : ∀ c, (leave c).functionKind = c.functionKind) : Within k (leaving p leave) P := by
  refine ⟨(sound_leaving h.runs hr).imp ?_⟩
  rintro c a _ ⟨t, hrun, rfl⟩ hk
  exact (hrun hk).imp_left (hl t).trans

theorem call (n : Nat) : Within k (call n) fun _ => True := by
  cases n with
  | zero => exact throw _
  | succ n => exact (pure ()).any

theorem withScope {scope : Names} (h : Within k p P) : Within k (withScope scope p) P :=
  after (modify (fun _ => rfl) fun _ => rfl) fun _ => h.leaving (fun _ => rfl) fun _ => rfl

theorem inScope (n : Nat) {scope : Names} (h : Within k p P) : Within k (inScope n scope p) P :=
  after (call n) fun _ => h.withScope

theorem inClass {first : Resolver Unit} (hfirst : Within k first fun _ => True)
    (h : Within k p P) : Within k (inClass first p) P :=
  after get fun _ => after (modify (fun _ => rfl) fun _ => rfl) fun _ => after hfirst fun _ =>
    h.leaving (fun _ => rfl) fun _ => rfl

theorem define (n : Nat) (name : Token) : Within k (define n name) fun _ => True :=
  after (call n) fun _ => modify (fun _ => rfl) fun _ => rfl

theorem declare (n : Nat) (name : Token) : Within k (declare n name) fun _ => True := by
  have hmark := modify (k := k)
    (f := fun c : Context => { c with scopes := c.scopes.declare name.lexeme })
    (fun _ => rfl) fun _ => rfl
  exact after (call n) fun _ => after get fun _ =>
    ite (after (P := fun _ => True) (complain name _) fun _ => hmark) hmark

theorem locate (kind : UseKind) (ref : Reference) : Within k (locate kind ref) fun _ => True := by
  refine after get fun c => ?_
  split
  · exact after (modify (fun _ => rfl) fun _ => rfl) fun _ => (pure _).any
  · exact (pure _).any

theorem readVariable (ref : Reference) : Within k (readVariable ref) fun _ => True :=
  after get fun _ => ite (after (P := fun _ => True) (complain _ _) fun _ => locate _ ref)
    (locate _ ref)

end Within

/-- Inside a function the kind is that of the function, and afterwards the one
before. -/
theorem within_inFunction {α : Type} {k kind : FunctionKind} {p : Resolver α} {P : α → Prop}
    (n : Nat) (h : Within kind p P) : Within k (inFunction kind (call n) p) P := by
  have hinside : ∀ outer : FunctionKind, Sound
      (modify (fun c : Context => { c with functionKind := kind }) >>= fun _ => call n >>= fun _ =>
        leaving p fun c => { c with functionKind := outer })
      fun _ a c' => c'.functionKind = outer ∧ P a := by
    intro outer
    have hcall := (Within.call (k := kind) n).runs
    have henter : Sound (modify fun c => { c with functionKind := kind } : Resolver Unit)
        fun c _ c' => c' = { c with functionKind := kind } := Sound.modify fun _ => rfl
    have hleave : Sound (leaving p fun c => { c with functionKind := outer }) fun c a c' =>
        ∃ t : Context, (c.functionKind = kind → t.functionKind = kind ∧ P a) ∧
          c' = { t with functionKind := outer } := sound_leaving h.runs fun _ => rfl
    refine (henter.bind fun _ => hcall.bind fun _ => hleave).imp ?_
    rintro c a c' ⟨_, t, rfl, _, u, hu, t', hrun, rfl⟩
    exact ⟨rfl, (hrun (hu rfl).1).2⟩
  have hsound := Sound.get.bind fun c : Context => hinside c.functionKind
  refine ⟨hsound.imp ?_⟩
  rintro c a c' ⟨outer, _, ⟨rfl, rfl⟩, hkind, ha⟩ hk
  exact ⟨hkind.trans hk, ha⟩

theorem within_expression (n : Nat) {k : FunctionKind} :
    ∀ e, Within k (expression n e) fun _ => True := by
  induction n with
  | zero => exact fun e => .throw _
  | succ n ih =>
    intro e
    cases e with
    | literal v => exact (Within.pure _).any
    | grouping e => exact (ih e).map.any
    | unary op e => exact (ih e).map.any
    | binary l op r => exact .after (ih l) fun _ => .after (ih r) fun _ => (Within.pure _).any
    | logical l op r => exact .after (ih l) fun _ => .after (ih r) fun _ => (Within.pure _).any
    | var ref => exact (Within.readVariable ref).map.any
    | assign ref e =>
      exact .after (ih e) fun _ => .after (.locate _ ref) fun _ => (Within.pure _).any
    | call f paren es =>
      exact .after (ih f) fun _ => .after (.mapM fun e _ => ih e) fun _ => (Within.pure _).any
    | get o name => exact .after (ih o) fun _ => (Within.pure _).any
    | set o name e => exact .after (ih e) fun _ => .after (ih o) fun _ => (Within.pure _).any
    -- A `this` outside of a class is complained about, and then resolved all the same.
    | thisRef ref =>
      exact .after .get fun _ => .ite
        (.after (P := fun _ => True) (.complain _ _) fun _ => (Within.pure _).any)
        (Within.locate _ ref).map.any
    | superRef ref method =>
      have hrest : Within k (do
          let ref ← locate .super_ ref
          pure (Expr.superRef ref method)) fun _ => True :=
        .after (.locate _ ref) fun _ => (Within.pure _).any
      refine .after .get fun c => ?_
      split
      · exact .after (P := fun _ => True) (.complain _ _) fun _ => hrest
      · exact .after (P := fun _ => True) (.complain _ _) fun _ => hrest
      · exact hrest
    | blank b => exact .throw _
    | bare v => exact .throw _
    | misplaced s => exact .throw _

/-- The return of a function is no return of what is around it. -/
abbrev FunctionKind.within (k : FunctionKind) : Bool :=
  k != .none

section Bodies

variable (n : Nat) {k : FunctionKind}

theorem within_functionWith {body : List Stmt → Resolver (List Stmt)}
    (hbody : ∀ {k l stmts}, (∀ s ∈ stmts, Contained l true s) →
      Within k (body stmts) fun stmts => ∀ s ∈ stmts, Contained l k.within s)
    {kind : FunctionKind} (hkind : kind.within = true) {f : Function} (hf : f.Enclosed) :
    Within k (functionWith n body kind f) Function.Enclosed := by
  obtain ⟨name, params, stmts⟩ := f
  -- Parameters are declared and defined one after another; none of them changes the kind.
  have hparams : ∀ params : List Token, Within kind (forIn params PUnit.unit fun p _ => do
      Resolver.declare n p
      Resolver.define n p
      pure (.yield PUnit.unit) : Resolver PUnit) fun _ => True := by
    intro params
    induction params with
    | nil => exact (Within.pure _).any
    | cons p params ih =>
      rw [List.forIn_cons]
      refine .after (.after (.declare n p) fun _ => .after (.define n p) fun _ => .pure _)
        fun r => ?_
      cases r with
      | done _ => exact (Within.pure _).any
      | yield _ => exact ih
  refine within_inFunction n (.withScope (.after (hparams params) fun _ => (hbody hf).map.imp ?_))
  rintro g ⟨stmts', hstmts, rfl⟩
  -- Inside a function `return` is allowed, whatever is around it.
  rw [hkind] at hstmts
  exact hstmts

variable {method : FunctionKind → Function → Resolver Function}
  (hmethod : ∀ {k kind f}, kind.within = true → f.Enclosed →
    Within k (method kind f) Function.Enclosed)
  {methods : List Function} (hm : ∀ f ∈ methods, f.Enclosed)

include hmethod hm

theorem within_methodsWith :
    Within k (methodsWith n method methods) fun ms => ∀ f ∈ ms, Function.Enclosed f := by
  refine .inScope n (.mapM fun f hf => ?_)
  cases f.isInit with
  | true => exact hmethod rfl (hm f hf)
  | false => exact hmethod rfl (hm f hf)

theorem within_classWith {l : Bool} (name : Token) (superclass : Option Reference) :
    Within k (classWith n method name superclass methods) (Contained l k.within) := by
  have hmethods := within_methodsWith (k := k) n hmethod hm
  refine .inClass (.after (.declare n name) fun _ => .define n name) ?_
  cases superclass with
  | none =>
    refine hmethods.map.imp ?_
    rintro r ⟨ms, hms, rfl⟩
    exact .classDecl hms
  | some ref =>
    have hrest : Within k (do
        inherit
        let ref ← readVariable ref
        let methods ← Resolver.inScope n (Names.of "super") (methodsWith n method methods)
        pure (Stmt.classDecl name (some ref) methods)) (Contained l k.within) := by
      refine .after (P := fun _ => True) (.modify (fun _ => rfl) fun _ => rfl) fun _ =>
        .after (.readVariable ref) fun _ => ((Within.inScope n hmethods).bind fun ms =>
          .pure _).imp ?_
      rintro r ⟨ms, hms, rfl⟩
      exact .classDecl hms
    exact .ite (.after (P := fun _ => True) (.complain _ _) fun _ => hrest) hrest

end Bodies

/-- What resolution with so many frames makes of trees whose breaks are in loops. -/
structure WithinTrees (n : Nat) : Prop where
  statement : ∀ {k : FunctionKind} {l : Bool} {s : Stmt}, Contained l true s →
    Within k (statement n s) (Contained l k.within)
  statements : ∀ {k : FunctionKind} {l : Bool} {stmts : List Stmt},
    (∀ s ∈ stmts, Contained l true s) →
    Within k (statements n stmts) fun stmts => ∀ s ∈ stmts, Contained l k.within s
  function : ∀ {k kind : FunctionKind} {f : Function}, kind.within = true → f.Enclosed →
    Within k (function n kind f) Function.Enclosed
  classDecl : ∀ {k : FunctionKind} {l : Bool} {name : Token} {superclass : Option Reference}
    {ms : List Function}, (∀ f ∈ ms, f.Enclosed) →
    Within k (classDecl n name superclass ms) (Contained l k.within)

/-- Resolution sees to it that returns are in functions. -/
theorem within_trees (n : Nat) : WithinTrees n := by
  -- By induction on the frames; the kind of function is the one around the statement.
  induction n with
  | zero => exact ⟨fun _ => .throw _, fun _ => .throw _, fun _ _ => .throw _, fun _ => .throw _⟩
  | succ n ih =>
    refine ⟨fun {k l s} hs => ?_, fun hb => .mapM fun s hs => ih.statement (hb s hs),
      fun hkind hf => within_functionWith n ih.statements hkind hf,
      fun hm => within_classWith n ih.function hm _ _⟩
    cases hs with
    | expression =>
      refine (within_expression n _).map.imp ?_
      rintro r ⟨_, -, rfl⟩
      exact .expression
    | print =>
      refine (within_expression n _).map.imp ?_
      rintro r ⟨_, -, rfl⟩
      exact .print
    | varDecl =>
      refine .after (.declare n _) fun _ => .after
        (.optionMapM fun e _ => within_expression n e) fun _ => .after (.define n _) fun _ =>
          (Within.pure _).imp ?_
      rintro r rfl
      exact .varDecl
    | block hb =>
      refine (Within.inScope n (ih.statements hb)).map.imp ?_
      rintro r ⟨body, hbody, rfl⟩
      exact .block hbody
    | ifElse hs ho =>
      refine .after (within_expression n _) fun _ => ((ih.statement hs).bind fun s' =>
        (Within.optionMapM fun t ht => ih.statement (ho t ht)).bind fun other => .pure _).imp ?_
      rintro r ⟨s', hs', other, ho', rfl⟩
      exact .ifElse hs' ho'
    | whileLoop hs =>
      refine .after (within_expression n _) fun _ =>
        ((ih.statement hs).bind fun s' => .pure _).imp ?_
      rintro r ⟨s', hs', rfl⟩
      exact .whileLoop hs'
    | breakLoop =>
      refine (Within.pure _).imp ?_
      rintro r rfl
      exact .breakLoop
    | funDecl hg =>
      refine .after (.declare n _) fun _ => .after (.define n _) fun _ =>
        (ih.function rfl hg).map.imp ?_
      rintro r ⟨g, hg', rfl⟩
      exact .funDecl hg'
    | @returnWith _ keyword value =>
      have hrest : Within k (do
          let value ← value.mapM (expression n)
          pure (Stmt.returnWith keyword value))
          fun r => k.within = true → Contained l k.within r := by
        refine .after (.optionMapM fun e _ => within_expression n e) fun _ =>
          (Within.pure _).imp ?_
        rintro r rfl hk
        rw [hk]
        exact .returnWith
      -- Outside of functions there is a complaint.
      refine (Within.get.bind (R := fun c r => c.functionKind = k → Contained l k.within r)
        fun c => ?_).imp fun r ⟨c, hc, hr⟩ => hr hc
      by_cases hnone : c.functionKind == .none
      · rw [if_pos hnone]
        refine (Within.bind (P := fun _ => False) (.complain _ _) fun _ => hrest).imp ?_
        rintro r ⟨_, hfalse, -⟩
        exact hfalse.elim
      · rw [if_neg hnone]
        refine hrest.imp fun r hr hc => hr ?_
        rw [← hc]
        simpa [FunctionKind.within] using hnone
    | classDecl hm => exact ih.classDecl hm

/-- A top-level statement that is resolved without a problem has no return. -/
theorem within_topLevel (n : Nat) {k : FunctionKind} {l : Bool} {s : Stmt}
    (hs : Contained l true s) (hp : ProperStmt s) :
    Within k (topLevel n s) (Contained l k.within) := by
  have hstmt := ((within_trees n).statement hs).runs (k := k)
  refine ⟨⟨(tame_topLevel n hp).grows, ?_⟩⟩
  rintro c a c' ⟨hrun, hreport⟩
  unfold topLevel at hrun
  cases hc : statement n s c with
  | ok a' t =>
    rw [hc] at hrun
    cases hrun
    exact hstmt.quiet ⟨hc, hreport⟩
  | error e t =>
    rw [hc, (tame_statement n hp).stops hc] at hrun
    cases hrun
    have hgrows := hstmt.grows c
    rw [hc] at hgrows
    exact absurd hreport (hgrows.add_ne _)

end Scope

/-- Neither a break nor a return leaves a statement of a program that is
accepted. -/
theorem contained_of_accepted {host : Host} {settings : Settings} {file : Option String}
    {source : String} (h : (check host settings file source).report.hasErrors = false) :
    ∀ s ∈ (check host settings file source).statements, Contained false false s := by
  obtain ⟨ts, program, r, ha⟩ := hasErrors_eq_false_iff.mp h
  rw [ha.check_eq.1]
  have hproper : ∀ s ∈ program, ProperStmt s :=
    ha.read_eq.1 ▸ read_proper host settings file source
  -- The parser leaves no `break` outside of a loop: what it read quietly has a derivation.
  have hbreaks : ∀ s ∈ program, Contained false true s := by
    cases ha.reads with
    | nothing _ => simp
    | all _ _ hp =>
      obtain ⟨parts, -, rfl, hall⟩ := hp
      intro s hs
      obtain ⟨p, hp, rfl⟩ := List.mem_map.mp hs
      exact Tree.contained_of_sentence (hall p hp)
  obtain ⟨ss, c, hrun, hresolve⟩ := Scope.resolve_proper (settings.frames host)
    (Listing.ofText source) settings.blank hproper
  obtain rfl : _ = r := Except.ok.inj (hresolve.symm.trans ha.resolved)
  -- And the resolver leaves no `return` outside of a function.
  have hwithin : Scope.Within .none (program.mapM (Scope.topLevel (settings.frames host)))
      fun ss => ∀ s ∈ ss, Contained false false s :=
    .mapM fun s hs => Scope.within_topLevel _ (hbreaks s hs) (hproper s hs)
  exact (hwithin.runs.quiet ⟨hrun, ha.quiet⟩ rfl).2

/-! ### How a statement can end -/

/-- How a statement may end, inside a loop or not and inside a function or
not. -/
def Completion.Allowed (inLoop inFunction : Bool) : Completion → Prop
  | normal => True
  | broke => inLoop = true
  | returned _ => inFunction = true

/-- Whatever a computation gives has a property. -/
structure Gives {α : Type} (p : Eval α) (P : α → Prop) : Prop where
  ok : ∀ {m a m'}, p m = .ok a m' → P a

namespace Gives

variable {α β : Type} {p : Eval α} {P : α → Prop} {Q : β → Prop}

theorem pure {a : α} (h : P a) : Gives (pure a) P := by
  refine ⟨?_⟩
  rintro m b m' ⟨⟩
  exact h

theorem throw (e : Stop) : Gives (throw e : Eval α) P := by
  refine ⟨?_⟩
  rintro m b m' ⟨⟩

theorem any (p : Eval α) : Gives p fun _ => True :=
  ⟨fun _ => trivial⟩

theorem bind {f : α → Eval β} (h : Gives p P) (hf : ∀ a, P a → Gives (f a) Q) :
    Gives (p >>= f) Q := by
  refine ⟨fun {m b m'} hrun => ?_⟩
  change EStateM.bind p f m = _ at hrun
  unfold EStateM.bind at hrun
  cases hp : p m with
  | ok a t =>
    rw [hp] at hrun
    exact (hf a (h.ok hp)).ok hrun
  | error e t =>
    rw [hp] at hrun
    cases hrun

/-- After a step of which nothing is known. -/
theorem after {f : α → Eval β} (hf : ∀ a, Gives (f a) Q) : Gives (p >>= f) Q :=
  bind (any p) fun a _ => hf a

theorem ite {c : Prop} [Decidable c] {q : Eval α} (h : Gives p P) (h' : Gives q P) :
    Gives (if c then p else q) P := by
  split
  · exact h
  · exact h'

theorem inEnvironment {env : Nat} (h : Gives p P) : Gives (Eval.inEnvironment env p) P := by
  refine ⟨fun {m a m'} hrun => ?_⟩
  unfold Eval.inEnvironment at hrun
  dsimp only at hrun
  cases hp : p { m with current := env } with
  | ok b t =>
    rw [hp] at hrun
    cases hrun
    exact h.ok hp
  | error e t =>
    rw [hp] at hrun
    cases hrun

end Gives

/-- A sequence ends as one of its statements does, or normally. -/
theorem runAll_allowed {run : Stmt → Eval Completion} {l f : Bool} {body : List Stmt}
    (h : ∀ s ∈ body, Gives (run s) (Completion.Allowed l f)) :
    Gives (runAll run body) (Completion.Allowed l f) := by
  induction body with
  | nil => exact .pure trivial
  | cons s body ih =>
    rw [List.forall_mem_cons] at h
    refine .bind h.1 fun c hc => ?_
    cases c with
    | normal => exact ih h.2
    | broke => exact .pure hc
    | returned v => exact .pure hc

/-- A loop consumes the breaks of its body, and only lets returns through. -/
theorem iterate_allowed {condition : Eval Bool} {body : Eval Completion} {f : Bool}
    (h : Gives body (Completion.Allowed true f)) :
    ∀ turns, Gives (iterate condition body turns) (Completion.Allowed false f) := by
  intro turns
  induction turns with
  | zero => exact .throw _
  | succ turns ih =>
    refine .after fun goesOn => .ite (.bind h fun c hc => ?_) (.pure trivial)
    cases c with
    | normal => exact ih
    | broke => exact .pure trivial
    | returned v => exact .pure hc

theorem Completion.Allowed.mono {l f : Bool} {c : Completion} (h : c.Allowed false f) :
    c.Allowed l f := by
  cases c with
  | normal => trivial
  | broke => exact absurd h Bool.false_ne_true
  | returned v => exact h

/-- From any state a contained statement ends as it may end where it stands. -/
theorem exec_allowed (host : Host) (n : Nat) : ∀ {l f : Bool} {s : Stmt}, Contained l f s →
    Gives (exec host n s) (Completion.Allowed l f) := by
  -- By induction on the frames.  Only `break` and `return` do not end normally.
  induction n with
  | zero => exact fun _ => .throw _
  | succ n ih =>
    intro l f s hs
    cases hs with
    | expression => exact .after fun _ => .pure trivial
    | print =>
      refine .after fun v => .after fun text => ?_
      cases text with
      | some text => exact .after fun _ => .pure trivial
      | none => exact .throw _
    | @varDecl _ _ name init =>
      cases init with
      | some e => exact .after fun _ => .after fun _ => .pure trivial
      | none => exact .after fun _ => .after fun _ => .pure trivial
    | block hb =>
      exact .after fun m => .after fun env =>
        .inEnvironment (runAll_allowed fun s hmem => ih (hb s hmem))
    | @ifElse _ _ e s other hs ho =>
      refine .after fun c => .ite (ih hs) ?_
      cases other with
      | some t => exact ih (ho t rfl)
      | none => exact .pure trivial
    -- A loop takes the breaks of its body and passes its returns on.
    | whileLoop hs => exact ⟨fun hrun => ((iterate_allowed (ih hs) _).ok hrun).mono⟩
    | breakLoop => exact .pure rfl
    | funDecl _ => exact .after fun _ => .pure trivial
    | @returnWith _ keyword value =>
      cases value with
      | some e => exact .after fun v => .pure rfl
      | none => exact .pure rfl
    | @classDecl _ _ name superclass methods _ =>
      cases superclass with
      | none => exact .after fun _ => .pure trivial
      | some ref =>
        refine .after fun v => ?_
        cases v with
        | classRef parent => exact .after fun _ => .pure trivial
        | _ => exact .throw _

/-- Nothing at all is asked of the body of a loop: the loop never ends with a
break. -/
theorem while_ne_broke (host : Host) (n : Nat) (e : Expr) (body : Stmt) :
    Gives (exec host n (.whileLoop e body)) (· ≠ .broke) := by
  cases n with
  | zero => exact .throw _
  | succ n =>
    have hbody : Gives (exec host n body) (Completion.Allowed true true) := by
      refine ⟨fun {m c m'} _ => ?_⟩
      cases c with
      | normal => trivial
      | broke => rfl
      | returned v => rfl
    refine ⟨fun {m c m'} hrun hc => ?_⟩
    have hallowed := (iterate_allowed hbody _).ok hrun
    rw [hc] at hallowed
    exact Bool.false_ne_true hallowed

/-- The body of a function that breaks do not leave ends normally or with a
return. -/
theorem body_ne_broke (host : Host) (n : Nat) {f : Function} (hf : f.Enclosed) :
    Gives (runAll (exec host n) f.body) (· ≠ .broke) := by
  refine ⟨fun {m c m'} hrun hc => ?_⟩
  have hallowed := (runAll_allowed fun s hs => exec_allowed host n (hf s hs)).ok hrun
  rw [hc] at hallowed
  exact Bool.false_ne_true hallowed

/-! ### Runs of programs -/

theorem unbroken_enclosed (lost : Completion → Eval Unit) (host : Host) :
    Unbroken Function.Enclosed lost host := by
  refine .inr fun f hf s hs n m m' hrun => ?_
  have hallowed := (exec_allowed host n (hf s hs)).ok hrun
  exact Bool.false_ne_true hallowed

/-- A top-level statement ends normally. -/
theorem normal_of_contained {host : Host} {s : Stmt} (hs : Contained false false s) (n : Nat) :
    Gives (exec host n s) (· = .normal) := by
  refine ⟨fun {m c m'} hrun => ?_⟩
  have hallowed := (exec_allowed host n hs).ok hrun
  cases c with
  | normal => rfl
  | broke => exact absurd hallowed Bool.false_ne_true
  | returned v => exact absurd hallowed Bool.false_ne_true

/-- In a session every function there is keeps its breaks. -/
theorem runSources_enclosed (host : Host) (settings : Settings) (sources : List Source) :
    (Session.runSources host settings sources .start).2.machine.At Function.Enclosed
      Machine.globals := by
  refine at_runSources hereditary_contained host settings (fun source _ h s hs => ?_)
    (at_initial fun s hs => ?_)
  · exact ⟨false, false, contained_of_accepted h s hs⟩
  · exact absurd hs List.not_mem_nil

/-- No break and no return is lost.  Whatever sources were run before, and
whatever the state is, a top-level statement of a source without an error ends
normally, if it ends; the body of each function there is, before the source is run
and after, ends normally or with a return; and a loop never ends with a break.  So
an observer of completions that nobody would ask for, whatever it did, is never
called: a watched run is the run itself. -/
theorem no_completion_lost (lost : Completion → Eval Unit) (host : Host) (settings : Settings)
    (sources : List Source) (source : Source)
    (h : (check host settings source.file source.text).report.hasErrors = false) :
    let statements := (check host settings source.file source.text).statements
    let before := (Session.runSources host settings sources .start).2
    let after := (before.run host settings source.file source.text).2
    let levels := settings.frames host / framesPerLevel
    let m : Machine := { before.machine with output := "" }
    (∀ s ∈ statements, Contained false false s ∧
      ∀ n, Gives (exec host n s) (· = .normal)) ∧
    (∀ machine ∈ [before.machine, after.machine], ∀ id n,
      Gives (runAll (exec host n) (machine.heap.closure id).declaration.body) (· ≠ .broke)) ∧
    (∀ n e body, Gives (exec host n (.whileLoop e body)) (· ≠ .broke)) ∧
    Watched.runStatements lost host levels settings.replMode statements none m =
      runStatements host levels settings.replMode statements none m := by
  have hstatements := contained_of_accepted h
  -- Every function of the machine was checked when it was declared, also in earlier sources.
  have hbefore := runSources_enclosed host settings sources
  have hafter := at_run hereditary_contained host settings hbefore source.file source.text
    fun _ s hs => ⟨false, false, hstatements s hs⟩
  have hquiet : Machine.At Function.Enclosed Machine.globals
      { (Session.runSources host settings sources .start).2.machine with output := "" } :=
    hbefore.congr rfl rfl
  refine ⟨fun s hs => ⟨hstatements s hs, normal_of_contained (hstatements s hs)⟩, ?_,
    while_ne_broke host, ?_⟩
  · intro machine hmachine id n
    have hat : machine.At Function.Enclosed Machine.globals := by
      simp only [List.mem_cons, List.not_mem_nil, or_false] at hmachine
      rcases hmachine with rfl | rfl
      · exact hbefore
      · exact hafter
    exact body_ne_broke host n (hat.functions id)
  · -- A watched run differs from a plain one only where a completion is lost, and none is.
    have hfinishing : ∀ s ∈ (check host settings source.file source.text).statements,
        Contained.Somewhere s ∧ Finishing s lost host := fun s hs =>
      ⟨⟨false, false, hstatements s hs⟩,
        .inr fun n m c m' => (normal_of_contained (hstatements s hs) n).ok⟩
    exact (runStatements_watched hereditary_contained (unbroken_enclosed lost host) _ _
      Machine.globals hfinishing none hquiet).1

/-- A break in a loop of a function, a return, and a break in a loop outside. -/
def sampleCompletions : Source where
  text := "fun f() \x7b while (true) \x7b if (true) break; \x7d return 1; \x7d\n" ++
    "while (true) \x7b f(); break; \x7d"

theorem no_completion_lost_sample :
    (check .small {} none sampleCompletions.text).report.hasErrors = false ∧
    ∀ s ∈ (check .small {} none sampleCompletions.text).statements, Contained false false s ∧
      ∀ n, Gives (exec .small n s) (· = .normal) := by
  have haccepted : (check .small {} none sampleCompletions.text).report.hasErrors = false := by
    decide +kernel
  exact ⟨haccepted,
    (no_completion_lost (fun _ => throw .unfinished) .small {} [] sampleCompletions haccepted).1⟩

end Lox
