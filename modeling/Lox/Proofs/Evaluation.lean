/-
Expressions and statements side by side.

A program that was resolved, run on environments, and the same program as it was
read, run on cells, do the same.  The proof is by induction on the frames: what
is proved of calls and declarations for any way to run statements is used for
running them with one frame less.

* `Evaluates` — expressions are evaluated side by side;
* `Evaluates.succ`, `Runs.succ` — one frame more;
* `evaluates_and_runs` — expressions and statements, with any number of frames.
-/
import Lox.Proofs.Calls

namespace Lox.Lexical

open Scope

variable {R : Token → Token → Prop} {before : String} {k : Extent} {x : Snapshot}

/-- Expressions of the same shape are evaluated side by side, and add no name to
the environments that there are. -/
structure Evaluates (R : Token → Token → Prop) (before : String) (eval' : Expr → Eval Value)
    (eval : View → Expr → Run Value) : Prop where
  beside : ∀ {x S V e e'}, Mirrors R before x → Follows x x.machine.current S V →
    ExprShape R (Rules.lexical.uses S) e e' →
    Beside R before .inside x (eval' e') (eval V e) (Same R)

section Expressions

variable {eval' : Expr → Eval Value} {eval : View → Expr → Run Value}
  (he : Evaluates R before eval' eval)

include he in
/-- Arguments are evaluated one after another. -/
theorem beside_arguments {es es' : List Expr} {S : Scopes} {V : View}
    (hes : List.Forall₂ (ExprShape R (Rules.lexical.uses S)) es es') :
    ∀ {x}, Mirrors R before x → Follows x x.machine.current S V →
      Beside R before .inside x (es'.mapM eval') (es.mapM (eval V)) fun vs vs' y =>
        vs = vs' ∧ ∀ v ∈ vs, Proper R y v := by
  induction hes with
  | nil => exact fun hm _ => .pure hm ⟨rfl, by simp⟩
  | cons h _ ih =>
    intro x hm hf
    rw [List.mapM_cons, List.mapM_cons]
    refine (he.beside hm hf h).bind fun v v' y hm₁ hg₁ ⟨hsame, hv⟩ => ?_
    subst hsame
    refine (ih hm₁ (hg₁.follows hm hf)).bind fun vs vs' z hm₂ hg₂ ⟨hsame, hvs⟩ => ?_
    subst hsame
    exact .pure hm₂ ⟨rfl, List.forall_mem_cons.mpr ⟨hg₂.proper hm₁ hv, hvs⟩⟩

include he in
/-- The place of an expression is the same after it. -/
theorem Evaluates.stands {S : Scopes} {V : View} {e e' : Expr} (hm : Mirrors R before x)
    (hf : Follows x x.machine.current S V) (hfull : Full x x.machine.current S)
    (h : ExprShape R (Rules.lexical.uses S) e e') :
    Beside R before .here x (eval' e') (eval V e) fun v v' y => Same R v v' y ∧ Stands S V y :=
  ((he.beside hm hf h).imp fun _ _ _ _ hg hv =>
    ⟨hv, hg.follows hm hf, hg.full hm hf hfull⟩).here

end Expressions

/-! ### One frame more -/

section

variable {host : Host} {n : Nat} (hR : ∀ {t t'}, R t t' → t.Alike t')
  (he : Evaluates R before (Lox.eval host n) (eval host n))
  (hr : Runs R before (Lox.exec host n) (exec host n))

include hR he hr in
theorem Evaluates.succ : Evaluates R before (Lox.eval host (n + 1)) (eval host (n + 1)) := by
  refine ⟨fun {x S V e e'} hm hf h => ?_⟩
  cases h with
  | @literal v =>
    rw [Lox.eval, eval]
    refine .pure hm ⟨rfl, proper_of_ne fun id hv => ?_⟩
    cases v <;> cases hv
  | grouping h =>
    rw [Lox.eval, eval]
    exact he.beside hm hf h
  | unary hop hk h =>
    rw [Lox.eval, eval]
    refine (he.beside hm hf h).bind fun v v' y hm₁ _ ⟨hsame, _⟩ => ?_
    subst hsame
    exact beside_unary hR hm₁ hop hk v
  | binary hl hop hk h =>
    rw [Lox.eval, eval]
    refine (he.beside hm hf hl).bind fun a a' y hm₁ hg₁ ⟨hsame, _⟩ => ?_
    subst hsame
    refine (he.beside hm₁ (hg₁.follows hm hf) h).bind fun b b' z hm₂ _ ⟨hsame, _⟩ => ?_
    subst hsame
    exact beside_binary hR hm₂ hop hk a b
  -- The second operand is evaluated only if the first does not decide.
  | @logical op op' _ _ _ _ hl hop h =>
    rw [Lox.eval, eval]
    refine (he.beside hm hf hl).bind fun a a' y hm₁ hg₁ ⟨hsame, ha⟩ => ?_
    subst hsame
    have hdecides : decides op' a = decides op a := by
      unfold decides
      rw [(hR hop).kind]
    rw [hdecides]
    by_cases hd : decides op a
    · rw [if_pos hd, if_pos hd]
      exact .pure hm₁ ⟨rfl, ha⟩
    · rw [if_neg hd, if_neg hd]
      exact he.beside hm₁ (hg₁.follows hm hf) h
  | var ht _ hu =>
    rw [Lox.eval, eval]
    exact beside_lookup hm hf ht (hR ht).lexeme hu.1 hu.2
  | assign ht hk hu h =>
    rw [Lox.eval, eval]
    refine (he.beside hm hf h).bind fun v v' y hm₁ hg₁ ⟨hsame, hv⟩ => ?_
    subst hsame
    refine (beside_assign hm₁ (hg₁.follows hm hf) ht (hR ht).lexeme hu (ordinary hR ht hk).2
      hv).bind fun _ _ z hm₂ hg₂ _ => ?_
    exact .pure hm₂ ⟨rfl, hg₂.proper hm₁ hv⟩
  | call hc hp hes =>
    rw [Lox.eval, eval]
    refine (he.beside hm hf hc).bind fun c c' y hm₁ hg₁ ⟨hsame, hcallee⟩ => ?_
    subst hsame
    refine (beside_arguments he hes hm₁ (hg₁.follows hm hf)).bind
      fun vs vs' z hm₂ hg₂ ⟨hsame, hvs⟩ => ?_
    subst hsame
    exact beside_call hr hR host hp hm₂ (hg₂.proper hm₁ hcallee) hvs
  | get ho hn =>
    rw [Lox.eval, eval]
    refine (he.beside hm hf ho).bind fun v v' y hm₁ _ ⟨hsame, _⟩ => ?_
    subst hsame
    exact beside_property hm₁ hn (hR hn).lexeme v
  -- What has no fields is refused before the value is evaluated.
  | set ho hn h =>
    rw [Lox.eval, eval]
    refine (he.beside hm hf ho).bind fun o o' y hm₁ hg₁ ⟨hsame, _⟩ => ?_
    subst hsame
    by_cases hfields : hasFields o
    · rw [if_pos hfields, if_pos hfields]
      refine (he.beside hm₁ (hg₁.follows hm hf) h).bind fun v v' z hm₂ _ ⟨hsame, hv⟩ => ?_
      subst hsame
      refine (beside_setProperty hm₂ hn (hR hn).lexeme o hv).bind fun _ _ u hm₃ hg₃ _ => ?_
      exact .pure hm₃ ⟨rfl, hg₃.proper hm₂ hv⟩
    · rw [if_neg hfields, if_neg hfields]
      exact .fail hm₁ hn
  | this ht hk hu =>
    rw [Lox.eval, eval]
    obtain ⟨d, rfl, hsees⟩ := hu
    rw [← (hR ht).spelled.this hk] at hsees
    refine beside_lookup hm hf ht (hR ht).lexeme hsees.1 fun d' hd => ?_
    cases hd
    exact hsees.2
  -- The receiver is one environment closer than the superclass.
  | super _ _ hn hu =>
    rw [Lox.eval, eval]
    obtain ⟨d, hd, hsuper, hthis⟩ := hu
    exact beside_super hm hf hn (hR hn).lexeme hd hsuper hthis

/-- A line is written on both sides. -/
theorem beside_writeLine (hm : Mirrors R before x) (text : String) :
    Beside R before k x (Eval.writeLine text) (lift (Eval.writeLine text)) fun _ _ _ => True := by
  let y : Snapshot :=
    ⟨x.layout, { x.machine with output := x.machine.output ++ text ++ "\n" },
      { x.world with machine :=
        { x.world.machine with output := x.world.machine.output ++ text ++ "\n" } }⟩
  have hbeyond : Beyond x y := ⟨rfl, rfl, rfl, rfl, rfl, rfl, rfl⟩
  have houtput : x.world.machine.output ++ text ++ "\n" =
      before ++ (x.machine.output ++ text ++ "\n") := by
    rw [hm.shares.output, String.append_assoc, String.append_assoc, String.append_assoc]
  have hshares : Shares before y :=
    ⟨hm.shares.classes, hm.shares.instances, hm.shares.arrays, hm.shares.readings, houtput⟩
  exact hbeyond.beside (a := ()) (b := ()) rfl rfl rfl (hbeyond.mirrors hm hshares rfl
    (fun h => hm.values (.field h)) fun h => hm.values (.element h)) trivial

theorem ended_normal {S : Scopes} {V : View} {y : Snapshot} (h : Stands S V y) :
    Ended R S .normal (.normal, V) y :=
  ⟨h, rfl, fun _ hv => nomatch hv⟩

include hR in
/-- A variable is declared.  By distances its name need not be there before the
initializer has been evaluated; in cells it is. -/
theorem beside_variable {name name' : Token} {S : Scopes} {V : View} {p : Eval Value}
    {q : View → Run Value} (hm : Mirrors R before x) (hf : Follows x x.machine.current S V)
    (hfull : Full x x.machine.current S) (hd : S.redeclares name.lexeme = false)
    (hn : R name name') (hk : name.kind = .identifier)
    (hinit : ∀ {y V}, Mirrors R before y → Follows y y.machine.current (S.declare name.lexeme) V →
      Beside R before .inside y p (q V) (Same R)) :
    Beside R before .here x
      (do
        let v ← p
        Eval.define name'.lexeme v
        pure .normal)
      (do
        let V ← V.declare name.lexeme
        let v ← q V
        V.fill name.lexeme v
        pure (.normal, V))
      (Ended R (S.add name.lexeme)) := by
  -- The cell is made before the initial value is evaluated, the binding afterwards.
  obtain ⟨V', y, hrun, hmachine, hm₁, hg₁, hf₁, hfull₁, hdeclared⟩ := declare_step hm hf hfull hd
  refine .after_right hrun hmachine hg₁ (Beside.here ?_)
  refine (hinit hm₁ hf₁).bind fun v v' z hm₂ hg₂ ⟨hsame, hv⟩ => ?_
  subst hsame
  rw [← (hR hn).lexeme]
  refine (beside_fill hm₂ (hg₂.follows hm₁ hf₁) hdeclared
    (fun h => absurd h (ordinary hR hn hk).2) hv (hg₂.full hm₁ hf₁ hfull₁)).bind
    fun _ _ u hm₃ _ ⟨hf₃, hfull₃⟩ => ?_
  exact .pure hm₃ (ended_normal ⟨hf₃, hfull₃⟩)

include hr in
/-- The statements of a block run in an environment of their own. -/
theorem beside_block {body body' : List Stmt} {S T : Scopes} {V : View} (hm : Mirrors R before x)
    (hf : Follows x x.machine.current S V) (hfull : Full x x.machine.current S)
    (hb : BodyShape R .lexical (Bindings.empty :: S) body body' T) :
    Beside R before .here x
      (do
        let current := (← get).current
        let env ← Eval.make (·.newEnvironment (some current))
        Eval.inEnvironment env (Lox.runAll (Lox.exec host n) body'))
      (do
        let completion ← runAll (exec host n) ⟨true, V.names⟩ body
        pure (completion, V))
      (Ended R S) := by
  -- The evaluator of cells opens no environment; only the list of names is put back.
  have hroot := hm.stores.root
  have hlater := enclose_later x x.machine.current
  have hmz := enclose_mirrors hm x.machine.current
  have hfz := follows_enclose hf hroot
  have hfullz := full_enclose hm.stores x.machine.current S
  have hbody := beside_inEnvironment (x := x) (z := x.enclose x.machine.current) x.size
    (p := do
      let current := (← get).current
      let env ← Eval.make (·.newEnvironment (some current))
      Eval.inEnvironment env (Lox.runAll (Lox.exec host n) body'))
    (q := runAll (exec host n) ⟨true, V.names⟩ body) rfl rfl
    ⟨hlater, rfl, fun _ _ _ => rfl⟩ (Nat.le_refl _)
    (beside_runAll hr (enter_mirrors hmz _) (hfz.mono (enter_later _ _) hmz.stores.root) hfullz hb)
  refine Beside.here (hbody.map_right (g := fun completion => (completion, V))
    fun c c' y _ hg ⟨y', hm', ⟨hsame, hproper⟩, hlater'⟩ => ?_)
  exact ⟨⟨hg.follows hm hf, hg.full hm hf hfull⟩, hsame,
    fun v hv => (hproper v hv).mono hlater' hm'.stores.root⟩

include he hr in
/-- A loop runs side by side. -/
theorem beside_loop {e e' : Expr} {s s' : Stmt} {S : Scopes} {V : View}
    (hm : Mirrors R before x) (hf : Follows x x.machine.current S V)
    (hfull : Full x x.machine.current S) (h : ExprShape R (Rules.lexical.uses S) e e')
    (hs : StmtShape R .lexical S s s' S) :
    Beside R before .here x
      (Lox.iterate (do return (← Lox.eval host n e').isTruthy) (Lox.exec host n s') host.turns)
      (do
        let completion ← iterate (do return (← eval host n V e).isTruthy)
          (Prod.fst <$> exec host n V s) host.turns
        pure (completion, V))
      (Ended R S) := by
  have hcondition : ∀ {x}, Mirrors R before x → Follows x x.machine.current S V →
      Full x x.machine.current S →
      Beside R before .here x (do return (← Lox.eval host n e').isTruthy)
        (do return (← eval host n V e).isTruthy) fun b b' y =>
          b = b' ∧ Follows y y.machine.current S V ∧ Full y y.machine.current S := by
    intro x hm hf hfull
    refine (he.stands hm hf hfull h).bind fun v v' y hm₁ _ ⟨⟨hsame, _⟩, hf₁, hfull₁⟩ => ?_
    exact .pure hm₁ ⟨congrArg Value.isTruthy hsame, hf₁, hfull₁⟩
  have hbody : ∀ {x}, Mirrors R before x → Follows x x.machine.current S V →
      Full x x.machine.current S →
      Beside R before .here x (Lox.exec host n s') (Prod.fst <$> exec host n V s) fun c c' y =>
        Closed R c c' y ∧ Follows y y.machine.current S V ∧ Full y y.machine.current S := by
    intro x hm hf hfull
    rw [map_eq_pure_bind]
    -- The view after the body may be another, but the one before it still fits.
    exact (hr.beside hm hf hfull hs).map_right fun c r y _ hg hend =>
      ⟨⟨hend.same, hend.proper⟩, hg.follows hm hf, hend.full⟩
  exact (beside_iterate hcondition hbody host.turns hm hf hfull).map_right
    fun c c' y _ _ ⟨⟨hsame, hproper⟩, hf₁, hfull₁⟩ => ⟨⟨hf₁, hfull₁⟩, hsame, hproper⟩

include hR he hr in
theorem Runs.succ : Runs R before (Lox.exec host (n + 1)) (exec host (n + 1)) := by
  refine ⟨fun {x S T V s s'} hm hf hfull h => ?_⟩
  cases h with
  | expression h =>
    rw [Lox.exec, exec]
    refine (he.stands hm hf hfull h).bind fun _ _ y hm₁ _ ⟨_, hst⟩ => ?_
    exact .pure hm₁ (ended_normal hst)
  -- The text comes from the heap of values that both sides share.
  | print h =>
    rw [Lox.exec, exec]
    refine Beside.here (.bind (he.beside hm hf h) fun v v' y hm₁ hg₁ ⟨hsame, _⟩ => ?_)
    subst hsame
    refine .ask_left (.ask_right ?_)
    rw [hm₁.display?_eq hR]
    cases y.machine.heap.display? n v with
    | none => exact .throw hm₁ .exhausted
    | some text =>
      have hf₁ := hg₁.follows hm hf
      have hfull₁ := hg₁.full hm hf hfull
      refine (beside_writeLine hm₁ text).bind fun _ _ z hm₂ hg₂ _ => ?_
      exact .pure hm₂ (ended_normal ⟨hg₂.follows hm₁ hf₁, hg₂.full hm₁ hf₁ hfull₁⟩)
  | plain hn hk hd =>
    rw [Lox.exec, exec]
    exact beside_variable hR (q := fun _ => pure .nil) hm hf hfull hd hn hk
      fun hm _ => .pure hm ⟨rfl, proper_nil⟩
  | initialized hn hk hd h =>
    rw [Lox.exec, exec]
    exact beside_variable hR hm hf hfull hd hn hk fun hm hf => he.beside hm hf h
  | block hb =>
    rw [Lox.exec, exec]
    exact beside_block hr hm hf hfull hb
  | ifAlone h hs =>
    rw [Lox.exec, exec]
    refine (he.stands hm hf hfull h).bind fun v v' y hm₁ _ ⟨⟨hsame, _⟩, hf₁, hfull₁⟩ => ?_
    subst hsame
    by_cases hv : v.isTruthy
    · rw [if_pos hv, if_pos hv]
      exact hr.beside hm₁ hf₁ hfull₁ hs
    · rw [if_neg hv, if_neg hv]
      exact .pure hm₁ (ended_normal ⟨hf₁, hfull₁⟩)
  | ifElse h hs ht =>
    rw [Lox.exec, exec]
    refine (he.stands hm hf hfull h).bind fun v v' y hm₁ _ ⟨⟨hsame, _⟩, hf₁, hfull₁⟩ => ?_
    subst hsame
    by_cases hv : v.isTruthy
    · rw [if_pos hv, if_pos hv]
      exact hr.beside hm₁ hf₁ hfull₁ hs
    · rw [if_neg hv, if_neg hv]
      exact hr.beside hm₁ hf₁ hfull₁ ht
  | whileLoop h hs =>
    rw [Lox.exec, exec]
    exact beside_loop he hr hm hf hfull h hs
  | breakLoop _ =>
    rw [Lox.exec, exec]
    exact .pure hm ⟨⟨hf, hfull⟩, rfl, fun _ hv => nomatch hv⟩
  | funDecl hd hs =>
    rw [Lox.exec, exec]
    refine (beside_declareFunction hR hm hf hfull hd hs).bind fun _ V' y hm₁ _ hst => ?_
    exact .pure hm₁ (ended_normal hst)
  | returned _ =>
    rw [Lox.exec, exec]
    refine .pure hm ⟨⟨hf, hfull⟩, rfl, ?_⟩
    rintro _ ⟨⟩
    exact proper_nil
  | returnedWith _ h =>
    rw [Lox.exec, exec]
    refine (he.stands hm hf hfull h).bind fun v v' y hm₁ _ ⟨⟨hsame, hproper⟩, hst⟩ => ?_
    subst hsame
    refine .pure hm₁ ⟨hst, rfl, ?_⟩
    rintro _ ⟨⟩
    exact hproper
  | classDecl hn hk hd hms =>
    rw [Lox.exec, exec]
    refine (beside_declareClass hR hm hf hfull hd hn hk none hms).bind fun _ V' y hm₁ _ hst => ?_
    exact .pure hm₁ (ended_normal hst)
  -- The superclass is looked up before the name of the class is declared.
  | subclass hn hk hd ht _ hu hms =>
    rw [Lox.exec, exec]
    refine Beside.bind (Q := fun v v' y => Same R v v' y ∧ Stands S V y) ?_
      fun v v' y hm₁ _ ⟨⟨hsame, _⟩, hf₁, hfull₁⟩ => ?_
    · exact ((beside_lookup hm hf ht (hR ht).lexeme hu.1 hu.2).imp fun _ _ _ _ hg hv =>
        ⟨hv, hg.follows hm hf, hg.full hm hf hfull⟩).here
    · subst hsame
      cases v with
      | classRef parent =>
        refine (beside_declareClass hR hm₁ hf₁ hfull₁ hd hn hk (some parent) hms).bind
          fun _ V' z hm₂ _ hst => ?_
        exact .pure hm₂ (ended_normal hst)
      | _ => exact .fail hm₁ ht

end

section

variable (hR : ∀ {t t'}, R t t' → t.Alike t')

include hR in
/-- With as many frames, expressions and statements run side by side. -/
theorem evaluates_and_runs (host : Host) (n : Nat) :
    Evaluates R before (Lox.eval host n) (eval host n) ∧
      Runs R before (Lox.exec host n) (exec host n) := by
  induction n with
  | zero =>
    refine ⟨⟨fun hm _ _ => ?_⟩, ⟨fun hm _ _ _ => ?_⟩⟩
    · rw [Lox.eval, eval]
      exact .throw hm .exhausted
    · rw [Lox.exec, exec]
      exact .throw hm .exhausted
  | succ n ih => exact ⟨ih.1.succ hR ih.2, ih.2.succ hR ih.1⟩

end

end Lox.Lexical
