/-
Calls and declarations side by side.

A call makes an environment for the parameters and the body on one side, and
puts new cells in front of a view on the other.  What the body declares stays
inside the new environment, so the names around the call are as they were.

* `Runs` — statements run side by side;
* `beside_inEnvironment`, `enter_spec` — a new environment and what runs in it;
* `beside_apply`, `beside_call` — calls;
* `beside_declareFunction`, `beside_declareClass` — declarations.
-/
import Lox.Proofs.Objects

namespace Lox.Lexical

open Scope

variable {R : Token → Token → Prop} {before : String} {k : Extent} {x y : Snapshot}

/-! ### Where computations go on -/

theorem Grows.follows {S : Scopes} {V : View} (h : Grows k x y) (hm : Mirrors R before x)
    (hf : Follows x x.machine.current S V) : Follows y y.machine.current S V := by
  rw [h.current]
  exact hf.mono h.toLater hm.stores.root

theorem Grows.full {S : Scopes} {V : View} (h : Grows .inside x y) (hm : Mirrors R before x)
    (hf : Follows x x.machine.current S V) (hfull : Full x x.machine.current S) :
    Full y y.machine.current S := by
  rw [h.current]
  exact hfull.mono h (hf.lt_size hm.stores.root)

theorem Grows.proper {v : Value} (h : Grows k x y) (hm : Mirrors R before x)
    (hv : Proper R x v) : Proper R y v :=
  hv.mono h.toLater hm.stores.root

/-- A result of the second computation is put into another form. -/
theorem Beside.map_right {α β γ : Type} {p : Eval α} {q : Run β} {Q : α → β → Snapshot → Prop}
    {P : α → γ → Snapshot → Prop} {g : β → γ} (h : Beside R before k x p q Q)
    (hf : ∀ a b y, Mirrors R before y → Grows k x y → Q a b y → P a (g b) y) :
    Beside R before k x p (q >>= fun b => Pure.pure (g b)) P := by
  have hp : p >>= Pure.pure = p := bind_pure p
  rw [← hp]
  exact h.bind fun a b y hm hg hQ => .pure hm (hf a b y hm hg hQ)

/-! ### New environments -/

/-- A computation runs in a new environment. -/
theorem beside_inEnvironment {α β : Type} {z : Snapshot} (env : Nat) {p p' : Eval α}
    {q q' : Run β} {Q : α → β → Snapshot → Prop}
    (hp : p x.machine = Eval.inEnvironment env p' z.machine) (hq : q x.world = q' z.world)
    (hg : Grows .inside x z) (henv : x.size ≤ env)
    (h : Beside R before .here (z.enter env) p' q' Q) :
    Beside R before .inside x p q fun a b y =>
      ∃ y', Mirrors R before y' ∧ Q a b y' ∧ Later y' y := by
  -- The environments that were there before the new one get no names.
  have hback : ∀ {y' : Snapshot}, Grows .here (z.enter env) y' →
      Grows .inside x (y'.enter z.machine.current) := by
    intro y' hy
    refine ⟨((hg.toLater.trans (enter_later z env)).trans hy.toLater).trans (enter_later y' _),
      hg.current, fun {e} he _ name => ?_⟩
    have hz : y'.layout e name = z.layout e name :=
      hy.frame (Nat.lt_of_lt_of_le he hg.size)
        (.inr (Nat.ne_of_lt (Nat.lt_of_lt_of_le he henv))) name
    exact hz.trans (hg.frame he (.inl rfl) name)
  unfold Eval.inEnvironment at hp
  rcases h with ⟨a, b, y', hp', hq', hm, hy, hQ⟩ | ⟨e, e', y', hp', hq', hm, hy, he⟩
  · change p' { z.machine with current := env } = _ at hp'
    rw [hp'] at hp
    exact .inl ⟨a, b, y'.enter z.machine.current, hp, hq.trans hq', enter_mirrors hm _, hback hy,
      y', hm, hQ, enter_later y' _⟩
  · change p' { z.machine with current := env } = _ at hp'
    rw [hp'] at hp
    exact .inr ⟨e, e', y'.enter z.machine.current, hp, hq.trans hq', enter_mirrors hm _, hback hy,
      he⟩

/-- The bindings of some names and values, added to others. -/
def bindAll (b : Bindings Value) (pairs : List (Token × Value)) : Bindings Value :=
  pairs.foldl (fun b (p, v) => b.set p.lexeme v) b

/-- Parameters are bound one after another in the newest environment. -/
theorem bindAll_spec {f : Forest} {o : Option Nat} {S : Scopes} {params params' : List Token}
    (hp : List.Forall₂ (fun p p' : Token => p.lexeme = p'.lexeme) params params') :
    ∀ {arguments : List Value} {z : Snapshot} {V : View} {scope : Names} {b : Bindings Value},
      params.length = arguments.length → Mirrors R before z →
      Follows z f.size (scope :: S) V → Full z f.size (scope :: S) →
      Rules.lexical.DeclaresAll (scope :: S) params → (∀ p ∈ params, p.lexeme ≠ "super") →
      (∀ v ∈ arguments, Proper R z v) → z.machine.heap.environments = Array.push f ⟨o, b⟩ →
      ∃ V' y, (V.extendAll (params.zip arguments)) z.world = .ok V' y.world ∧
        y.machine = { z.machine with heap := { z.machine.heap with
          environments := Array.push f ⟨o, bindAll b (params'.zip arguments)⟩ } } ∧
        Mirrors R before y ∧ Later z y ∧
        Follows y f.size (params.foldl (fun s p => s.add p.lexeme) (scope :: S)) V' ∧
        Full y f.size (params.foldl (fun s p => s.add p.lexeme) (scope :: S)) ∧
        ∀ e', e' ≠ f.size → ∀ other, y.layout e' other = z.layout e' other := by
  -- By induction on the parameters: each adds a cell in front, and the map of the one new
  -- environment grows along.
  induction hp with
  | nil =>
    intro arguments z V scope b _ hm hf hfull _ _ _ henv
    refine ⟨V, z, rfl, ?_, hm, .refl z, hf, hfull, fun _ _ _ => rfl⟩
    change z.machine = { z.machine with heap := { z.machine.heap with
      environments := Array.push f ⟨o, b⟩ } }
    rw [← henv]
  | @cons p p' params params' hname _ ih =>
    intro arguments z V scope b hlen hm hf hfull hd hsuper hargs henv
    cases arguments with
    | nil => cases hlen
    | cons v arguments =>
      rw [List.forall_mem_cons] at hsuper hargs
      obtain ⟨hm', hlater, hf', hfull', hframe⟩ := bindNew_spec (v := v) hm hf hfull hd.1
        (fun h => absurd h hsuper.1) hargs.1
      have henv' : (z.bindNew f.size p.lexeme v).machine.heap.environments =
          Array.push f ⟨o, b.set p'.lexeme v⟩ := by
        rw [Forest.push_set, ← hname, ← henv]
        rfl
      obtain ⟨V', y, hrun, hmachine, hmy, hlater', hfy, hfully, hframe'⟩ :=
        ih (Nat.succ.inj hlen) hm' hf' hfull' hd.2 hsuper.2
          (fun w hw => (hargs.2 w hw).mono hlater hm.stores.root) henv'
      refine ⟨V', y, ?_, ?_, hmy, hlater.trans hlater', hfy, hfully, fun e' he' other => ?_⟩
      · rw [bindNew_world] at hrun
        exact hrun
      · rw [hmachine]
        rfl
      · rw [hframe' e' he' other, hframe e' he' other]

/-- The environment of a call binds its parameters. -/
theorem enter_spec {p : Nat} {S : Scopes} {V : View} {params params' : List Token}
    {arguments : List Value} (hm : Mirrors R before x) (hf : Follows x p S V)
    (hp : List.Forall₂ (fun p p' : Token => p.lexeme = p'.lexeme) params params')
    (hlen : params.length = arguments.length)
    (hd : Rules.lexical.DeclaresAll (Bindings.empty :: S) params)
    (hsuper : ∀ p ∈ params, p.lexeme ≠ "super") (hargs : ∀ v ∈ arguments, Proper R x v) :
    ∃ V' z, x.machine.heap.newEnvironment (some p) (bindParams params' arguments)
        = (x.size, z.machine.heap) ∧
      z.machine = { x.machine with heap := z.machine.heap } ∧
      (View.extendAll ⟨true, V.names⟩ (params.zip arguments)) x.world = .ok V' z.world ∧
      Mirrors R before z ∧ Grows .inside x z ∧ Follows z x.size (S.enter params) V' ∧
      Full z x.size (S.enter params) := by
  have hroot := hm.stores.root
  have hlater := enclose_later x p
  obtain ⟨V', z, hrun, hmachine, hmz, hlater', hfz, hfullz, hframe⟩ :=
    bindAll_spec (f := x.machine.heap.environments) (b := {}) hp hlen (enclose_mirrors hm p)
      (follows_enclose hf hroot) (full_enclose hm.stores p S) hd hsuper
      (fun v hv => (hargs v hv).mono hlater hroot) rfl
  -- All that a call makes is the environment of its parameters.
  refine ⟨V', z, ?_, ?_, hrun, hmz, ⟨hlater.trans hlater', ?_, ?_⟩, hfz, hfullz⟩
  · rw [hmachine]
    rfl
  · rw [hmachine]
    rfl
  · rw [hmachine]
    rfl
  · intro e he _ other
    exact hframe e (Nat.ne_of_lt he) other

/-! ### Sequences and loops -/

/-- The environments from the current one on, with all their names, are the
scopes around a place. -/
structure Stands (T : Scopes) (V : View) (y : Snapshot) : Prop where
  follows : Follows y y.machine.current T V
  full : Full y y.machine.current T

/-- A statement ends alike on both sides, and the names around the place after it
are those of the given scopes. -/
structure Ended (R : Token → Token → Prop) (T : Scopes) (c : Completion) (r : Completion × View)
    (y : Snapshot) : Prop extends Stands T r.2 y where
  same : c = r.1
  proper : ∀ v, c = .returned v → Proper R y v

/-- A sequence of statements, or a loop, ends alike on both sides. -/
def Closed (R : Token → Token → Prop) (c c' : Completion) (y : Snapshot) : Prop :=
  c = c' ∧ ∀ v, c = .returned v → Proper R y v

/-- Statements of the same shape run side by side. -/
structure Runs (R : Token → Token → Prop) (before : String) (run' : Stmt → Eval Completion)
    (run : Runner) : Prop where
  beside : ∀ {x S T V s s'}, Mirrors R before x → Follows x x.machine.current S V →
    Full x x.machine.current S → StmtShape R .lexical S s s' T →
    Beside R before .here x (run' s') (run V s) (Ended R T)

section Calls

variable {run' : Stmt → Eval Completion} {run : Runner} (hr : Runs R before run' run)

include hr in
theorem beside_runAll {body body' : List Stmt} : ∀ {x : Snapshot} {S T : Scopes} {V : View},
    Mirrors R before x → Follows x x.machine.current S V → Full x x.machine.current S →
    BodyShape R .lexical S body body' T →
    Beside R before .here x (Lox.runAll run' body') (runAll run V body) (Closed R) := by
  induction body generalizing body' with
  | nil =>
    rintro x S _ V hm hf hfull ⟨⟩
    exact .pure hm ⟨rfl, fun _ h => nomatch h⟩
  | cons s body ih =>
    rintro x S U V hm hf hfull (_ | ⟨hs, hb⟩)
    refine (hr.beside hm hf hfull hs).bind fun c r y hm' hg h => ?_
    obtain ⟨c', V'⟩ := r
    obtain ⟨⟨hf', hfull'⟩, rfl, hproper⟩ := h
    cases c with
    | normal => exact ih hm' hf' hfull' hb
    | broke => exact .pure hm' ⟨rfl, hproper⟩
    | returned v => exact .pure hm' ⟨rfl, hproper⟩

/-- Loops run side by side when their conditions and bodies do, wherever the
names are as they were. -/
theorem beside_iterate {condition' : Eval Bool} {condition : Run Bool}
    {body' : Eval Completion} {body : Run Completion} {S : Scopes} {V : View}
    (hc : ∀ {x}, Mirrors R before x → Follows x x.machine.current S V →
      Full x x.machine.current S → Beside R before .here x condition' condition fun b b' y =>
        b = b' ∧ Follows y y.machine.current S V ∧ Full y y.machine.current S)
    (hb : ∀ {x}, Mirrors R before x → Follows x x.machine.current S V →
      Full x x.machine.current S → Beside R before .here x body' body fun c c' y =>
        Closed R c c' y ∧ Follows y y.machine.current S V ∧ Full y y.machine.current S)
    (turns : Nat) : ∀ {x}, Mirrors R before x → Follows x x.machine.current S V →
      Full x x.machine.current S →
      Beside R before .here x (Lox.iterate condition' body' turns) (iterate condition body turns)
        fun c c' y => Closed R c c' y ∧ Follows y y.machine.current S V ∧
          Full y y.machine.current S := by
  -- By induction on the turns that are left; one that ends normally is followed by another.
  induction turns with
  | zero => exact fun hm _ _ => .throw hm .unfinished
  | succ turns ih =>
    intro x hm hf hfull
    refine (hc hm hf hfull).bind fun b b' y hm₁ _ ⟨hsame, hf₁, hfull₁⟩ => ?_
    subst hsame
    cases b with
    | false => exact .pure hm₁ ⟨⟨rfl, fun _ h => nomatch h⟩, hf₁, hfull₁⟩
    | true =>
      refine (hb hm₁ hf₁ hfull₁).bind fun c c' z hm₂ _ ⟨⟨hsame, hproper⟩, hf₂, hfull₂⟩ => ?_
      subst hsame
      cases c with
      | normal => exact ih hm₂ hf₂ hfull₂
      | broke => exact .pure hm₂ ⟨⟨rfl, fun _ h => nomatch h⟩, hf₂, hfull₂⟩
      | returned v => exact .pure hm₂ ⟨⟨rfl, hproper⟩, hf₂, hfull₂⟩

/-! ### Calls -/

variable (hR : ∀ {t t'}, R t t' → t.Alike t')

include hR in
theorem ordinary_of_forall₂ {params params' : List Token} (hp : List.Forall₂ R params params')
    (hk : ∀ p ∈ params, p.kind = .identifier) :
    List.Forall₂ (fun p p' : Token => p.lexeme = p'.lexeme) params params' ∧
      ∀ p ∈ params, p.lexeme ≠ "super" :=
  ⟨hp.imp fun _ _ h => (hR h).lexeme, fun p hmem => (ordinary_params hR hp hk p hmem).2⟩

include hr hR in
/-- A body runs alike in a new environment for the parameters and the cells in
front of the view. -/
theorem beside_body {scope : Nat} {S T : Scopes} {V : View} {params params' : List Token}
    {body body' : List Stmt} {arguments : List Value} (hm : Mirrors R before x)
    (hf : Follows x scope S V) (hp : List.Forall₂ R params params')
    (hkp : ∀ p ∈ params, p.kind = .identifier)
    (hd : Rules.lexical.DeclaresAll (Bindings.empty :: S) params)
    (hb : BodyShape R .lexical (S.enter params) body body' T)
    (hargs : ∀ v ∈ arguments, Proper R x v) (hlen : arguments.length = params'.length) :
    Beside R before .inside x
      (Eval.make (·.newEnvironment (some scope) (bindParams params' arguments)) >>= fun env =>
        Eval.inEnvironment env (Lox.runAll run' body'))
      (View.extendAll ⟨true, V.names⟩ (params.zip arguments) >>= fun inner =>
        runAll run inner body) (Closed R) := by
  obtain ⟨hlexemes, hsuper⟩ := ordinary_of_forall₂ hR hp hkp
  obtain ⟨V', z, henv, hmachine, hextend, hmz, hgz, hfz, hfullz⟩ :=
    enter_spec hm hf hlexemes (hp.length_eq.trans hlen.symm) hd hsuper hargs
  have hmake : Eval.make (·.newEnvironment (some scope) (bindParams params' arguments)) x.machine
      = .ok x.size z.machine := by
    change EStateM.Result.ok
      (x.machine.heap.newEnvironment (some scope) (bindParams params' arguments)).1
      { x.machine with heap :=
          (x.machine.heap.newEnvironment (some scope) (bindParams params' arguments)).2 } = _
    rw [henv, ← hmachine]
  -- The body is run in the new environment, which the view of the parameters follows.
  have hinside := beside_runAll hr (enter_mirrors hmz _)
    (hfz.mono (enter_later z _) hmz.stores.root) hfullz hb
  refine (beside_inEnvironment (z := z) x.size ?_ ?_ hgz (Nat.le_refl _) hinside).imp ?_
  · change EStateM.bind _ _ _ = _
    rw [EStateM.bind, hmake]
  · change EStateM.bind _ _ _ = _
    rw [EStateM.bind, hextend]
  · rintro c c' y - - ⟨y', hm', ⟨rfl, hproper⟩, hlater⟩
    exact ⟨rfl, fun v hv => (hproper v hv).mono hlater hm'.stores.root⟩

include hr hR in
/-- A function that can be called is run alike on both sides. -/
theorem beside_apply {id : Nat} {arguments : List Value} (hm : Mirrors R before x)
    (hc : Callable R x id) (hargs : ∀ v ∈ arguments, Proper R x v)
    (hlen : arguments.length = x.machine.heap.functionArity id) :
    Beside R before .inside x (Lox.applyFunction run' id arguments)
      (applyFunction run id arguments) (Same R) := by
  unfold Lox.applyFunction applyFunction
  refine .ask_left (.ask_right (.get_right ?_))
  obtain ⟨hid, S, hf, hshape, hinit, hthis⟩ := hc
  unfold Heap.functionArity at hlen
  -- From here on only the two closures and the view matter, not where they were found.
  generalize hclosure : x.machine.heap.closure id = c at *
  generalize horigin : x.world.machine.heap.closure id = c₀ at *
  generalize hview : x.world.view id = V at *
  obtain ⟨declaration, scope, isInit⟩ := c
  obtain ⟨declaration₀, scope₀, isInit₀⟩ := c₀
  obtain ⟨hn, hk, hp, hkp, hd, hb⟩ := hshape
  rename_i T name name' params params' body body'
  have hbody := beside_body hr hR hm hf hp hkp hd hb hargs hlen
  rw [← bind_assoc, ← bind_assoc]
  refine hbody.bind fun c c' y hm' hg ⟨hsame, hproper⟩ => ?_
  subst hsame
  change isInit₀ = isInit at hinit
  subst hinit
  cases isInit₀ with
  -- An initializer gives the receiver, which its view still has in the cell of `this`.
  | true =>
    rw [if_pos rfl, if_pos rfl]
    obtain ⟨e, cell, receiver, -, -, hcell, hvalue, hreceiver, hat⟩ :=
      (hf.mono hg.toLater hm.stores.root).value hm' (hthis rfl)
    rw [hcell]
    refine .ask_left (.get_right ?_)
    rw [hvalue]
    have hfound : y.machine.heap.environments.getAt scope 0 "this" = .ok receiver := hat
    rw [hfound]
    exact .pure hm' ⟨rfl, hreceiver⟩
  | false =>
    rw [if_neg Bool.false_ne_true, if_neg Bool.false_ne_true]
    cases c with
    | returned v => exact .pure hm' ⟨rfl, hproper v rfl⟩
    | _ => exact .pure hm' ⟨rfl, proper_of_ne fun _ h => nomatch h⟩

include hr hR in
/-- An instance is made and initialized alike on both sides. -/
theorem beside_construct {classId : Nat} {arguments : List Value} (hm : Mirrors R before x)
    (hargs : ∀ v ∈ arguments, Proper R x v)
    (hlen : x.machine.heap.arity? (.classRef classId) = some arguments.length) :
    Beside R before .inside x (Lox.construct run' classId arguments)
      (construct run classId arguments) (Same R) := by
  unfold Lox.construct construct
  refine (beside_newInstance hm classId).bind fun id id' y hm₁ hg₁ hmade => ?_
  obtain ⟨rfl, hclasses, hfuns⟩ := hmade
  have hobject : ∀ {z}, Proper R z (.object id) := proper_of_ne (by simp)
  refine .ask_left (.ask_right ?_)
  rw [hm₁.findMethod?_eq, findMethod?_congr hclasses]
  -- Without an initializer the new object is the result; with one, it is called first.
  cases hfind : x.machine.heap.findMethod? classId "init" with
  | none => exact .pure hm₁ ⟨rfl, hobject⟩
  | some m =>
    simp only [Heap.arity?, hfind] at hlen
    have hmethod : IsMethod R y m := by
      rw [← findMethod?_congr hclasses] at hfind
      exact hm₁.isMethod_of_findMethod? _ hfind
    have hargs₁ : ∀ v ∈ arguments, Proper R y v := fun v hv => hg₁.proper hm (hargs v hv)
    refine (beside_bind hm₁ hmethod hobject).bind fun init init' z hm₂ hg₂ hbound => ?_
    obtain ⟨rfl, hc, ha⟩ := hbound
    have hlen₂ : arguments.length = z.machine.heap.functionArity init := by
      rw [ha]
      unfold Heap.functionArity Heap.closure
      rw [hfuns]
      exact (Option.some.inj hlen).symm
    refine (beside_apply hr hR hm₂ hc (fun v hv => hg₂.proper hm₁ (hargs₁ v hv)) hlen₂).bind
      fun _ _ _ hm₃ _ _ => ?_
    exact .pure hm₃ ⟨rfl, hobject⟩

include hr hR in
/-- A value is called alike on both sides. -/
theorem beside_call (host : Host) {paren paren' : Token} (hp : R paren paren') {callee : Value}
    {arguments : List Value} (hm : Mirrors R before x) (hc : Proper R x callee)
    (hargs : ∀ v ∈ arguments, Proper R x v) :
    Beside R before .inside x (Lox.callValue host run' paren' callee arguments)
      (callValue host run paren callee arguments) (Same R) := by
  unfold Lox.callValue callValue
  refine .ask_left (.ask_right ?_)
  rw [hm.arity?_eq hR]
  cases harity : x.machine.heap.arity? callee with
  | none => exact .fail hm hp
  | some arity =>
    by_cases hlen : arguments.length ≠ arity
    · change Beside R before .inside x (if arguments.length ≠ arity then _ else _)
        (if arguments.length ≠ arity then _ else _) _
      rw [if_pos hlen, if_pos hlen]
      exact .fail hm hp
    · change Beside R before .inside x (if arguments.length ≠ arity then _ else _)
        (if arguments.length ≠ arity then _ else _) _
      rw [if_neg hlen, if_neg hlen]
      refine .catchExhausted hp ?_
      rw [← not_not.mp hlen] at harity
      -- What has an arity is a native function, a function or a class.
      cases callee with
      | native f => exact beside_native host hm hp f hargs
      | function id => exact beside_apply hr hR hm (hc id rfl) hargs (Option.some.inj harity).symm
      | classRef id => exact beside_construct hr hR hm hargs harity
      | _ => cases harity

end Calls

/-! ### Declarations -/

section Declarations

variable (hR : ∀ {t t'}, R t t' → t.Alike t')

theorem declared_add {S : Scopes} {name : String}
    (h : S.declare name = [] ∨ (S.declare name).redeclares name = true) :
    S.add name = [] ∨ (S.add name).redeclares name = true := by
  cases S with
  | nil => exact .inl rfl
  | cons scope outer =>
    rcases h with h | h
    · cases h
    · refine .inr ?_
      change ((scope.set name false).set name true).binds name = true
      rw [Bindings.binds_set]
      simp

/-- A value that a name gets before the function of that name is made is of no
account. -/
theorem define_absorb (name : String) (c : Closure) (u : Value) :
    (do
      Eval.define name u
      let id ← Eval.make (·.newFunction c)
      Eval.define name (.function id)) =
      (do
        let id ← Eval.make (·.newFunction c)
        Eval.define name (.function id)) := by
  funext m
  change EStateM.Result.ok () ({ m with heap := { m.heap with
      environments := (m.heap.environments.define m.current name u).define m.current name
        (.function m.heap.functions.size)
      functions := m.heap.functions.push c } } : Machine) = _
  rw [Forest.define_define]
  rfl

theorem fill_absorb (V : View) (name : String) (f : Function) (u : Value) :
    (do
      V.fill name u
      let id ← newFunction f false V
      V.fill name (.function id)) =
      (do
        let id ← newFunction f false V
        V.fill name (.function id)) := by
  funext w
  unfold View.fill
  -- The value put first is overwritten in the same place, a global or a cell.
  cases V.cell? name with
  | none =>
    change EStateM.Result.ok () ({ w with
      machine := { w.machine with heap := { w.machine.heap with
        functions := w.machine.heap.functions.push { declaration := f, scope := 0 } } }
      globals := (w.globals.set name u).set name (.function w.machine.heap.functions.size)
      views := w.views.push V } : World) = _
    rw [Bindings.set_set]
    rfl
  | some c =>
    change EStateM.Result.ok () ({ w with
      machine := { w.machine with heap := { w.machine.heap with
        functions := w.machine.heap.functions.push { declaration := f, scope := 0 } } }
      cells := (w.cells.setIfInBounds c u).setIfInBounds c
        (.function w.machine.heap.functions.size)
      views := w.views.push V } : World) = _
    rw [Array.setIfInBounds_setIfInBounds]
    rfl

/-- A function is made in an environment, and keeps the view that follows it. -/
theorem beside_newFunction {f f' : Function} {scope : Nat} {V : View}
    {isInit : Bool} (hm : Mirrors R before x)
    (hnew : let c : Closure := { declaration := f', scope, isInit }
      let c₀ : Closure := { declaration := f, scope := 0, isInit }
      Callable R (x.addFunction c c₀ V) x.functionCount ∨
        IsMethod R (x.addFunction c c₀ V) x.functionCount) :
    Beside R before .inside x (Eval.make (·.newFunction { declaration := f', scope, isInit }))
      (newFunction f isInit V) fun id id' y => id = id' ∧ id = x.functionCount ∧
        y = x.addFunction { declaration := f', scope, isInit }
          { declaration := f, scope := 0, isInit } V := by
  refine .step (a := x.functionCount) (b := x.functionCount) (y := x.addFunction _ _ V) rfl ?_
    (addFunction_mirrors hm hnew) ⟨addFunction_later hm.codes _ _ V, rfl, fun _ _ _ => rfl⟩
    ⟨rfl, rfl, rfl⟩
  rw [← hm.codes.functions]
  rfl

include hR in
/-- A function is declared. -/
theorem beside_declareFunction {f f' : Function} {S : Scopes} {V : View}
    (hm : Mirrors R before x) (hf : Follows x x.machine.current S V)
    (hfull : Full x x.machine.current S) (hd : S.redeclares f.name.lexeme = false)
    (hs : FunctionShape R .lexical (S.add f.name.lexeme) f f') :
    Beside R before .here x (Lox.declareFunction f') (declareFunction V f)
      fun _ V' y => Stands (S.add f.name.lexeme) V' y := by
  obtain ⟨hn, hk⟩ := hs.name
  have hname : f'.name.lexeme = f.name.lexeme := (hR hn).lexeme.symm
  have hfitting : ∀ v, Fitting f.name.lexeme v := fun v h => absurd h (ordinary hR hn hk).2
  obtain ⟨V', y, hrun, hmachine, hm₁, hg₁, hf₁, hfull₁, hdeclared⟩ := declare_step hm hf hfull hd
  unfold Lox.declareFunction declareFunction
  refine .after_right hrun hmachine hg₁ (.get_left ?_)
  -- The name could as well be bound before the function is made, so that the function
  -- closes over scopes in which its name is ready.
  have hlonger : Beside R before .here y
      (do
        Eval.define f.name.lexeme .nil
        let id ← Eval.make (·.newFunction { declaration := f', scope := y.machine.current })
        Eval.define f.name.lexeme (.function id))
      (do
        V'.fill f.name.lexeme .nil
        let id ← newFunction f false V'
        V'.fill f.name.lexeme (.function id))
      fun _ _ z => Stands (S.add f.name.lexeme) V' z := by
    refine (beside_fill hm₁ hf₁ hdeclared (hfitting _) proper_nil hfull₁).bind
      fun _ _ z hm₂ hg₂ ⟨hf₂, hfull₂⟩ => ?_
    have hnew := callable_addFunction { declaration := f', scope := y.machine.current }
      { declaration := f, scope := 0 } hm₂.codes (hg₂.current ▸ hf₂) hm₂.stores.root hs rfl
      fun h => absurd h Bool.false_ne_true
    refine (beside_newFunction hm₂ (.inl hnew)).here.bind
      fun id id' u hm₃ hg₃ ⟨hid, hcount, hu⟩ => ?_
    subst hid hcount hu
    have hf₃ := hg₃.follows hm₂ hf₂
    have hfull₃ : Full _ _ (S.add f.name.lexeme) := hfull₂
    refine .here (.imp (beside_fill hm₃ hf₃ (declared_add hdeclared) (hfitting _) ?_ hfull₃) ?_)
    · rintro _ ⟨⟩
      exact hnew
    · intro _ _ z _ hg₄ _
      exact ⟨hg₄.follows hm₃ hf₃, hg₄.full hm₃ hf₃ hfull₃⟩
  rw [define_absorb, fill_absorb] at hlonger
  rw [hname]
  have hpost := hlonger.map_right (g := fun _ => V') fun _ _ z _ _ h => h
  rw [bind_assoc] at hpost
  exact hpost

include hR in
/-- The methods of a class are made in an environment, and keep the view that
follows it. -/
theorem beside_makeMethods {scope : Nat} {S : Scopes} {V : View} {ms ms' : List Function} :
    ∀ {x : Snapshot} {done : Bindings Nat}, Mirrors R before x → Follows x scope S V →
      MethodsShape R .lexical S.ofMethods ms ms' →
      (∀ {name id}, done.get? name = some id → IsMethod R x id) →
      Beside R before .inside x (Lox.makeMethods scope ms' done) (makeMethods V ms done)
        fun table table' y => table = table' ∧
          ∀ {name id}, table.get? name = some id → IsMethod R y id := by
  induction ms generalizing ms' with
  | nil =>
    rintro x done hm - ⟨⟩ hdone
    exact .pure hm ⟨rfl, hdone⟩
  | cons f ms ih =>
    rintro x done hm hf (_ | ⟨hs, hms⟩) hdone
    rename_i f' ms'
    have hname : f'.name.lexeme = f.name.lexeme := (hR hs.name.1).lexeme.symm
    have hinit : f'.isInit = f.isInit := congrArg (· == "init") hname
    unfold Lox.makeMethods makeMethods
    rw [hinit, hname]
    have hnew := isMethod_addFunction { declaration := f', scope, isInit := f.isInit }
      { declaration := f, scope := 0, isInit := f.isInit } hm.codes hf hm.stores.root hs rfl
    refine (beside_newFunction hm (.inr hnew)).bind fun id id' y hm₁ hg₁ ⟨hid, hcount, hy⟩ => ?_
    subst hid hcount hy
    -- A name that is given twice keeps the later method.
    refine ih hm₁ (hf.mono hg₁.toLater hm.stores.root) hms ?_
    intro name id hget
    rw [Bindings.get?_set] at hget
    by_cases hsame : f.name.lexeme = name
    · rw [if_pos hsame] at hget
      cases hget
      exact hnew
    · rw [if_neg hsame] at hget
      exact (hdone hget).mono hg₁.toLater hm.stores.root

/-- A class is made from its methods. -/
theorem beside_newClass (hm : Mirrors R before x) {info : ClassInfo}
    (hi : ∀ {name id}, info.methods.get? name = some id → IsMethod R x id) :
    Beside R before .inside x (Eval.make (·.newClass info))
      (lift (Eval.make (·.newClass info))) fun id id' _ => id = id' :=
  .step (y := x.addClass info) rfl rfl (addClass_mirrors hm hi)
    ⟨addClass_later x info, rfl, fun _ _ _ => rfl⟩ (congrArg Array.size hm.shares.classes.symm)

include hR in
/-- A class is made, and its name gets it. -/
theorem beside_finishClass {scope : Nat} {S T : Scopes} {V W : View} {ms ms' : List Function}
    {name : String} {superclass : Option Nat} (hm : Mirrors R before x)
    (hf : Follows x x.machine.current S V) (hfull : Full x x.machine.current S)
    (hd : S = [] ∨ S.redeclares name = true) (hn : name ≠ "super") (hfw : Follows x scope T W)
    (hms : MethodsShape R .lexical T.ofMethods ms ms') :
    Beside R before .inside x
      (do
        let table ← Lox.makeMethods scope ms' .empty
        let id ← Eval.make (·.newClass { name, superclass, methods := table })
        Eval.define name (.classRef id))
      (do
        let table ← makeMethods W ms .empty
        let id ← lift (Eval.make (·.newClass { name, superclass, methods := table }))
        V.fill name (.classRef id)
        pure V)
      fun _ V' y => Stands S V' y := by
  have hempty : ∀ {other id}, (Bindings.empty : Bindings Nat).get? other = some id →
      IsMethod R x id := by
    intro other id h
    cases h
  refine (beside_makeMethods hR hm hfw hms hempty).bind
    fun table table' y hm₁ hg₁ ⟨htable, hmethods⟩ => ?_
  subst htable
  have hf₁ := hg₁.follows hm hf
  have hfull₁ := hg₁.full hm hf hfull
  -- What was followed before is followed after each step, since states only grow.
  refine (beside_newClass hm₁ hmethods).bind fun id id' z hm₂ hg₂ hid => ?_
  subst hid
  have hf₂ := hg₂.follows hm₁ hf₁
  have hfull₂ := hg₂.full hm₁ hf₁ hfull₁
  refine .map_right (g := fun _ => V) (beside_fill hm₂ hf₂ hd (fun h => absurd h hn)
    (proper_of_ne fun _ h => nomatch h) hfull₂) fun _ _ u _ hg₃ _ => ?_
  exact ⟨hg₃.follows hm₂ hf₂, hg₃.full hm₂ hf₂ hfull₂⟩

include hR in
/-- A class is declared. -/
theorem beside_declareClass {name name' : Token} {S : Scopes} {V : View} {ms ms' : List Function}
    (hm : Mirrors R before x) (hf : Follows x x.machine.current S V)
    (hfull : Full x x.machine.current S) (hd : S.redeclares name.lexeme = false)
    (hn : R name name') (hk : name.kind = .identifier) (superclass : Option Nat)
    (hms : match superclass with
      | none => MethodsShape R .lexical (S.add name.lexeme).ofMethods ms ms'
      | some _ => MethodsShape R .lexical (S.add name.lexeme).ofSubclass.ofMethods ms ms') :
    Beside R before .here x (Lox.declareClass name' superclass ms')
      (declareClass V name superclass ms)
      fun _ V' y => Stands (S.add name.lexeme) V' y := by
  have hname : name'.lexeme = name.lexeme := (hR hn).lexeme.symm
  have hsuper : name.lexeme ≠ "super" := (ordinary hR hn hk).2
  -- The name is declared first, so that methods can refer to their class.
  obtain ⟨V', y, hrun, hmachine, hm₁, hg₁, hf₁, hfull₁, hdeclared⟩ := declare_step hm hf hfull hd
  unfold Lox.declareClass declareClass
  rw [hname]
  refine .after_right hrun hmachine hg₁ ?_
  refine (beside_fill hm₁ hf₁ hdeclared (fun h => absurd h hsuper) proper_nil hfull₁).bind
    fun _ _ z hm₂ hg₂ ⟨hf₂, hfull₂⟩ => .get_left ?_
  cases superclass with
  | none =>
    exact (beside_finishClass hR hm₂ hf₂ hfull₂ (declared_add hdeclared) hsuper hf₂ hms).here
  | some parent =>
    have hclass : Proper R z (.classRef parent) := proper_of_ne fun _ h => nomatch h
    -- A superclass has an environment of its own around the methods.
    obtain ⟨W, u, henv, hmachine', hextend, -, -, hm₃, hg₃, hfw⟩ :=
      enclose_spec "super" hm₂ hf₂ (fun _ => ⟨parent, rfl⟩) hclass
    refine Beside.here (.bind
      (Q := fun env inner y => Follows y env (S.add name.lexeme).ofSubclass inner)
      (.step ?_ hextend hm₃ hg₃ hfw) fun env inner v hm₄ hg₄ hfw => ?_)
    · change EStateM.Result.ok (z.machine.heap.newEnvironment (some z.machine.current)
          (Bindings.empty.set "super" (.classRef parent))).1
        { z.machine with heap := (z.machine.heap.newEnvironment (some z.machine.current)
          (Bindings.empty.set "super" (.classRef parent))).2 } = _
      rw [henv, ← hmachine']
    · exact beside_finishClass hR hm₄ (hg₄.follows hm₂ hf₂) (hg₄.full hm₂ hf₂ hfull₂)
        (declared_add hdeclared) hsuper hfw hms

end Declarations

end Lox.Lexical
