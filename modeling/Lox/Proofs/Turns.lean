/-
More turns.

A loop may take as many turns as the host allows, and a run in which a loop would take more is
given up.  That is the only way to be given up: a program without loops never is.  And nothing
but that depends on how many turns there are: with more of them, a run that was not given up
does the same.

Both are one induction.  It compares a run with one of more turns, and the first may be given
up only if there may be loops.

* `GaveUp`, `Settled` — runs that were given up, and computations that never are;
* `Longer` — a computation and one with more turns;
* `longer_eval_and_exec`, `longer_runSources` — programs, and sessions;
* `runSources_of_more_turns` — what was not given up is the same with more turns;
* `Loopless`, `not_unfinished_of_loopless` — without loops nothing is given up.
-/
import Lox.Proofs.Watching

namespace Lox

open Eval

/-! ### Steps that are not given up -/

/-- A run was given up because a loop would have gone on. -/
def GaveUp {α : Type} : EStateM.Result Stop Machine α → Prop
  | .error .unfinished _ => True
  | _ => False

/-- A computation that is never given up. -/
def Settled {α : Type} (p : Eval α) : Prop :=
  ∀ m, ¬GaveUp (p m)

namespace Settled

variable {α β : Type} {p q : Eval α}

theorem pure (a : α) : Settled (pure a) :=
  fun _ => id

theorem fail (f : Fault) (t : Token) : Settled (Eval.fail f t : Eval α) :=
  fun _ => id

theorem defect (d : Defect) : Settled (throw (.defect d) : Eval α) :=
  fun _ => id

theorem exhausted : Settled (throw .exhausted : Eval α) :=
  fun _ => id

theorem get : Settled get :=
  fun _ => id

theorem modifyGet (f : Machine → α × Machine) : Settled (modifyGet f) :=
  fun _ => id

theorem bind {f : α → Eval β} (h : Settled p) (hf : ∀ a, Settled (f a)) : Settled (p >>= f) := by
  intro m
  have hp := h m
  change ¬GaveUp (EStateM.bind p f m)
  unfold EStateM.bind
  cases hrun : p m with
  | ok a m' => exact hf a m'
  | error e m' =>
    rw [hrun] at hp
    cases e with
    | _ => exact hp

theorem map (f : α → β) (h : Settled p) : Settled (f <$> p) := by
  rw [map_eq_pure_bind]
  exact h.bind fun a => pure (f a)

theorem ask (f : Heap → α) : Settled (Eval.ask f) :=
  get.bind fun _ => pure _

theorem make (f : Heap → α × Heap) : Settled (Eval.make f) :=
  modifyGet _

theorem change (f : Heap → Heap) : Settled (Eval.change f) :=
  modifyGet _

theorem found (e : Except Forest.Lost α) : Settled (Eval.found e) := by
  cases e with
  | ok a => exact pure a
  | error why => exact defect _

theorem allowed (paren : Token) (e : Except Refusal α) : Settled (Lox.allowed paren e) := by
  cases e with
  | ok a => exact pure a
  | error why => exact fail _ _

end Settled

theorem settled_define (name : String) (v : Value) : Settled (define name v) :=
  Settled.get.bind fun _ => .change _

theorem settled_lookup (ref : Reference) : Settled (lookup ref) := by
  unfold lookup
  cases ref.hops with
  | some hops => exact Settled.get.bind fun _ => (Settled.ask _).bind fun _ => .found _
  | none =>
    refine (Settled.ask _).bind fun v => ?_
    cases v with
    | some v => exact .pure v
    | none => exact .fail _ _

theorem settled_assign (ref : Reference) (v : Value) : Settled (assign ref v) := by
  unfold assign
  cases ref.hops with
  | some hops =>
    exact Settled.get.bind fun _ => (Settled.ask _).bind fun _ => (Settled.found _).bind fun _ =>
      .change _
  | none =>
    refine (Settled.ask _).bind fun target => ?_
    cases target with
    | some target => exact .change _
    | none => exact .fail _ _

theorem settled_applyUnary (op : Token) (v : Value) : Settled (applyUnary op v) := by
  unfold applyUnary
  split
  · split
    · exact .pure _
    · exact .fail _ _
  · exact .pure _
  · exact .defect _

theorem settled_applyBinary (op : Token) (a b : Value) : Settled (applyBinary op a b) := by
  unfold applyBinary
  split
  · unfold add
    split
    case h_4 => exact .fail _ _
    all_goals exact .pure _
  · exact .pure _
  · exact .pure _
  · split
    · unfold arithmetic
      split
      case h_8 => exact .defect _
      all_goals exact .pure _
    · exact .fail _ _

theorem settled_instanceProperty (id : Nat) (name : Token) :
    Settled (instanceProperty id name) := by
  refine (Settled.ask _).bind fun field => ?_
  cases field with
  | some v => exact .pure v
  | none =>
    refine (Settled.ask _).bind fun classId => (Settled.ask _).bind fun method => ?_
    cases method with
    | some m => exact .map _ (.make _)
    | none => exact .fail _ _

theorem settled_arrayProperty (id : Nat) (name : Token) : Settled (arrayProperty id name) := by
  unfold arrayProperty
  split
  · exact (Settled.ask _).bind fun _ => .pure _
  · exact .pure _
  · exact .pure _
  · exact .fail _ _

theorem settled_getProperty (v : Value) (name : Token) : Settled (getProperty v name) := by
  unfold getProperty
  split
  · exact settled_instanceProperty _ name
  · exact settled_arrayProperty _ name
  · exact .fail _ _

theorem settled_setProperty (object : Value) (name : Token) (v : Value) :
    Settled (setProperty object name v) := by
  unfold setProperty
  split
  · exact .change _
  · exact .fail _ _
  · exact .fail _ _

theorem settled_superMethod (ref : Reference) (method : Token) :
    Settled (superMethod ref method) := by
  unfold superMethod
  cases ref.hops with
  | none => exact .defect _
  | some hops =>
    refine Settled.get.bind fun m => (Settled.ask _).bind fun e => (Settled.found e).bind
      fun parent => (Settled.ask _).bind fun e' => (Settled.found e').bind fun receiver => ?_
    cases parent with
    | classRef classId =>
      refine (Settled.ask _).bind fun found => ?_
      cases found with
      | some m => exact .map _ (.make _)
      | none => exact .fail _ _
    | _ => exact .defect _

theorem settled_declareFunction (f : Function) : Settled (declareFunction f) :=
  Settled.get.bind fun _ => (Settled.make _).bind fun _ => settled_define _ _

theorem settled_makeMethods (scope : Nat) (methods : List Function) :
    ∀ done, Settled (makeMethods scope methods done) := by
  induction methods with
  | nil => exact fun done => .pure done
  | cons f rest ih => exact fun done => (Settled.make _).bind fun id => ih _

theorem settled_declareClass (name : Token) (superclass : Option Nat) (methods : List Function) :
    Settled (declareClass name superclass methods) := by
  have hrest : ∀ scope, Settled (do
      let table ← makeMethods scope methods .empty
      let id ← make (·.newClass { name := name.lexeme, superclass, methods := table })
      define name.lexeme (.classRef id)) := fun scope =>
    (settled_makeMethods scope methods _).bind fun _ =>
      (Settled.make _).bind fun _ => settled_define _ _
  refine (settled_define _ _).bind fun _ => Settled.get.bind fun m => ?_
  cases superclass with
  | some parent => exact (Settled.make _).bind hrest
  | none => exact (Settled.pure _).bind hrest

theorem settled_applyNative (host : Host) (paren : Token) (f : Native) (arguments : List Value) :
    Settled (applyNative host paren f arguments) := by
  unfold applyNative
  split
  · exact .modifyGet _
  · exact (Settled.allowed paren _).bind fun _ => .map _ (.make _)
  · exact (Settled.ask _).bind fun _ => .allowed paren _
  · exact (Settled.ask _).bind fun _ => (Settled.allowed paren _).bind fun _ =>
      (Settled.change _).bind fun _ => .pure _
  · exact .fail _ _

/-! ### A computation and one with more turns -/

/-- How a run and one with more turns end: the first was given up, which may be only if there
are `loops`, or the second ended in the same way; and the first came to a state in `I`. -/
structure Outlasted {α : Type} (loops : Prop) (I : Machine → Prop)
    (r r' : EStateM.Result Stop Machine α) : Prop where
  ends : loops ∧ GaveUp r ∨ ¬GaveUp r ∧ r' = r
  stays : I (EStateM.Result.final r)

/-- From every state in `I`, the second computation does what the first does, unless that is
given up. -/
def Longer {α : Type} (loops : Prop) (I : Machine → Prop) (p q : Eval α) : Prop :=
  ∀ m, I m → Outlasted loops I (p m) (q m)

namespace Longer

variable {α β : Type} {loops : Prop} {I : Machine → Prop} {p q : Eval α}

theorem of_settled (h : Keeps I p) (hs : Settled p) : Longer loops I p p :=
  fun m hm => ⟨.inr ⟨hs m, rfl⟩, h.stays hm⟩

theorem pure (a : α) : Longer loops I (pure a) (pure a) :=
  of_settled (.pure a) (.pure a)

theorem fail (f : Fault) (t : Token) : Longer loops I (Eval.fail f t : Eval α) (Eval.fail f t) :=
  of_settled (.fail f t) (.fail f t)

theorem defect (d : Defect) :
    Longer loops I (throw (.defect d) : Eval α) (throw (.defect d)) :=
  of_settled (.throw _) (.defect d)

theorem exhausted : Longer loops I (throw .exhausted : Eval α) (throw .exhausted) :=
  of_settled (.throw _) .exhausted

theorem get : Longer loops I get get :=
  of_settled .get .get

theorem ask (f : Heap → α) : Longer loops I (Eval.ask f) (Eval.ask f) :=
  of_settled (.ask f) (.ask f)

/-- After a computation that was given up nothing follows; else both go on from one state. -/
theorem bind {f g : α → Eval β} (h : Longer loops I p q) (hf : ∀ a, Longer loops I (f a) (g a)) :
    Longer loops I (p >>= f) (q >>= g) := by
  intro m hm
  obtain ⟨hends, hstays⟩ := h m hm
  change Outlasted loops I (EStateM.bind p f m) (EStateM.bind q g m)
  unfold EStateM.bind
  cases hp : p m with
  | ok a m' =>
    rw [hp] at hends hstays
    obtain ⟨-, hq⟩ := hends.resolve_left And.right
    rw [hq]
    exact hf a m' hstays
  | error e m' =>
    rw [hp] at hends hstays
    cases e with
    | _ => exact ⟨hends.imp_right fun ⟨hgave, hq⟩ => ⟨hgave, by rw [hq]⟩, hstays⟩

theorem ite {c : Prop} [Decidable c] {p' q' : Eval α} (h : Longer loops I p q)
    (h' : Longer loops I p' q') :
    Longer loops I (if c then p else p') (if c then q else q') := by
  split
  · exact h
  · exact h'

theorem mapM {ι : Type} {f g : ι → Eval α} (h : ∀ i, Longer loops I (f i) (g i)) (l : List ι) :
    Longer loops I (l.mapM f) (l.mapM g) := by
  induction l with
  | nil => exact pure []
  | cons i l ih =>
    rw [List.mapM_cons, List.mapM_cons]
    exact (h i).bind fun a => ih.bind fun as => pure (a :: as)

/-- What is found in a state with the invariant may be relied on. -/
theorem askOf {f : Heap → α} {Q : α → Prop} {g g' : α → Eval β}
    (hf : ∀ {m}, I m → Q (f m.heap)) (hg : ∀ a, Q a → Longer loops I (g a) (g' a)) :
    Longer loops I (Eval.ask f >>= g) (Eval.ask f >>= g') :=
  fun m hm => hg _ (hf hm) m hm

/-- Too deep a nesting that became a fault is not given up either. -/
theorem catchExhausted (t : Token) (h : Longer loops I p q) :
    Longer loops I (Eval.catchExhausted t p) (Eval.catchExhausted t q) := by
  intro m hm
  obtain ⟨hends, hstays⟩ := h m hm
  unfold Eval.catchExhausted
  cases hp : p m with
  | ok a m' =>
    rw [hp] at hends hstays
    exact ⟨hends.imp_right fun ⟨hgave, hq⟩ => ⟨hgave, by rw [hq]⟩, hstays⟩
  | error e m' =>
    rw [hp] at hends hstays
    cases e with
    | _ => exact ⟨hends.imp_right fun ⟨hgave, hq⟩ => ⟨hgave, by rw [hq]⟩, hstays⟩

theorem runAll {run run' : Stmt → Eval Completion} {body : List Stmt}
    (h : ∀ s ∈ body, Longer loops I (run s) (run' s)) :
    Longer loops I (Lox.runAll run body) (Lox.runAll run' body) := by
  induction body with
  | nil => exact pure _
  | cons s rest ih =>
    rw [List.forall_mem_cons] at h
    refine h.1.bind fun c => ?_
    cases c with
    | normal => exact ih h.2
    | broke => exact pure _
    | returned v => exact pure _

/-- This is where a run is given up. -/
theorem iterate (hloops : loops) {condition condition' : Eval Bool}
    {body body' : Eval Completion} (hc : Longer loops I condition condition')
    (hb : Longer loops I body body') (more : Nat) : ∀ turns,
    Longer loops I (Lox.iterate condition body turns)
      (Lox.iterate condition' body' (turns + more)) := by
  intro turns
  induction turns with
  | zero => exact fun m hm => ⟨.inl ⟨hloops, trivial⟩, hm⟩
  | succ turns ih =>
    rw [Nat.succ_add]
    refine hc.bind fun goesOn => .ite (hb.bind fun c => ?_) (pure _)
    cases c with
    | normal => exact ih
    | broke => exact pure _
    | returned v => exact pure _

end Longer

section Programs

variable {loops : Prop} {T : Stmt → Prop} {P : Function → Prop} {k : Nat}

theorem longer_inEnvironment {α : Type} {p q : Eval α} {env : Nat}
    (h : Longer loops (Machine.At P env) p q) :
    Longer loops (Machine.At P k) (inEnvironment env p) (inEnvironment env q) := by
  intro m hm
  obtain ⟨hends, hstays⟩ := h { m with current := env } ⟨rfl, hm.functions⟩
  unfold inEnvironment
  dsimp only
  cases hp : p { m with current := env } with
  | ok a m' =>
    rw [hp] at hends hstays
    exact ⟨hends.imp_right fun ⟨hgave, hq⟩ => ⟨hgave, by rw [hq]⟩, hm.current, hstays.functions⟩
  | error e m' =>
    rw [hp] at hends hstays
    refine ⟨?_, hm.current, hstays.functions⟩
    cases e with
    | _ => exact hends.imp_right fun ⟨hgave, hq⟩ => ⟨hgave, by rw [hq]⟩

/-! ### Calls -/

section Calls

variable {run run' : Stmt → Eval Completion}
  (hrun : ∀ f, P f → ∀ s ∈ f.body, ∀ k, Longer loops (Machine.At P k) (run s) (run' s))

include hrun in
theorem longer_applyFunction (id : Nat) (arguments : List Value) :
    Longer loops (Machine.At P k) (applyFunction run id arguments)
      (applyFunction run' id arguments) := by
  -- The declaration is one of `P`, since it was found in a state with the invariant.
  refine .askOf (Q := fun c => P c.declaration) (fun hm => hm.functions id) fun c hc => ?_
  refine (Longer.of_settled (keeps_make fun _ => rfl) (.make _)).bind fun env =>
    (longer_inEnvironment (.runAll fun s hs => hrun _ hc s hs env)).bind
      fun completion => .ite ((Longer.ask _).bind fun _ => .of_settled (.found _) (.found _)) ?_
  cases completion with
  | returned v => exact .pure v
  | normal => exact .pure _
  | broke => exact .pure _

include hrun in
theorem longer_construct (classId : Nat) (arguments : List Value) :
    Longer loops (Machine.At P k) (construct run classId arguments)
      (construct run' classId arguments) := by
  refine (Longer.of_settled (keeps_make fun _ => rfl) (.make _)).bind fun id =>
    (Longer.ask _).bind fun method => ?_
  cases method with
  | none => exact .pure _
  | some m =>
    exact (Longer.of_settled (keeps_bind m _) (.make _)).bind fun init =>
      (longer_applyFunction hrun init arguments).bind fun _ => .pure _

include hrun in
theorem longer_callValue (host : Host) (more : Nat) (paren : Token) (callee : Value)
    (arguments : List Value) :
    Longer loops (Machine.At P k) (callValue host run paren callee arguments)
      (callValue { host with turns := host.turns + more } run' paren callee arguments) := by
  refine (Longer.ask _).bind fun arity => ?_
  cases arity with
  | none => exact .fail _ _
  | some arity =>
    refine .ite (.fail _ _) (.catchExhausted paren ?_)
    cases callee with
    | native f =>
      exact .of_settled (keeps_applyNative host paren f arguments)
        (settled_applyNative host paren f arguments)
    | function id => exact longer_applyFunction hrun id arguments
    | classRef id => exact longer_construct hrun id arguments
    | _ => exact .fail _ _

end Calls

/-! ### Expressions and statements -/

variable (hT : Hereditary T P) (hloops : ∀ e s, T (.whileLoop e s) → loops)

include hT hloops in
/-- With more turns expressions and statements do the same, unless they are given up. -/
theorem longer_eval_and_exec (host : Host) (more n : Nat) :
    (∀ e k, Longer loops (Machine.At P k) (eval host n e)
        (eval { host with turns := host.turns + more } n e)) ∧
      ∀ s, T s → ∀ k, Longer loops (Machine.At P k) (exec host n s)
        (exec { host with turns := host.turns + more } n s) := by
  -- The induction is on the frames; the turns differ only where a loop is run.
  induction n with
  | zero => exact ⟨fun _ _ => .exhausted, fun _ _ _ => .exhausted⟩
  | succ n ih =>
    obtain ⟨ihe, ihs⟩ := ih
    constructor
    · intro e k
      cases e with
      | literal v => exact .pure _
      | grouping e => exact ihe e k
      | unary op e =>
        exact (ihe e k).bind fun v => .of_settled (keeps_applyUnary op v) (settled_applyUnary op v)
      | binary l op r =>
        exact (ihe l k).bind fun a => (ihe r k).bind fun b =>
          .of_settled (keeps_applyBinary op a b) (settled_applyBinary op a b)
      | logical l op r => exact (ihe l k).bind fun a => .ite (.pure a) (ihe r k)
      | var ref => exact .of_settled (keeps_lookup ref) (settled_lookup ref)
      | assign ref e =>
        exact (ihe e k).bind fun v =>
          (Longer.of_settled (keeps_assign ref v) (settled_assign ref v)).bind fun _ => .pure v
      | call callee paren arguments =>
        exact (ihe callee k).bind fun f => (Longer.mapM (fun e => ihe e k) arguments).bind
          fun vs => longer_callValue (fun f hf s hs => ihs s (hT.body hf s hs)) host more paren f vs
      | get e name =>
        exact (ihe e k).bind fun v =>
          .of_settled (keeps_getProperty v name) (settled_getProperty v name)
      | set o name e =>
        exact (ihe o k).bind fun object => .ite ((ihe e k).bind fun v =>
          (Longer.of_settled (keeps_setProperty object name v)
            (settled_setProperty object name v)).bind fun _ => .pure v) (.fail _ _)
      | thisRef ref => exact .of_settled (keeps_lookup ref) (settled_lookup ref)
      | superRef ref method =>
        exact .of_settled (keeps_superMethod ref method) (settled_superMethod ref method)
      | blank b => exact .defect _
      | bare v => exact .defect _
      | misplaced s => exact .defect _
    · intro s hs k
      cases s with
      | expression e => exact (ihe e k).bind fun _ => .pure _
      | print e =>
        refine (ihe e k).bind fun v => (Longer.ask _).bind fun text => ?_
        cases text with
        | some text =>
          exact (Longer.of_settled (keeps_writeLine text) (.modifyGet _)).bind fun _ => .pure _
        | none => exact .exhausted
      | varDecl name init =>
        have hdefine : ∀ v, Longer loops (Machine.At P k) (define name.lexeme v)
            (define name.lexeme v) :=
          fun v => .of_settled (keeps_define _ v) (settled_define _ v)
        cases init with
        | some e => exact (ihe e k).bind fun v => (hdefine v).bind fun _ => .pure _
        | none => exact (Longer.pure _).bind fun v => (hdefine v).bind fun _ => .pure _
      | block body =>
        exact Longer.get.bind fun m =>
          (Longer.of_settled (keeps_make fun _ => rfl) (.make _)).bind fun env =>
            longer_inEnvironment (.runAll fun s hmem => ihs s (hT.block hs s hmem) env)
      | ifElse e s other =>
        refine (ihe e k).bind fun c => .ite (ihs s (hT.thenBranch hs) k) ?_
        cases other with
        | some t => exact ihs t (hT.elseBranch hs) k
        | none => exact .pure _
      -- The one place where `loops` is used, and where the first run may be given up.
      | whileLoop e s =>
        exact .iterate (hloops e s hs) ((ihe e k).bind fun v => .pure _) (ihs s (hT.loop hs) k)
          more _
      | breakLoop keyword => exact .pure _
      | funDecl f =>
        exact (Longer.of_settled (keeps_declareFunction (hT.funDecl hs))
          (settled_declareFunction f)).bind fun _ => .pure _
      | returnWith keyword value =>
        cases value with
        | some e => exact (ihe e k).bind fun v => .pure _
        | none => exact .pure _
      | classDecl name superclass methods =>
        have hdeclare : ∀ parent, Longer loops (Machine.At P k) (declareClass name parent methods)
            (declareClass name parent methods) := fun parent =>
          .of_settled (keeps_declareClass name parent (hT.classDecl hs))
            (settled_declareClass name parent methods)
        cases superclass with
        | none => exact (hdeclare none).bind fun _ => .pure _
        | some ref =>
          refine (Longer.of_settled (keeps_lookup ref) (settled_lookup ref)).bind fun v => ?_
          cases v with
          | classRef parent => exact (hdeclare (some parent)).bind fun _ => .pure _
          | _ => exact .fail _ _
      | misplaced e => exact .defect _

include hT hloops in
theorem longer_runTopLevel (host : Host) (more levels : Nat) (record : Bool) {s : Stmt}
    (hs : T s) (k : Nat) : Longer loops (Machine.At P k) (runTopLevel host levels record s)
      (runTopLevel { host with turns := host.turns + more } levels record s) := by
  obtain ⟨heval, hexec⟩ := longer_eval_and_exec hT hloops host more levels
  refine .catchExhausted _ ?_
  cases record with
  | false => exact (hexec s hs k).bind fun _ => .pure _
  | true =>
    cases s with
    | expression e =>
      refine (heval e k).bind fun v => (Longer.ask _).bind fun text => ?_
      cases text with
      | some text => exact .pure _
      | none => exact .exhausted
    | _ => exact (hexec _ hs k).bind fun _ => .pure _

/-! ### Units and sessions -/

theorem catchExhausted_ne_exhausted {α : Type} (t : Token) (p : Eval α) (m m' : Machine) :
    Eval.catchExhausted t p m ≠ .error .exhausted m' := by
  unfold Eval.catchExhausted
  cases p m with
  | ok a m'' => exact nofun
  | error e m'' =>
    cases e with
    | _ => exact nofun

include hT hloops in
/-- Statements of the top level are given up, or end in the same way with more turns. -/
theorem longer_runStatements (host : Host) (more levels : Nat) (record : Bool) (k : Nat)
    {statements : List Stmt} (hs : ∀ s ∈ statements, T s) :
    ∀ (value : Option String) {m : Machine}, m.At P k →
      loops ∧ (runStatements host levels record statements value m).1 = .unfinished ∨
      (runStatements host levels record statements value m).1 ≠ .unfinished ∧
        runStatements { host with turns := host.turns + more } levels record statements value m =
          runStatements host levels record statements value m := by
  -- The statements after one that was given up are not run.
  induction statements with
  | nil => exact fun value m hm => .inr ⟨Ending.noConfusion, rfl⟩
  | cons s rest ih =>
    rw [List.forall_mem_cons] at hs
    intro value m hm
    obtain ⟨hends, hstays⟩ := longer_runTopLevel hT hloops host more levels record hs.1 k m hm
    unfold runStatements
    cases hrun : runTopLevel host levels record s m with
    | ok text m' =>
      rw [hrun] at hends hstays
      obtain ⟨-, hmore⟩ := hends.resolve_left And.right
      rw [hmore]
      exact ih hs.2 _ hstays
    | error stop m' =>
      rw [hrun] at hends
      cases stop with
      | exhausted => exact absurd hrun (catchExhausted_ne_exhausted _ _ _ _)
      | unfinished =>
        obtain ⟨hl, -⟩ := hends.resolve_right fun h => h.1 trivial
        exact .inl ⟨hl, rfl⟩
      | _ =>
        obtain ⟨-, hmore⟩ := hends.resolve_left And.right
        rw [hmore]
        exact .inr ⟨Ending.noConfusion, rfl⟩

include hT hloops in
theorem longer_run (host : Host) (more : Nat) (settings : Settings) (file : Option String)
    (source : String) {s : Session} (hs : s.machine.At P k)
    (hchecked : (check host settings file source).report.hasErrors = false →
      ∀ st ∈ (check host settings file source).statements, T st) :
    loops ∧ (s.run host settings file source).1.ending = .unfinished ∨
    (s.run host settings file source).1.ending ≠ .unfinished ∧
      s.run { host with turns := host.turns + more } settings file source =
        s.run host settings file source := by
  unfold Session.run Session.runChecked
  -- Checking a unit takes no turns.
  have hcheck : check { host with turns := host.turns + more } settings file source =
      check host settings file source := rfl
  rw [hcheck]
  cases herrors : (check host settings file source).report.hasErrors with
  | true =>
    rw [if_pos rfl, if_pos rfl]
    exact .inr ⟨nofun, rfl⟩
  | false =>
    have hquiet : Machine.At P k { s.machine with output := "" } := hs.congr rfl rfl
    have hends := longer_runStatements hT hloops host more (settings.frames host / framesPerLevel)
      settings.replMode k (hchecked herrors) none hquiet
    obtain ⟨⟨ending, value, m⟩, hrun⟩ : ∃ e, runStatements host
        (settings.frames host / framesPerLevel) settings.replMode
        (check host settings file source).statements none { s.machine with output := "" } = e :=
      ⟨_, rfl⟩
    rw [hrun] at hends
    rw [if_neg Bool.false_ne_true, if_neg Bool.false_ne_true,
      interpret_of_runStatements settings hrun]
    rcases hends with ⟨hl, hgave⟩ | ⟨hkept, hmore⟩
    · exact .inl ⟨hl, hgave⟩
    · rw [interpret_of_runStatements settings hmore]
      exact .inr ⟨hkept, rfl⟩

include hT hloops in
/-- In a session some unit is given up, or with more turns it is the same session. -/
theorem longer_runSources (host : Host) (more : Nat) (settings : Settings) {sources : List Source}
    (hchecked : ∀ source ∈ sources,
      (check host settings source.file source.text).report.hasErrors = false →
        ∀ st ∈ (check host settings source.file source.text).statements, T st) :
    ∀ {s : Session}, s.machine.At P k →
      loops ∧ (∃ r ∈ (Session.runSources host settings sources s).1, r.ending = .unfinished) ∨
      (∀ r ∈ (Session.runSources host settings sources s).1, r.ending ≠ .unfinished) ∧
        Session.runSources { host with turns := host.turns + more } settings sources s =
          Session.runSources host settings sources s := by
  -- A unit that was not given up leaves the same session, from which the rest goes on.
  induction sources with
  | nil => exact fun _ => .inr ⟨List.forall_mem_nil _, rfl⟩
  | cons source sources ih =>
    rw [List.forall_mem_cons] at hchecked
    intro s hs
    have hfirst := longer_run hT hloops host more settings source.file source.text hs hchecked.1
    have hkept := at_run hT host settings hs source.file source.text hchecked.1
    cases hrun : s.run host settings source.file source.text with
    | mk result s' =>
      rw [hrun] at hfirst hkept
      rw [runSources_cons hrun]
      rcases hfirst with ⟨hl, hgave⟩ | ⟨hended, hmore⟩
      · exact .inl ⟨hl, result, List.mem_cons_self, hgave⟩
      · rw [runSources_cons hmore, List.forall_mem_cons]
        rcases ih hchecked.2 hkept with ⟨hl, r, hr, hgave⟩ | ⟨hrest, hsame⟩
        · exact .inl ⟨hl, r, List.mem_cons_of_mem _ hr, hgave⟩
        · exact .inr ⟨⟨hended, hrest⟩, by rw [hsame]⟩

end Programs

/-- A session of which no unit was given up is the same with more turns: all units print and
show the same, end in the same way and leave the same state. -/
theorem runSources_of_more_turns (host : Host) (settings : Settings) (more : Nat)
    {sources : List Source} {s : Session}
    (h : ∀ r ∈ (Session.runSources host settings sources s).1, r.ending ≠ .unfinished) :
    Session.runSources { host with turns := host.turns + more } settings sources s =
      Session.runSources host settings sources s := by
  have hs : s.machine.At (fun _ => True) s.machine.current := ⟨rfl, fun _ => trivial⟩
  have hloops : ∀ e s, (fun _ => True) (Stmt.whileLoop e s) → True := fun _ _ => id
  rcases longer_runSources Hereditary.trivial hloops host more settings
    (fun _ _ _ _ _ => trivial) hs with ⟨-, r, hr, hgave⟩ | ⟨-, hsame⟩
  · exact absurd hgave (h r hr)
  · exact hsame

/-! ### Programs without loops -/

/-- A statement without a loop in it, nor in a function or a method that it declares. -/
inductive Loopless : Stmt → Prop
  | expression (e : Expr) : Loopless (.expression e)
  | print (e : Expr) : Loopless (.print e)
  | varDecl (name : Token) (init : Option Expr) : Loopless (.varDecl name init)
  | block {body : List Stmt} (h : ∀ s ∈ body, Loopless s) : Loopless (.block body)
  | ifElse {e : Expr} {s : Stmt} {other : Option Stmt} (h : Loopless s)
      (hother : ∀ t ∈ other, Loopless t) : Loopless (.ifElse e s other)
  | breakLoop (keyword : Token) : Loopless (.breakLoop keyword)
  | returnWith (keyword : Token) (value : Option Expr) : Loopless (.returnWith keyword value)
  | funDecl {f : Function} (h : ∀ s ∈ f.body, Loopless s) : Loopless (.funDecl f)
  | classDecl {name : Token} {superclass : Option Reference} {methods : List Function}
      (h : ∀ f ∈ methods, ∀ s ∈ f.body, Loopless s) : Loopless (.classDecl name superclass methods)
  | misplaced (e : Expr) : Loopless (.misplaced e)

theorem hereditary_loopless : Hereditary Loopless fun f => ∀ s ∈ f.body, Loopless s where
  block h := by cases h; assumption
  thenBranch h := by cases h; assumption
  elseBranch h := by
    cases h with
    | ifElse _ hother => exact hother _ rfl
  loop h := nomatch h
  funDecl h := by cases h; assumption
  classDecl h := by cases h; assumption
  body h := h

/-- A run without loops is never given up. -/
theorem not_unfinished_of_loopless (host : Host) (settings : Settings) {sources : List Source}
    (h : ∀ source ∈ sources,
      (check host settings source.file source.text).report.hasErrors = false →
        ∀ st ∈ (check host settings source.file source.text).statements, Loopless st) :
    ∀ r ∈ (Session.runSources host settings sources .start).1, r.ending ≠ .unfinished := by
  have hloops : ∀ e s, Loopless (.whileLoop e s) → False := fun _ _ h => nomatch h
  rcases longer_runSources hereditary_loopless hloops host 0 settings h
    (at_initial (List.forall_mem_nil _)) with ⟨hno, -⟩ | ⟨hended, -⟩
  · exact hno.elim
  · exact hended

end Lox
