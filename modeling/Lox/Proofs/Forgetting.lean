/-
Running programs as they are written, beside the trees they stand for.

Both runs use the same objects and cells, and one of them keeps the bodies of functions as
they were written.  What makes no function is the same computation on both sides, so the rules
that make functions, and the ways through sequences, loops and calls, are all there is to
compare.

* `World.Faithful` — every function has the body that its tree was read from;
* `pairing` — the two states, one with the bodies and one without them;
* `MakesNone`, `inStep_lift` — what makes no function;
* `inStep_declareClass`, `inStep_superMethod` — functions and classes;
* `inStep_runAll`, `inStep_repeating`, `inStep_callValue` — sequences, loops and calls, if
  declarations are run in step.
-/
import Lox.Proofs.Looping
import Lox.Proofs.Pairing
import Lox.Proofs.Watching

namespace Lox.Written

open Lox.Lexical (View)

/-! ### States side by side -/

/-- The body of every function stands for the body of the function on the heap. -/
structure World.Faithful (w : World) : Prop where
  size : w.bodies.size = w.base.machine.heap.functions.size
  body : ∀ id, (w.base.machine.heap.closure id).declaration.body =
    (w.body id).map Declaration.tree

/-- The state of a program as it is written, and what it is without the bodies. -/
def pairing : Pairing World Lexical.World World where
  left := World.base
  right := id
  Alike := World.Faithful
  Later _ _ := True
  later_refl _ := trivial
  later_trans _ _ := trivial
  Places := Eq
  Lenient := False

theorem faithful_initial : World.initial.Faithful :=
  ⟨rfl, fun _ => rfl⟩

/-- Only the functions matter. -/
theorem World.Faithful.congr {w : World} (h : w.Faithful) {base : Lexical.World}
    (hf : base.machine.heap.functions = w.base.machine.heap.functions) :
    World.Faithful { w with base } := by
  refine ⟨hf ▸ h.size, fun id => ?_⟩
  have hbody := h.body id
  unfold Heap.closure at hbody ⊢
  rw [hf]
  exact hbody

/-- One more function, with its body. -/
theorem World.Faithful.push {w : World} (h : w.Faithful) {base : Lexical.World} {c : Closure}
    {body : List Declaration}
    (hf : base.machine.heap.functions = w.base.machine.heap.functions.push c)
    (hc : c.declaration.body = body.map Declaration.tree) :
    World.Faithful { base, bodies := w.bodies.push body } := by
  refine ⟨?_, fun id => ?_⟩
  · change (w.bodies.push body).size = base.machine.heap.functions.size
    rw [hf, Array.size_push, Array.size_push, h.size]
  · have hbody := h.body id
    unfold World.body Heap.closure at hbody ⊢
    rw [hf, getD_push, getD_push, h.size]
    split
    · exact hc
    · exact hbody

/-! ### Steps -/

section Steps

variable {α β γ : Type} {x : World} {p : Lexical.Run α} {q : Run β} {Q : α → β → World → Prop}

/-- A computation that makes no function. -/
def MakesNone (p : Lexical.Run α) : Prop :=
  ∀ w, (EStateM.Result.final (p w)).machine.heap.functions = w.machine.heap.functions

namespace MakesNone

theorem pure (a : α) : MakesNone (pure a) :=
  fun _ => rfl

theorem throw (e : Stop) : MakesNone (throw e : Lexical.Run α) :=
  fun _ => rfl

theorem bind {f : α → Lexical.Run β} (h : MakesNone p) (hf : ∀ a, MakesNone (f a)) :
    MakesNone (p >>= f) := by
  intro w
  have hp := h w
  cases hrun : p w with
  | ok a w' =>
    rw [hrun] at hp
    rw [bind_ok hrun]
    exact (hf a w').trans hp
  | error e w' =>
    rw [hrun] at hp
    rw [bind_error hrun]
    exact hp

theorem get {f : Lexical.World → Lexical.Run α} (h : ∀ w, MakesNone (f w)) :
    MakesNone (MonadState.get >>= f) :=
  fun w => h w w

/-- A machine that has the functions of another. -/
instance (functions : Array Closure) : Durable fun m => m.heap.functions = functions where
  congr h _ hf := hf.trans h

theorem lift {p : Eval α} (h : ∀ functions, Keeps (fun m => m.heap.functions = functions) p) :
    MakesNone (Lexical.lift p) := by
  intro w
  have hkept := (h w.machine.heap.functions).stays (m := w.machine) rfl
  unfold Lexical.lift
  cases hrun : p w.machine with
  | ok a m =>
    rw [hrun] at hkept
    exact hkept
  | error e m =>
    rw [hrun] at hkept
    exact hkept

theorem extend (V : View) (name : String) (v : Value) : MakesNone (V.extend name v) :=
  fun _ => rfl

theorem extendAll (bs : List (Token × Value)) : ∀ V : View, MakesNone (V.extendAll bs) := by
  induction bs with
  | nil => exact fun V => pure V
  | cons b bs ih => exact fun V => (extend V _ _).bind ih

theorem declare (V : View) (name : String) : MakesNone (V.declare name) := by
  unfold View.declare
  split
  · exact extend V name .nil
  · exact pure V

theorem fill (V : View) (name : String) (v : Value) : MakesNone (V.fill name v) := by
  unfold View.fill
  cases V.cell? name with
  | some c => exact fun _ => rfl
  | none => exact fun _ => rfl

theorem lookup (V : View) (t : Token) : MakesNone (V.lookup t) := by
  unfold View.lookup
  cases V.cell? t.lexeme with
  | some c => exact get fun w => pure _
  | none =>
    refine get fun w => ?_
    cases w.globals.get? t.lexeme with
    | some v => exact pure v
    | none => exact throw _

theorem assign (V : View) (t : Token) (v : Value) : MakesNone (V.assign t v) := by
  unfold View.assign
  cases V.cell? t.lexeme with
  | some c => exact fun _ => rfl
  | none =>
    refine get fun w => ?_
    split
    · exact fun _ => rfl
    · exact throw _

end MakesNone

open Pairing (InStep Same)

theorem lift_ok {a : α} {base : Lexical.World} (h : p x.base = .ok a base) :
    lift p x = .ok a { x with base } := by
  unfold lift
  rw [h]

theorem lift_error {e : Stop} {base : Lexical.World} (h : p x.base = .error e base) :
    lift p x = .error e { x with base } := by
  unfold lift
  rw [h]

/-- What makes no function is the same on both sides. -/
theorem inStep_lift (hx : x.Faithful) (hp : MakesNone p) : pairing.InStep x p (lift p) Same := by
  have hkept := hp x.base
  cases hrun : p x.base with
  | ok a base =>
    rw [hrun] at hkept
    exact .step (y := { x with base }) hrun (lift_ok hrun) (hx.congr hkept) trivial rfl
  | error e base =>
    rw [hrun] at hkept
    exact .inr (.inl ⟨e, e, { x with base }, hrun, lift_error hrun, hx.congr hkept, trivial,
      .refl (fun _ => rfl) e⟩)

/-- So is what makes no function on the machine. -/
theorem inStep_machine {p : Eval α} (hx : x.Faithful)
    (hp : ∀ functions, Keeps (fun m => m.heap.functions = functions) p) :
    pairing.InStep x (Lexical.lift p) (lift (Lexical.lift p)) Same :=
  inStep_lift hx (.lift hp)

theorem inStep_ask {ι : Type} {f : Heap → ι} {g : ι → Lexical.Run α} {g' : ι → Run β}
    (h : pairing.InStep x (g (f x.base.machine.heap)) (g' (f x.base.machine.heap)) Q) :
    pairing.InStep x (Lexical.lift (Eval.ask f) >>= g) (ask f >>= g') Q :=
  h

theorem inStep_get {g : Lexical.World → Lexical.Run α} {g' : World → Run β}
    (h : pairing.InStep x (g x.base) (g' x) Q) : pairing.InStep x (get >>= g) (get >>= g') Q :=
  h

theorem inStep_fail (hx : x.Faithful) (f : Fault) (t : Token) :
    pairing.InStep x (Lexical.fail f t) (fail f t) Q :=
  .throw hx (.fault rfl)

theorem catches {α : Type} (t : Token) (p : Run α) : Catches t p (catchExhausted t p) where
  ok h := by
    unfold catchExhausted
    rw [h]
  error {_ e _} h := by
    unfold catchExhausted
    rw [h]
    cases e with
    | _ => rfl

theorem inStep_catchExhausted (t : Token) (h : pairing.InStep x p q Q) :
    pairing.InStep x (Lexical.catchExhausted t p) (catchExhausted t q) Q :=
  h.caught rfl (Lexical.catches t p) (catches t q)

/-- What is known of every result on the right is known after both. -/
theorem inStep_and {R : β → Prop} (h : pairing.InStep x p q Q)
    (hR : ∀ {w b w'}, q w = .ok b w' → R b) :
    pairing.InStep x p q fun a b y => Q a b y ∧ R b := by
  rcases h with ⟨a, b, y, hp, hq, hy, hl, h⟩ | h
  · exact .inl ⟨a, b, y, hp, hq, hy, hl, h, hR hq⟩
  · exact .inr h

end Steps

open Pairing (InStep Same)

/-! ### Functions and classes -/

section Functions

variable {x : World}

theorem inStep_newFunction (hx : x.Faithful) (f : Routine) (isInit : Bool) (V : View) :
    pairing.InStep x (Lexical.newFunction f.tree isInit V) (newFunction f isInit V) Same :=
  .step (y := ⟨_, x.bodies.push f.body⟩) rfl rfl (hx.push rfl f.tree_body) trivial rfl

/-- A bound method has the body of the method. -/
theorem inStep_bindMethod (hx : x.Faithful) (method : Nat) (receiver : Value) :
    pairing.InStep x (Lexical.bindMethod method receiver) (bindMethod method receiver) Same :=
  .step (y := ⟨_, x.bodies.push (x.body method)⟩) rfl rfl (hx.push rfl (hx.body method)) trivial
    rfl

theorem inStep_method (hx : x.Faithful) (method : Nat) (receiver : Value) :
    pairing.InStep x (.function <$> Lexical.bindMethod method receiver)
      (.function <$> bindMethod method receiver) (Same (α := Value)) :=
  (inStep_bindMethod hx method receiver).map fun _ _ _ _ _ hsame => congrArg Value.function hsame

theorem inStep_getProperty (hx : x.Faithful) (v : Value) (name : Token) :
    pairing.InStep x (Lexical.getProperty v name) (getProperty v name) Same := by
  cases v with
  | object id =>
    refine inStep_ask ?_
    cases (x.base.machine.heap.instanceInfo id).fields.get? name.lexeme with
    | some v => exact .pure hx rfl
    | none =>
      refine inStep_ask (inStep_ask ?_)
      cases x.base.machine.heap.findMethod? (x.base.machine.heap.instanceInfo id).classId
        name.lexeme with
      | some m => exact inStep_method hx m _
      | none => exact inStep_fail hx _ _
  | array id => exact inStep_machine hx fun _ => keeps_arrayProperty id name
  | _ => exact inStep_machine hx fun _ => .fail _ _

theorem inStep_superMethod (hx : x.Faithful) (V : View) (method : Token) :
    pairing.InStep x (Lexical.superMethod V method) (superMethod V.names method) Same := by
  unfold Lexical.superMethod superMethod View.cell?
  cases V.names.lookup "super" with
  | none => exact .throw hx (.defect _)
  | some parent =>
    cases V.names.lookup "this" with
    | none => exact .throw hx (.defect _)
    | some receiver =>
      refine inStep_get ?_
      cases x.base.cell parent with
      | classRef classId =>
        refine inStep_ask ?_
        cases x.base.machine.heap.findMethod? classId method.lexeme with
        | some m => exact inStep_get (inStep_method hx m _)
        | none => exact inStep_fail hx _ _
      | _ => exact .throw hx (.defect _)

theorem inStep_declareFunction (hx : x.Faithful) (V : View) (f : Routine) :
    pairing.InStep x (Lexical.declareFunction V f.tree) (declareFunction V f) Same := by
  unfold Lexical.declareFunction declareFunction
  rw [f.tree_name]
  refine (inStep_lift hx (.declare V _)).next fun V y hy => ?_
  refine (inStep_newFunction hy f false V).next fun id z hz => ?_
  exact (inStep_lift hz (.fill V _ _)).next fun _ w hw => .pure hw rfl

theorem inStep_makeMethods (V : View) (methods : List Routine) :
    ∀ {x : World} (done : Bindings Nat), x.Faithful →
      pairing.InStep x (Lexical.makeMethods V (methods.map Routine.tree) done)
        (makeMethods V methods done) Same := by
  induction methods with
  | nil => exact fun done hx => .pure hx rfl
  | cons f rest ih =>
    intro x done hx
    rw [List.map_cons, Lexical.makeMethods, makeMethods, f.tree_name]
    refine (inStep_newFunction hx f _ V).next fun id y hy => ?_
    exact ih _ hy

theorem inStep_declareClass (hx : x.Faithful) (V : View) (name : Token) (superclass : Option Nat)
    (methods : List Routine) :
    pairing.InStep x (Lexical.declareClass V name superclass (methods.map Routine.tree))
      (declareClass V name superclass methods) Same := by
  -- The methods are made inside the scope of `super` if there is one, else where the class is.
  have hrest : ∀ (V inner : View) {y : World}, y.Faithful → pairing.InStep y
      (do
        let table ← Lexical.makeMethods inner (methods.map Routine.tree) .empty
        let id ← Lexical.lift
          (Eval.make (·.newClass { name := name.lexeme, superclass, methods := table }))
        V.fill name.lexeme (.classRef id)
        pure V)
      (do
        let table ← makeMethods inner methods .empty
        let id ← lift (Lexical.lift
          (Eval.make (·.newClass { name := name.lexeme, superclass, methods := table })))
        lift (V.fill name.lexeme (.classRef id))
        pure V) Same := by
    intro V inner y hy
    refine (inStep_makeMethods inner methods .empty hy).next fun table z hz => ?_
    refine (inStep_machine hz fun _ => keeps_make fun _ => rfl).next fun id w hw => ?_
    exact (inStep_lift hw (.fill V _ _)).next fun _ v hv => .pure hv rfl
  refine (inStep_lift hx (.declare V _)).next fun V y hy => ?_
  refine (inStep_lift hy (.fill V _ _)).next fun _ z hz => ?_
  cases superclass with
  | none => exact hrest V V hz
  | some parent =>
    refine (inStep_lift hz (.extend V _ _)).next fun inner w hw => ?_
    exact hrest V inner hw

end Functions

/-! ### Sequences, loops and calls -/

section Bodies

variable {x : World} {run : Lexical.Runner} {run' : Runner}

/-- Declarations and what they stand for are run side by side. -/
def Declares (run : Lexical.Runner) (run' : Runner) : Prop :=
  ∀ {x V d}, World.Faithful x → pairing.InStep x (run V d.tree) (run' V d) Same

theorem inStep_runAll (hr : Declares run run') (ds : List Declaration) : ∀ {x : World} (V : View),
    x.Faithful → pairing.InStep x (Lexical.runAll run V (ds.map Declaration.tree))
      (runAll run' V ds) Same := by
  induction ds with
  | nil => exact fun V hx => .pure hx rfl
  | cons d ds ih =>
    intro x V hx
    refine (hr hx).next fun r y hy => ?_
    obtain ⟨completion, V⟩ := r
    cases completion with
    | normal => exact ih V hy
    | broke => exact .pure hy rfl
    | returned v => exact .pure hy rfl

theorem inStep_repeating {condition : Lexical.Run Bool} {holds : Run Bool}
    {body : Lexical.Run Completion} {body' : Run Completion}
    (hc : ∀ {y}, World.Faithful y → pairing.InStep y condition holds Same)
    (hb : ∀ {y}, World.Faithful y → pairing.InStep y body body' Same) (turns : Nat) :
    ∀ {x : World}, x.Faithful → pairing.InStep x (Lexical.iterate condition body turns)
      (repeating holds body' turns) Same := by
  induction turns with
  | zero => exact fun hx => .throw hx .unfinished
  | succ turns ih =>
    intro x hx
    refine (hc hx).next fun c y hy => ?_
    refine .ite Iff.rfl ((hb hy).next fun d z hz => ?_) (.pure hy rfl)
    cases d with
    | normal => exact ih hz
    | broke => exact .pure hz rfl
    | returned v => exact .pure hz rfl

theorem inStep_applyFunction (hr : Declares run run') (hx : x.Faithful) (id : Nat)
    (arguments : List Value) : pairing.InStep x (Lexical.applyFunction run id arguments)
      (applyFunction run' id arguments) Same := by
  refine inStep_ask (inStep_get ?_)
  rw [hx.body id]
  refine (inStep_lift hx (.extendAll _ _)).next fun V y hy => ?_
  refine (inStep_runAll hr _ V hy).next fun c z hz => ?_
  refine .ite Iff.rfl ?_ ?_
  · cases (x.base.view id).cell? "this" with
    | some receiver => exact inStep_get (.pure hz rfl)
    | none => exact .throw hz (.defect _)
  · cases c with
    | returned v => exact .pure hz rfl
    | _ => exact .pure hz rfl

theorem inStep_construct (hr : Declares run run') (hx : x.Faithful) (classId : Nat)
    (arguments : List Value) : pairing.InStep x (Lexical.construct run classId arguments)
      (construct run' classId arguments) Same := by
  refine (inStep_machine hx fun _ => keeps_make fun _ => rfl).next fun o y hy => ?_
  refine inStep_ask ?_
  cases y.base.machine.heap.findMethod? classId "init" with
  | some m =>
    refine (inStep_bindMethod hy m _).next fun init z hz => ?_
    exact (inStep_applyFunction hr hz init arguments).next fun _ w hw => .pure hw rfl
  | none => exact .pure hy rfl

theorem inStep_callValue (host : Host) (hr : Declares run run') (hx : x.Faithful) (paren : Token)
    (callee : Value) (arguments : List Value) :
    pairing.InStep x (Lexical.callValue host run paren callee arguments)
      (callValue host run' paren callee arguments) Same := by
  have hinvoke : pairing.InStep x (Lexical.invoke host run paren callee arguments)
      (invoke host run' paren callee arguments) Same := by
    cases callee with
    | native f => exact inStep_machine hx fun _ => keeps_applyNative host paren f arguments
    | function id => exact inStep_applyFunction hr hx id arguments
    | classRef id => exact inStep_construct hr hx id arguments
    | _ => exact inStep_fail hx _ _
  refine inStep_ask ?_
  cases x.base.machine.heap.arity? callee with
  | none => exact inStep_fail hx _ _
  | some arity => exact .ite Iff.rfl (inStep_fail hx _ _) (inStep_catchExhausted paren hinvoke)

end Bodies

end Lox.Written
