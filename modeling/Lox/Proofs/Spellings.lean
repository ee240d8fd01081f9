/-
Running a program under two spellings.

A program and the same program with a local name changed, run from two machines
that are alike, do the same step by step: they give the same values and
completions, or stop for the same reason at the same place, and the machines are
alike again.

* `inStep_define`, `inStep_lookup`, `inStep_assign` — variables;
* `inStep_bind`, `inStep_property`, `inStep_super` — methods;
* `inStep_apply`, `inStep_construct`, `inStep_call` — calls;
* `inStep_declareFunction`, `inStep_declareClass` — declarations;
* `alike_eval_and_exec` — expressions and statements.
-/
import Lox.Proofs.Twins

namespace Lox

open Eval Pairing

namespace Twins

variable {ρ : Renaming} {x y : Twins} {d : Depth} {α β : Type} {p : Eval α} {q : Eval β}
  {Q : α → β → Twins → Prop}

/-- The same value on both machines, which a program may hold. -/
abbrev Yields (v v' : Value) (y : Twins) : Prop :=
  Gives (fun v y => y.Bound v) v v' y

/-- The same completion on both machines; a value that is returned is one that a
program may hold. -/
abbrev Completes (c c' : Completion) (y : Twins) : Prop :=
  Ends (fun v y => y.Bound v) c c' y

theorem inStep_pure (hx : Alike ρ x) {v : Value} (h : ∀ id, v ≠ .function id) :
    (pairing ρ).InStep x (pure v) (pure v) Yields :=
  .pure hx ⟨rfl, bound_of_ne h⟩

theorem inStep_plain (hx : Alike ρ x) {p : Eval Value} (h : Plain p) :
    (pairing ρ).InStep x p p Yields := by
  rcases h with ⟨v, hv, rfl⟩ | ⟨e, rfl⟩
  · refine inStep_pure hx fun id h => ?_
    subst h
    exact hv
  · exact .throw hx (.refl (R := (pairing ρ).Places) (fun _ => rfl) e)

/-- A step that changes only what the two machines share. -/
theorem inStep_share {a : α} {b : β} {m : Machine} (hx : Alike ρ x)
    (hp : p x.machine = .ok a m) (hq : q x.other = .ok b (other { x with machine := m }))
    (he : m.heap.environments = x.machine.heap.environments)
    (hf : m.heap.functions = x.machine.heap.functions) (hc : m.current = x.machine.current)
    (hmethods : ∀ {k name id}, (m.heap.classInfo k).methods.get? name = some id →
      id < x.count ∧ x.unbound id)
    (hheld : ∀ {v}, m.Holds v → x.Bound v) (hQ : Q a b { x with machine := m }) :
    (pairing ρ).InStep x p q Q :=
  .step (y := { x with machine := m }) hp hq (share_alike hx he hf hc hmethods hheld)
    (share_later he hf hc) hQ

/-! ### Variables -/

/-- A name of the current environment gets a value. -/
theorem inStep_define (hx : Alike ρ x) (hs : x.Stands x.machine.current d) {t : Token}
    (hf : ρ.Fresh d t) {v : Value} (hv : x.Bound v) :
    (pairing ρ).InStep x (Eval.define t.lexeme v)
      (Eval.define (ρ.tokenAt d (some 0) t).lexeme v) fun _ _ _ => True := by
  have hmarked : x.marked x.machine.current ↔ d = some 0 := hs.2 0 _ rfl
  refine .step (y := x.define x.machine.current t.lexeme (ρ.tokenAt d (some 0) t).lexeme v)
    rfl rfl (define_alike hx hs.1 hv (fun hm => ?_) fun hm => ?_) (define_later _ _ _ _) trivial
  · rw [Renaming.tokenAt_some, if_neg (mt hmarked.mpr hm)]
  · have hd := hmarked.mp hm
    rw [Renaming.tokenAt_some, if_pos hd]
    exact ⟨hf (by rw [hd]; rfl), rfl⟩

/-- The name of a function or a class gets a value. -/
theorem inStep_defineKept (hx : Alike ρ x) (hs : x.Stands x.machine.current d) {t : Token}
    (hk : ρ.Keeps d t) {v : Value} (hv : x.Bound v) :
    (pairing ρ).InStep x (Eval.define t.lexeme v) (Eval.define t.lexeme v) fun _ _ _ => True := by
  have h := inStep_define hx hs hk.1 hv
  rwa [hk.tokenAt] at h

theorem Spaces.globals (hx : Spaces ρ x) :
    (x.environments.env 0).values = (x.env 0).values :=
  hx.plain fun hm => Nat.lt_irrefl 0 (hx.marked hm).1

/-- A variable is read. -/
theorem inStep_lookup (hx : Alike ρ x) (hs : x.Stands x.machine.current d) {ref : Reference}
    (hf : ρ.Fresh d ref.token) :
    (pairing ρ).InStep x (lookup ref) (lookup (ρ.reference d ref)) Yields := by
  obtain ⟨t, hops⟩ := ref
  unfold lookup Renaming.reference Reference.name
  cases hops with
  | some n =>
    refine .get (.ask ?_)
    change (pairing ρ).InStep x (Eval.found (x.machine.heap.environments.getAt x.machine.current
      n t.lexeme)) (Eval.found (x.environments.getAt x.machine.current n
      (ρ.tokenAt d (some n) t).lexeme)) Yields
    have hget := hx.spaces.getAt hs n hf
    rw [Int.toNat_natCast] at hget
    rw [hget]
    exact .found hx fun v hv => ⟨rfl, hx.held (holds_of_getAt hv)⟩
  -- A global is found by its name, which is not renamed.
  | none =>
    have ht : ρ.tokenAt d none t = t := if_neg fun h => by
      obtain ⟨hd, rfl⟩ := h
      cases hd
    dsimp only
    rw [ht]
    refine .ask ?_
    rw [pairing_left, pairing_right, Lexical.lookup?_globals, Lexical.lookup?_globals,
      other_environments, hx.spaces.globals]
    unfold env
    cases hv : (x.machine.heap.environments.env 0).values.get? t.lexeme with
    | some v => exact .pure hx ⟨rfl, hx.held (.binding hv)⟩
    | none => exact .fail hx rfl

/-- A variable is changed. -/
theorem inStep_assign (hx : Alike ρ x) (hs : x.Stands x.machine.current d) {ref : Reference}
    (hf : ρ.Fresh d ref.token) {v : Value} (hv : x.Bound v) :
    (pairing ρ).InStep x (assign ref v) (assign (ρ.reference d ref) v) fun _ _ _ => True := by
  obtain ⟨t, hops⟩ := ref
  unfold assign Renaming.reference Reference.name
  cases hops with
  -- The walk is the same on both sides, and it ends in a marked environment if and only if the
  -- name is the renamed one.
  | some n =>
    refine .get (.ask ?_)
    change (pairing ρ).InStep x
      (Eval.found (x.machine.heap.environments.reach x.machine.current n) >>= fun target =>
        changeForest (·.define target t.lexeme v))
      (Eval.found (x.environments.reach x.machine.current n) >>= fun target =>
        changeForest (·.define target (ρ.tokenAt d (some n) t).lexeme v)) fun _ _ _ => True
    rw [hx.spaces.reach hs.1]
    cases hreach : x.machine.heap.environments.reach x.machine.current n with
    | error why => exact .throw hx (.defect _)
    | ok e =>
      have hwalk := Forest.reach_ok.mp hreach
      rw [Int.toNat_natCast] at hwalk
      have hmarked := hs.2 n e hwalk
      have he : e < x.size :=
        Nat.lt_of_le_of_lt (Forest.walk_le hx.spaces.links n hwalk) hs.1
      refine .step (y := x.define e t.lexeme (ρ.tokenAt d (some n) t).lexeme v) rfl rfl
        (define_alike hx he hv (fun hm => ?_) fun hm => ?_) (define_later _ _ _ _) trivial
      · rw [Renaming.tokenAt_some, if_neg (mt hmarked.mpr hm)]
      · have hd := hmarked.mp hm
        rw [Renaming.tokenAt_some, if_pos hd]
        exact ⟨hf (by rw [hd]; rfl), rfl⟩
  | none =>
    -- Globals are not renamed.
    have ht : ρ.tokenAt d none t = t := if_neg fun h => by
      obtain ⟨hd, rfl⟩ := h
      cases hd
    dsimp only
    rw [ht]
    refine .ask ?_
    rw [pairing_left, pairing_right, Lexical.holder?_globals, Lexical.holder?_globals,
      other_environments, hx.spaces.globals]
    unfold env
    by_cases hb : (x.machine.heap.environments.env 0).values.binds t.lexeme
    · rw [if_pos hb]
      exact .step (y := x.define 0 t.lexeme t.lexeme v) rfl rfl
        (define_alike hx hx.spaces.root hv (fun _ => rfl) fun hm =>
          absurd (hx.spaces.marked hm).1 (Nat.lt_irrefl 0)) (define_later _ _ _ _)
        trivial
    · rw [if_neg hb]
      exact .fail hx rfl

/-! ### What the two machines share -/

theorem Alike.findMethod?_eq (_ : Alike ρ x) (id : Nat) (name : String) :
    x.other.heap.findMethod? id name = x.machine.heap.findMethod? id name :=
  Lexical.findMethod?_congr (show x.other.heap.classes = x.machine.heap.classes from rfl) name id

/-- A method that is found was declared in a class. -/
theorem Alike.method_of_findMethod? (hx : Alike ρ x) {name : String} {m : Nat} (id : Nat)
    (hm : x.machine.heap.findMethod? id name = some m) : m < x.count ∧ x.unbound m := by
  obtain ⟨k, hk⟩ := Lexical.exists_of_findMethod? id hm
  exact hx.methods hk

/-- Functions of the two machines have the same name and take as many arguments. -/
theorem Alike.declaration_eq (hx : Alike ρ x) (id : Nat) :
    (x.other.heap.closure id).declaration.name = (x.machine.heap.closure id).declaration.name ∧
      (x.other.heap.closure id).declaration.params.length =
        (x.machine.heap.closure id).declaration.params.length := by
  by_cases hid : id < x.count
  · obtain ⟨-, -, d, -, hplain, hmethod⟩ := hx.codes hid
    by_cases hu : x.unbound id
    · exact ⟨(hmethod hu).name, (hmethod hu).arity⟩
    · exact ⟨(hplain hu).name, (hplain hu).arity⟩
  · have hleft : x.machine.heap.closure id = default :=
      Heap.closure_of_size_le (Nat.not_lt.mp hid)
    have hright : x.other.heap.closure id = default :=
      Heap.closure_of_size_le (Nat.le_trans (Nat.le_of_eq hx.count) (Nat.not_lt.mp hid))
    rw [hleft, hright]
    exact ⟨rfl, rfl⟩

theorem Alike.arity?_eq (hx : Alike ρ x) (v : Value) :
    x.other.heap.arity? v = x.machine.heap.arity? v := by
  have hfun : x.other.heap.functionArity = x.machine.heap.functionArity :=
    funext fun id => (hx.declaration_eq id).2
  cases v with
  | function id => exact congrArg some (congrFun hfun id)
  | classRef id => simp only [Heap.arity?, hfun, hx.findMethod?_eq]
  | _ => rfl

theorem Alike.display?_eq (hx : Alike ρ x) (n : Nat) :
    ∀ v, x.other.heap.display? n v = x.machine.heap.display? n v := by
  induction n with
  | zero => exact fun _ => rfl
  | succ n ih =>
    intro v
    cases v with
    | function id => rw [Heap.display?, Heap.display?, (hx.declaration_eq id).1]
    | array id =>
      have helements : x.other.heap.elements id = x.machine.heap.elements id := rfl
      rw [Heap.display?, Heap.display?, funext ih, helements]
    | _ => rfl

/-! ### Methods -/

/-- A method is bound to a receiver. -/
theorem inStep_bind (hx : Alike ρ x) {method : Nat}
    (hm : method < x.count ∧ x.unbound method) {receiver : Value} (hr : x.Bound receiver) :
    (pairing ρ).InStep x (make (·.bind method receiver)) (make (·.bind method receiver))
      fun id id' y => id = id' ∧ y.Bound (.function id) := by
  obtain ⟨hscope, hinit, d, hs, -, hmethod⟩ := hx.codes hm.1
  let c := x.machine.heap.closure method
  let c' := x.other.heap.closure method
  let b : Bindings Value := Bindings.empty.set "this" receiver
  -- The environment of the receiver is none that is renamed, and lies one scope further inside.
  let z := x.enclose c.scope b b False
  let y := z.addFunction { c with scope := x.size } { c' with scope := x.environments.size } False
  have hz : Alike ρ z := by
    refine enclose_alike hx hs.1 (fun {name v} hv => ?_) (fun _ => rfl) False.elim
    rw [Bindings.get?_set] at hv
    split at hv
    · cases hv
      exact hr
    · cases hv
  have hy : Alike ρ y := by
    have hstands : z.Stands x.size d.inner :=
      stands_enclose hx.spaces hs .inner ⟨False.elim, fun h => by cases d <;> cases h⟩
    exact addFunction_alike hz hx.spaces.size hinit hstands (fun _ => hmethod hm.2) False.elim
  have hlater : Later x y := (enclose_later _ _ _ _).trans (addFunction_later _ _ _)
  have hright : x.other.heap.bind method receiver = (x.count, y.other.heap) := by
    unfold Heap.bind
    dsimp only
    rw [hscope, ← hx.count]
    rfl
  refine .step (y := y) (a := x.count) (b := x.count) rfl ?_ hy hlater ⟨rfl, ?_⟩
  · change EStateM.Result.ok (x.other.heap.bind method receiver).1
      { x.other with heap := (x.other.heap.bind method receiver).2 } = _
    rw [hright]
    rfl
  · rintro id ⟨⟩
    refine ⟨?_, ?_⟩
    · exact size_lt_push _ _
    · change ¬(if x.count = x.count then False else _)
      rw [if_pos rfl]
      exact id

theorem inStep_bindValue (hx : Alike ρ x) {method : Nat}
    (hm : method < x.count ∧ x.unbound method) {receiver : Value} (hr : x.Bound receiver) :
    (pairing ρ).InStep x (.function <$> make (·.bind method receiver))
      (.function <$> make (·.bind method receiver)) Yields :=
  (inStep_bind hx hm hr).map fun _ _ _ _ _ ⟨hsame, hbound⟩ =>
    ⟨congrArg Value.function hsame, hbound⟩

/-- A property of an array. -/
theorem inStep_arrayProperty (hx : Alike ρ x) (id : Nat) (name : Token) :
    (pairing ρ).InStep x (arrayProperty id name) (arrayProperty id name) Yields := by
  unfold arrayProperty
  generalize name.lexeme = property
  split
  · exact .ask (inStep_pure hx fun _ h => nomatch h)
  · exact inStep_pure hx fun _ h => nomatch h
  · exact inStep_pure hx fun _ h => nomatch h
  · exact .fail hx rfl

/-- A property of a value. -/
theorem inStep_property (hx : Alike ρ x) (v : Value) (name : Token) :
    (pairing ρ).InStep x (getProperty v name) (getProperty v name) Yields := by
  cases v with
  | object id =>
    unfold getProperty instanceProperty
    refine .ask ?_
    rw [pairing_left, pairing_right, other_instanceInfo]
    cases hfield : (x.machine.heap.instanceInfo id).fields.get? name.lexeme with
    | some v => exact .pure hx ⟨rfl, hx.held (.field hfield)⟩
    | none =>
      refine .ask (.ask ?_)
      rw [pairing_left, pairing_right, other_instanceInfo, hx.findMethod?_eq]
      cases hm : x.machine.heap.findMethod? (x.machine.heap.instanceInfo id).classId
        name.lexeme with
      | some m =>
        exact inStep_bindValue hx (hx.method_of_findMethod? _ hm) (bound_of_ne fun _ h => nomatch h)
      | none => exact .fail hx rfl
  | array id => exact inStep_arrayProperty hx id name
  | _ => exact .fail hx rfl

/-- A property is set. -/
theorem inStep_setProperty (hx : Alike ρ x) (o : Value) (name : Token) {v : Value}
    (hv : x.Bound v) :
    (pairing ρ).InStep x (setProperty o name v) (setProperty o name v) fun _ _ _ => True := by
  cases o with
  | object id =>
    exact inStep_share (a := ()) (b := ()) hx rfl rfl rfl rfl rfl hx.methods
      (fun hu => (holds_setField hu).elim (fun h => h ▸ hv) hx.held) trivial
  | _ => exact .fail hx rfl

/-- A method of the class above, bound to the receiver. -/
theorem inStep_super (hx : Alike ρ x) (hs : x.Stands x.machine.current d) (ref : Reference)
    (method : Token) :
    (pairing ρ).InStep x (superMethod ref method) (superMethod ref method) Yields := by
  -- Neither `super` nor `this` is spelled in another way.
  have hget : ∀ {word : String} (n : Int), word ≠ ρ.old → word ≠ ρ.new →
      x.other.heap.environments.getAt x.machine.current n word =
        x.machine.heap.environments.getAt x.machine.current n word := by
    intro word n hold hnew
    have h := hx.spaces.getAt hs n (t := { (default : Token) with lexeme := word }) fun _ => hnew
    rwa [Renaming.tokenAt_of_ne hold] at h
  unfold superMethod
  cases ref.hops with
  | none => exact .throw hx (.defect _)
  | some hops =>
    refine .get (.ask ?_)
    change (pairing ρ).InStep x
      (Eval.found (x.machine.heap.environments.getAt x.machine.current hops "super") >>= _)
      (Eval.found (x.other.heap.environments.getAt x.machine.current hops "super") >>= _) Yields
    rw [hget _ (Ne.symm ρ.old_ordinary.2) (Ne.symm ρ.new_ordinary.2)]
    refine .found_bind hx fun parent _ => .ask ?_
    change (pairing ρ).InStep x
      (Eval.found (x.machine.heap.environments.getAt x.machine.current (hops - 1) "this") >>= _)
      (Eval.found (x.other.heap.environments.getAt x.machine.current (hops - 1) "this") >>= _)
      Yields
    rw [hget _ (Ne.symm ρ.old_ordinary.1) (Ne.symm ρ.new_ordinary.1)]
    refine .found_bind hx fun receiver hreceiver => ?_
    cases parent with
    | classRef classId =>
      refine .ask ?_
      rw [pairing_left, pairing_right, hx.findMethod?_eq]
      cases hm : x.machine.heap.findMethod? classId method.lexeme with
      | some m =>
        exact inStep_bindValue hx (hx.method_of_findMethod? _ hm)
          (hx.held (holds_of_getAt hreceiver))
      | none => exact .fail hx rfl
    | _ => exact .throw hx (.defect _)

/-! ### Native functions -/

/-- What is allowed goes on, and what is refused is a fault on both sides. -/
theorem inStep_allowed {ι : Type} {f : ι → Eval α} {g : ι → Eval β} (hx : Alike ρ x)
    (paren : Token) (r : Except Refusal ι)
    (h : ∀ a, r = .ok a → (pairing ρ).InStep x (f a) (g a) Q) :
    (pairing ρ).InStep x (allowed paren r >>= f) (allowed paren r >>= g) Q := by
  cases r with
  | ok a => exact h a rfl
  | error why => exact .fail hx rfl

/-- A native function is called. -/
theorem inStep_native (host : Host) (hx : Alike ρ x) (paren : Token) (f : Native)
    {arguments : List Value} (ha : ∀ v ∈ arguments, x.Bound v) :
    (pairing ρ).InStep x (applyNative host paren f arguments)
      (applyNative host paren f arguments) Yields := by
  have hfail : (pairing ρ).InStep x
      (Eval.fail (.arity f.arity arguments.length) paren : Eval Value)
      (Eval.fail (.arity f.arity arguments.length) paren) Yields := .fail hx rfl
  -- The heaps are the same but for environments and code, so both sides find the same.
  cases f with
  | clock =>
    exact inStep_share (m := { x.machine with readings := x.machine.readings + 1 }) hx rfl rfl rfl
      rfl rfl hx.methods (fun hu => hx.held (hu.of_eq rfl rfl rfl))
      ⟨rfl, bound_of_ne fun _ h => nomatch h⟩
  | makeArray =>
    cases arguments with
    | nil => exact hfail
    | cons size rest =>
      refine inStep_allowed hx paren _ fun elements helements => ?_
      -- A new array holds nothing but nil.
      have hheld : ∀ {u}, (x.machine.withArrays (x.machine.heap.arrays.push elements)).Holds u →
          x.Bound u := by
        intro u hu
        rcases holds_newArray helements hu with rfl | hu
        · exact bound_nil
        · exact hx.held hu
      exact inStep_share hx (a := .array x.machine.heap.arrays.size) rfl rfl rfl rfl rfl hx.methods
        hheld ⟨rfl, bound_of_ne fun _ h => nomatch h⟩
  | elementOf id =>
    cases arguments with
    | nil => exact hfail
    | cons index rest =>
      refine .ask ?_
      change (pairing ρ).InStep x
        (allowed paren (Elements.get (x.machine.heap.elements id) index))
        (allowed paren (Elements.get (x.machine.heap.elements id) index)) Yields
      cases hget : Elements.get (x.machine.heap.elements id) index with
      | error why => exact .fail hx rfl
      | ok v =>
        refine .pure hx ⟨rfl, ?_⟩
        rcases Elements.eq_nil_or_getElem?_of_get hget with rfl | ⟨i, hi⟩
        · exact bound_nil
        · exact hx.held (.element hi)
  | storeInto id =>
    cases arguments with
    | nil => exact hfail
    | cons index rest =>
      cases rest with
      | nil => exact hfail
      | cons value rest =>
        have hvalue : x.Bound value := ha value (by simp)
        refine .ask (inStep_allowed hx paren _ fun i _ => ?_)
        have hstore : (pairing ρ).InStep x
            (change fun h =>
              { h with arrays := h.arrays.modify id fun a => a.setIfInBounds i value })
            (change fun h =>
              { h with arrays := h.arrays.modify id fun a => a.setIfInBounds i value })
            fun _ _ _ => True :=
          inStep_share (a := ()) (b := ()) hx rfl rfl rfl rfl rfl hx.methods
            (fun hu => (holds_storeElement hu).elim (fun h => h ▸ hvalue) hx.held) trivial
        exact hstore.bind fun _ _ y hy hl _ => .pure hy ⟨rfl, hvalue.mono hl⟩

/-! ### New environments -/

/-- The two machines in another environment. -/
def enter (x : Twins) (e : Nat) : Twins :=
  { x with machine := { x.machine with current := e } }

theorem Alike.enter (hx : Alike ρ x) (e : Nat) : Alike ρ (x.enter e) := by
  obtain ⟨⟨hroot, hsize, henclosing, hlinks, hp, hr, hf, hm⟩, hcount, hcodes, hmethods, hheld⟩ := hx
  refine ⟨⟨hroot, hsize, henclosing, hlinks, hp, hr, hf, hm⟩, hcount, fun hid => ?_, hmethods,
    fun hv => hheld (hv.of_eq rfl rfl rfl)⟩
  obtain ⟨hscope, hinit, hdeclared⟩ := hcodes hid
  exact ⟨hscope, hinit, hdeclared⟩

theorem Stands.later (hs : x.Stands x.machine.current d) (hx : Alike ρ x) (hxy : Later x y) :
    y.Stands y.machine.current d := by
  rw [hxy.current]
  exact hs.mono hx.spaces hxy

/-- A new environment, which is marked if it is made for the renamed scope. -/
theorem inStep_newEnvironment (hx : Alike ρ x) {outer : Nat} {inside : Depth}
    {b b' : Bindings Value} (hs : x.Stands outer d) (ho : d.Opens inside)
    (hb : ∀ {name v}, b.get? name = some v → x.Bound v) (hplain : inside ≠ some 0 → b' = b)
    (hrenamed : inside = some 0 → b.get? ρ.new = none ∧ b' = b.rename ρ) :
    (pairing ρ).InStep x (make (·.newEnvironment (some outer) b))
      (make (·.newEnvironment (some outer) b')) fun e e' y => e = e' ∧ y.Stands e inside :=
  .step (y := x.enclose outer b b' (inside = some 0)) rfl rfl
    (enclose_alike hx hs.1 hb hplain hrenamed) (enclose_later _ _ _ _)
    ⟨hx.spaces.size.symm, stands_enclose hx.spaces hs ho Iff.rfl⟩

/-- Statements do the same under the two spellings. -/
def RunsAlike (ρ : Renaming) (run run' : Stmt → Eval Completion) : Prop :=
  ∀ {x d s s'}, Alike ρ x → x.Stands x.machine.current d → StmtRenamed ρ d s s' →
    (pairing ρ).InStep x (run s) (run' s') Completes

section Calls

variable {run run' : Stmt → Eval Completion} (hrun : RunsAlike ρ run run')

include hrun

/-- The statements of a body, in an environment of their own. -/
theorem inStep_body (hx : Alike ρ x) {e : Nat} (hs : x.Stands e d) {body body' : List Stmt}
    (hb : BodyRenamed ρ d body body') :
    (pairing ρ).InStep x (inEnvironment e (runAll run body)) (inEnvironment e (runAll run' body'))
      Completes := by
  have hall : (pairing ρ).InStep (x.enter e) (runAll run body) (runAll run' body') Completes :=
    .runAll (I := fun y => y.Stands y.machine.current d) (fun hy hl hs => hs.later hy hl)
      (hb.forall₂.imp fun _ _ hstmt y hy hs => hrun hy hs hstmt) (hx.enter e) hs
  refine .inEnvironment (z := x.enter e) rfl rfl hall fun y hy hl => ?_
  exact ⟨y.enter x.machine.current, rfl, rfl, Alike.enter hy _,
    ⟨hl.size, hl.enclosing, hl.marked, hl.count, hl.unbound, rfl⟩, fun _ _ h => h⟩

/-- A function is called. -/
theorem inStep_apply (hx : Alike ρ x) {id : Nat} (hf : x.Bound (.function id))
    {arguments : List Value} (ha : ∀ v ∈ arguments, x.Bound v) :
    (pairing ρ).InStep x (applyFunction run id arguments) (applyFunction run' id arguments)
      Yields := by
  obtain ⟨hid, hu⟩ := hf id rfl
  obtain ⟨hscope, hinit, d, hs, hplain, -⟩ := hx.codes hid
  have hdeclaration := hplain hu
  obtain ⟨c, hc⟩ : ∃ c, x.machine.heap.closure id = c := ⟨_, rfl⟩
  obtain ⟨c', hc'⟩ : ∃ c', x.other.heap.closure id = c' := ⟨_, rfl⟩
  rw [hc] at hscope hinit hs hdeclaration
  rw [hc'] at hscope hinit hdeclaration
  refine .ask ?_
  rw [show ((pairing ρ).left x).heap.closure id = c from hc,
    show ((pairing ρ).right x).heap.closure id = c' from hc']
  obtain ⟨f, scope, isInit⟩ := c
  obtain ⟨f', scope', isInit'⟩ := c'
  obtain rfl : scope' = scope := hscope
  obtain rfl : isInit' = isInit := hinit
  obtain @⟨_, inside, name, params, body, body', ho, hp, hb⟩ := hdeclaration
  -- The parameters are spelled in the way of the scope they are bound in.
  have hplain : inside ≠ some 0 →
      bindParams (params.map (ρ.tokenAt inside (some 0))) arguments =
        bindParams params arguments := by
    intro hne
    rw [List.map_congr_left fun t _ => (Renaming.tokenAt_some inside 0 t).trans (if_neg hne),
      List.map_id']
  have hrenamed : inside = some 0 → (bindParams params arguments).get? ρ.new = none ∧
      bindParams (params.map (ρ.tokenAt inside (some 0))) arguments =
        (bindParams params arguments).rename ρ := by
    rintro rfl
    rw [List.map_congr_left fun t _ => (Renaming.tokenAt_some (some 0) 0 t).trans (if_pos rfl)]
    exact bindParams_rename (fun p hmem => hp p hmem rfl) arguments
  refine (inStep_newEnvironment hx hs ho (fun hv => ha _ (mem_of_bindParams hv)) hplain
    hrenamed).bind fun e e' y hy hl ⟨hsame, hse⟩ => ?_
  subst hsame
  refine (inStep_body hrun hy hse hb).bind fun c c' z hz hlz ⟨hsame, hv⟩ => ?_
  subst hsame
  refine .ite Iff.rfl (.ask ?_) ?_
  · -- An initializer gives the receiver, which is spelled the same.
    have hsz := hs.mono hx.spaces (Later.trans hl hlz)
    have hget := hz.spaces.getAt hsz 0 (t := { (default : Token) with lexeme := "this" })
      fun _ => Ne.symm ρ.new_ordinary.1
    rw [Renaming.tokenAt_of_ne (Ne.symm ρ.old_ordinary.1)] at hget
    change (pairing ρ).InStep z (Eval.found (z.machine.heap.environments.getAt _ 0 "this"))
      (Eval.found (z.environments.getAt _ 0 "this")) Yields
    rw [hget]
    exact .found hz fun v hv => ⟨rfl, hz.held (holds_of_getAt hv)⟩
  · cases c with
    | returned v => exact .pure hz ⟨rfl, hv v rfl⟩
    | normal => exact .pure hz ⟨rfl, bound_nil⟩
    | broke => exact .pure hz ⟨rfl, bound_nil⟩

/-- An instance is made. -/
theorem inStep_construct (hx : Alike ρ x) (classId : Nat) {arguments : List Value}
    (ha : ∀ v ∈ arguments, x.Bound v) :
    (pairing ρ).InStep x (construct run classId arguments) (construct run' classId arguments)
      Yields := by
  have hnew : (pairing ρ).InStep x (make (·.newInstance classId)) (make (·.newInstance classId))
      fun id id' _ => id = id' :=
    inStep_share hx rfl rfl rfl rfl rfl hx.methods (fun hu => hx.held (holds_newInstance hu)) rfl
  refine hnew.bind fun id id' y hy hl hsame => ?_
  subst hsame
  refine .ask ?_
  rw [pairing_left, pairing_right, hy.findMethod?_eq]
  have hobject : ∀ z : Twins, z.Bound (.object id) := fun _ => bound_of_ne fun _ h => nomatch h
  cases hm : y.machine.heap.findMethod? classId "init" with
  | none => exact .pure hy ⟨rfl, hobject y⟩
  | some m =>
    refine (inStep_bind hy (hy.method_of_findMethod? _ hm) (hobject y)).bind
      fun f f' z hz hlz ⟨hsame, hf⟩ => ?_
    subst hsame
    have haz : ∀ v ∈ arguments, z.Bound v := fun v hv => (ha v hv).mono (Later.trans hl hlz)
    exact (inStep_apply hrun hz hf haz).bind fun _ _ w hw _ _ => .pure hw ⟨rfl, hobject w⟩

/-- A value is called. -/
theorem inStep_call (host : Host) (hx : Alike ρ x) (paren : Token) {callee : Value}
    (hc : x.Bound callee) {arguments : List Value} (ha : ∀ v ∈ arguments, x.Bound v) :
    (pairing ρ).InStep x (callValue host run paren callee arguments)
      (callValue host run' paren callee arguments) Yields := by
  unfold callValue
  refine .ask ?_
  rw [pairing_left, pairing_right, hx.arity?_eq]
  cases x.machine.heap.arity? callee with
  | none => exact .fail hx rfl
  | some n =>
    refine .ite Iff.rfl (.fail hx rfl) (.catchExhausted rfl ?_)
    cases callee with
    | native f => exact inStep_native host hx paren f ha
    | function id => exact inStep_apply hrun hx hc ha
    | classRef id => exact inStep_construct hrun hx id ha
    | _ => exact .fail hx rfl

end Calls

/-! ### Declarations -/

/-- A function is made, in the two spellings of its declaration. -/
theorem inStep_newFunction (method : Prop) (hx : Alike ρ x) {scope : Nat} {f f' : Function}
    {isInit : Bool} (hs : x.Stands scope d) (hplain : ¬method → FunctionRenamed ρ d f f')
    (hmethod : method → FunctionRenamed ρ d.inner f f') :
    (pairing ρ).InStep x (make (·.newFunction { declaration := f, scope, isInit }))
      (make (·.newFunction { declaration := f', scope, isInit }))
      fun id id' y => id = id' ∧ id < y.count ∧ (y.unbound id ↔ method) := by
  refine .step (y := x.addFunction ⟨f, scope, isInit⟩ ⟨f', scope, isInit⟩ method) rfl rfl
    (addFunction_alike hx rfl rfl hs hplain hmethod) (addFunction_later _ _ _)
    ⟨hx.count.symm, ?_, ?_⟩
  · exact size_lt_push _ _
  · change (if x.count = x.count then method else _) ↔ method
    rw [if_pos rfl]

/-- A function is declared. -/
theorem inStep_declareFunction (hx : Alike ρ x) (hs : x.Stands x.machine.current d)
    {f f' : Function} (hk : ρ.Keeps d f.name) (hf : FunctionRenamed ρ d f f') :
    (pairing ρ).InStep x (declareFunction f) (declareFunction f') fun _ _ _ => True := by
  unfold declareFunction
  rw [hf.name]
  refine .get ((inStep_newFunction False hx hs (fun _ => hf) False.elim).bind
    fun id id' y hy hl ⟨hsame, hid, hu⟩ => ?_)
  subst hsame
  refine inStep_defineKept hy (hs.later hx hl) hk ?_
  rintro _ ⟨⟩
  exact ⟨hid, hu.mp⟩

/-- A table of methods without receivers. -/
def Methods (x : Twins) (table : Bindings Nat) : Prop :=
  ∀ {name id}, table.get? name = some id → id < x.count ∧ x.unbound id

theorem Methods.mono {table : Bindings Nat} (h : x.Methods table) (hxy : Later x y) :
    y.Methods table := by
  intro name id hget
  obtain ⟨hid, hu⟩ := h hget
  exact ⟨Nat.lt_of_lt_of_le hid hxy.count, (hxy.unbound hid).mpr hu⟩

/-- The methods of a class are made. -/
theorem inStep_makeMethods {scope : Nat} {methods methods' : List Function}
    (hm : MethodsRenamed ρ d.inner methods methods') :
    ∀ {x done}, Alike ρ x → x.Stands scope d → x.Methods done →
      (pairing ρ).InStep x (makeMethods scope methods done) (makeMethods scope methods' done)
        fun table table' y => table = table' ∧ y.Methods table := by
  induction methods generalizing methods' with
  | nil =>
    cases hm
    exact fun hx _ hdone => .pure hx ⟨rfl, hdone⟩
  | cons f rest ih =>
    obtain _ | ⟨hf, hrest⟩ := hm
    intro x done hx hs hdone
    unfold makeMethods
    rw [hf.name, hf.isInit]
    refine (inStep_newFunction True hx hs (fun h => absurd trivial h)
      fun _ => hf).bind fun id id' y hy hl ⟨hsame, hid, hu⟩ => ?_
    subst hsame
    refine ih hrest hy (hs.mono hx.spaces hl) ?_
    intro name' id' hget
    rw [Bindings.get?_set] at hget
    -- A later method of the same name takes the place of an earlier one.
    by_cases hname : f.name.lexeme = name'
    · rw [if_pos hname] at hget
      cases hget
      exact ⟨hid, hu.mpr trivial⟩
    · rw [if_neg hname] at hget
      exact hdone.mono hl hget

/-- A class is made. -/
theorem inStep_newClass (hx : Alike ρ x) {info : ClassInfo} (hm : x.Methods info.methods) :
    (pairing ρ).InStep x (make (·.newClass info)) (make (·.newClass info))
      fun id id' _ => id = id' := by
  refine inStep_share (m := { x.machine with heap := { x.machine.heap with
    classes := x.machine.heap.classes.push info } }) hx rfl rfl rfl rfl rfl ?_
    (fun hu => hx.held (hu.of_eq rfl rfl rfl)) rfl
  exact fun hk => (Heap.get?_of_newClass hk).elim hm hx.methods

/-- A class is finished, once the environment of its methods is there. -/
theorem inStep_finishClass {superclass : Option Nat} {inside : Depth} {scope : Nat}
    (hx : Alike ρ x) (hs : x.Stands x.machine.current d) (hscope : x.Stands scope inside)
    {name : Token} (hk : ρ.Keeps d name) {methods methods' : List Function}
    (hm : MethodsRenamed ρ inside.inner methods methods') :
    (pairing ρ).InStep x
      (do
        let table ← makeMethods scope methods .empty
        let id ← make (·.newClass { name := name.lexeme, superclass, methods := table })
        Eval.define name.lexeme (.classRef id))
      (do
        let table ← makeMethods scope methods' .empty
        let id ← make (·.newClass { name := name.lexeme, superclass, methods := table })
        Eval.define name.lexeme (.classRef id))
      fun _ _ _ => True := by
  have hempty : x.Methods .empty := fun h => nomatch h
  refine (inStep_makeMethods hm hx hscope hempty).bind fun table table' y hy hl ⟨hsame, ht⟩ => ?_
  subst hsame
  refine (inStep_newClass hy ht).bind fun id id' z hz hlz hsame => ?_
  subst hsame
  exact inStep_defineKept hz (hs.later hx (Later.trans hl hlz)) hk (bound_classRef id)

/-- A class is declared.  Its methods lie one scope further inside than the
environment they close over. -/
theorem inStep_declareClass (superclass : Option Nat) (hx : Alike ρ x)
    (hs : x.Stands x.machine.current d) {name : Token} (hk : ρ.Keeps d name)
    {methods methods' : List Function}
    (hm : MethodsRenamed ρ (if superclass.isSome then d.inner.inner else d.inner) methods
      methods') :
    (pairing ρ).InStep x (declareClass name superclass methods)
      (declareClass name superclass methods') fun _ _ _ => True := by
  unfold declareClass
  refine (inStep_defineKept hx hs hk bound_nil).bind fun _ _ y hy hl _ => .get ?_
  have hsy := hs.later hx hl
  cases superclass with
  | none => exact inStep_finishClass hy hsy hsy hk hm
  | some parent =>
    have hsuper : ∀ {name v}, (Bindings.empty.set "super" (.classRef parent)).get? name = some v →
        y.Bound v := by
      intro name v hv
      rw [Bindings.get?_set] at hv
      split at hv
      · cases hv
        exact bound_classRef parent
      · cases hv
    -- The environment of `super` is one scope more, with a name no renaming touches.
    refine (inStep_newEnvironment hy hsy .inner hsuper (fun _ => rfl) fun h => ?_).bind
      fun e e' z hz hlz ⟨hsame, hse⟩ => ?_
    · cases d <;> cases h
    · subst hsame
      exact inStep_finishClass hz (hsy.later hy hlz) hse hk hm

/-! ### Expressions and statements -/

/-- Expressions do the same under the two spellings. -/
def EvalsAlike (ρ : Renaming) (ev ev' : Expr → Eval Value) : Prop :=
  ∀ {x d e e'}, Alike ρ x → x.Stands x.machine.current d → ExprRenamed ρ d e e' →
    (pairing ρ).InStep x (ev e) (ev' e') Yields

section Trees

variable {host : Host} {n : Nat} (he : EvalsAlike ρ (eval host n) (eval host n))
  (hr : RunsAlike ρ (exec host n) (exec host n))

include he in
/-- The arguments of a call. -/
theorem inStep_arguments (hx : Alike ρ x) (hs : x.Stands x.machine.current d)
    {es es' : List Expr} (h : List.Forall₂ (ExprRenamed ρ d) es es') :
    (pairing ρ).InStep x (es.mapM (eval host n)) (es'.mapM (eval host n)) fun vs vs' y =>
      vs = vs' ∧ ∀ v ∈ vs, y.Bound v :=
  .mapM (I := fun x : Twins => x.Stands x.machine.current d)
    (V := fun v (x : Twins) => x.Bound v)
    (fun hy hl hs => hs.later hy hl) (fun _ hl hv => hv.mono hl)
    (h.imp fun _ _ hexpr _ hy hsy => he hy hsy hexpr) hx hs

include he hr in
/-- Expressions with one more frame. -/
theorem EvalsAlike.succ : EvalsAlike ρ (eval host (n + 1)) (eval host (n + 1)) := by
  intro x d e e' hx hs h
  cases h with
  | literal => exact inStep_pure hx fun id => by rename_i v; cases v <;> exact fun h => nomatch h
  | grouping h => exact he hx hs h
  | unary h =>
    refine (he hx hs h).bind fun v v' y hy hl ⟨hsame, hv⟩ => ?_
    subst hsame
    exact inStep_plain hy (plain_unary _ v)
  | binary hleft hright =>
    refine (he hx hs hleft).bind fun a a' y hy hl ⟨hsame, _⟩ => ?_
    subst hsame
    refine (he hy (hs.later hx hl) hright).bind fun b b' z hz hlz ⟨hsame, _⟩ => ?_
    subst hsame
    exact inStep_plain hz (plain_binary _ a b)
  | logical hleft hright =>
    refine (he hx hs hleft).bind fun a a' y hy hl ⟨hsame, ha⟩ => ?_
    subst hsame
    exact .ite Iff.rfl (.pure hy ⟨rfl, ha⟩) (he hy (hs.later hx hl) hright)
  | var hf => exact inStep_lookup hx hs hf
  | assign hf h =>
    refine (he hx hs h).bind fun v v' y hy hl ⟨hsame, hv⟩ => ?_
    subst hsame
    exact (inStep_assign hy (hs.later hx hl) hf hv).bind fun _ _ z hz hlz _ =>
      .pure hz ⟨rfl, hv.mono hlz⟩
  | call hcallee hes =>
    refine (he hx hs hcallee).bind fun f f' y hy hl ⟨hsame, hf⟩ => ?_
    subst hsame
    refine (inStep_arguments he hy (hs.later hx hl) hes).bind fun vs vs' z hz hlz ⟨hsame, hvs⟩ => ?_
    subst hsame
    exact inStep_call hr host hz _ (hf.mono hlz) hvs
  | get h =>
    refine (he hx hs h).bind fun v v' y hy hl ⟨hsame, _⟩ => ?_
    subst hsame
    exact inStep_property hy v _
  | set ho h =>
    refine (he hx hs ho).bind fun o o' y hy hl ⟨hsame, _⟩ => ?_
    subst hsame
    refine .ite Iff.rfl ?_ (.fail hy rfl)
    refine (he hy (hs.later hx hl) h).bind fun v v' z hz hlz ⟨hsame, hv⟩ => ?_
    subst hsame
    exact (inStep_setProperty hz o _ hv).bind fun _ _ w hw hlw _ => .pure hw ⟨rfl, hv.mono hlw⟩
  -- `this` is never renamed, so it is looked up like any other name.
  | this hspares =>
    have hsame := inStep_lookup hx hs hspares.fresh
    rwa [hspares.reference] at hsame
  | super hspares => exact inStep_super hx hs _ _
  | blank => exact .throw hx (.defect _)
  | bare => exact .throw hx (.defect _)
  | misplaced => exact .throw hx (.defect _)

include he in
/-- A variable is declared. -/
theorem inStep_varDecl (hx : Alike ρ x) (hs : x.Stands x.machine.current d) {name : Token}
    (hf : ρ.Fresh d name) {init init' : Option Expr}
    (hi : Option.Rel (ExprRenamed ρ d) init init') :
    (pairing ρ).InStep x (exec host (n + 1) (.varDecl name init))
      (exec host (n + 1) (.varDecl (ρ.tokenAt d (some 0) name) init')) Completes := by
  have hdefine : ∀ {y v}, Alike ρ y → y.Stands y.machine.current d → y.Bound v →
      (pairing ρ).InStep y
        (do
          Eval.define name.lexeme v
          pure Completion.normal)
        (do
          Eval.define (ρ.tokenAt d (some 0) name).lexeme v
          pure Completion.normal) Completes := fun hy hsy hv =>
    (inStep_define hy hsy hf hv).bind fun _ _ z hz _ _ => .pure hz ⟨rfl, fun _ h => nomatch h⟩
  cases hi with
  | none => exact hdefine hx hs bound_nil
  | some h =>
    refine (he hx hs h).bind fun v v' y hy hl ⟨hsame, hv⟩ => ?_
    subst hsame
    exact hdefine hy (hs.later hx hl) hv

include he hr in
/-- Statements with one more frame. -/
theorem RunsAlike.succ : RunsAlike ρ (exec host (n + 1)) (exec host (n + 1)) := by
  intro x d s s' hx hs h
  have hnormal : ∀ {y}, Alike ρ y →
      (pairing ρ).InStep y (pure Completion.normal) (pure Completion.normal) Completes :=
    fun hy => .pure hy ⟨rfl, fun _ h => nomatch h⟩
  -- The case is one of how the statement is renamed, which fixes both statements.
  cases h with
  | expression h => exact (he hx hs h).bind fun _ _ y hy _ _ => hnormal hy
  | print h =>
    refine (he hx hs h).bind fun v v' y hy hl ⟨hsame, _⟩ => .ask ?_
    subst hsame
    rw [pairing_left, pairing_right, hy.display?_eq]
    cases y.machine.heap.display? n v with
    | none => exact .throw hy .exhausted
    | some text =>
      have hwrite : (pairing ρ).InStep y (writeLine text) (writeLine text) fun _ _ _ => True :=
        inStep_share (a := ()) (b := ()) hy rfl rfl rfl rfl rfl hy.methods
          (fun hu => hy.held (hu.of_eq rfl rfl rfl)) trivial
      exact hwrite.bind fun _ _ z hz _ _ => hnormal hz
  | varDecl hf hi => exact inStep_varDecl he hx hs hf hi
  | block ho hb =>
    have hempty : ∀ {name v}, ({} : Bindings Value).get? name = some v → x.Bound v :=
      fun h => nomatch h
    refine .get ((inStep_newEnvironment hx hs ho hempty (fun _ => rfl)
      fun _ => ⟨rfl, rfl⟩).bind fun e e' y hy hl ⟨hsame, hse⟩ => ?_)
    subst hsame
    exact inStep_body hr hy hse hb
  | ifAlone h hthen =>
    refine (he hx hs h).bind fun c c' y hy hl ⟨hsame, _⟩ => ?_
    subst hsame
    exact .ite Iff.rfl (hr hy (hs.later hx hl) hthen) (hnormal hy)
  | ifElse h hthen helse =>
    refine (he hx hs h).bind fun c c' y hy hl ⟨hsame, _⟩ => ?_
    subst hsame
    exact .ite Iff.rfl (hr hy (hs.later hx hl) hthen) (hr hy (hs.later hx hl) helse)
  | whileLoop h hbody =>
    -- The depth at which the renamed name lies is the same in every turn.
    refine .iterate (I := fun y : Twins => y.Stands y.machine.current d)
      (fun hy hl hsy => hsy.later hy hl) (fun y hy hsy => ?_) (fun y hy hsy => hr hy hsy hbody)
      _ hx hs
    refine (he hy hsy h).bind fun v v' z hz _ ⟨hsame, _⟩ => ?_
    exact .pure hz (congrArg Value.isTruthy hsame)
  | breakLoop => exact .pure hx ⟨rfl, fun _ h => nomatch h⟩
  | funDecl hk hf => exact (inStep_declareFunction hx hs hk hf).bind fun _ _ y hy _ _ => hnormal hy
  | returned hv =>
    cases hv with
    | none =>
      refine .pure hx ⟨rfl, ?_⟩
      rintro _ ⟨⟩
      exact bound_nil
    | some h =>
      refine (he hx hs h).bind fun v v' y hy _ ⟨hsame, hv⟩ => .pure hy ⟨congrArg _ hsame, ?_⟩
      rintro _ ⟨⟩
      exact hv
  | classDecl hk hm =>
    exact (inStep_declareClass none hx hs hk hm).bind fun _ _ y hy _ _ => hnormal hy
  | subclass hk hf hm =>
    refine (inStep_lookup hx hs hf).bind fun v v' y hy hl ⟨hsame, _⟩ => ?_
    subst hsame
    cases v with
    | classRef parent =>
      exact (inStep_declareClass (some parent) hy (hs.later hx hl) hk hm).bind
        fun _ _ z hz _ _ => hnormal hz
    | _ => exact .fail hy (Renaming.tokenAt_span _ _ _)
  | misplaced => exact .throw hx (.defect _)

end Trees

/-- Expressions and statements do the same under the two spellings. -/
theorem alike_eval_and_exec (ρ : Renaming) (host : Host) (n : Nat) :
    EvalsAlike ρ (eval host n) (eval host n) ∧ RunsAlike ρ (exec host n) (exec host n) := by
  induction n with
  | zero => exact ⟨fun hx _ _ => .throw hx .exhausted, fun hx _ _ => .throw hx .exhausted⟩
  | succ n ih => exact ⟨EvalsAlike.succ ih.1 ih.2, RunsAlike.succ ih.1 ih.2⟩

end Twins

end Lox
