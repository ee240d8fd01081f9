/-
Objects and operators side by side.

Objects are the same on both sides, so they are read and changed alike.  Only a
method that is bound to a receiver is another matter: the machine makes an
environment for `this`, and lexical scoping a cell.

* `Mirrors.display?_eq`, `Mirrors.arity?_eq`, `Mirrors.findMethod?_eq` — what the
  objects tell;
* `beside_unary`, `beside_binary` — operators;
* `beside_bind` — a method is bound;
* `beside_property`, `beside_setProperty`, `beside_super` — properties;
* `beside_native` — native functions.
-/
import Lox.Proofs.Beside

namespace Lox.Lexical

open Scope

variable {R : Token → Token → Prop} {before : String} {k : Extent} {x y : Snapshot}

/-! ### What the objects tell -/

/-- Methods are found in the classes alone. -/
theorem findMethod?_congr {h h' : Heap} (hc : h.classes = h'.classes) (name : String)
    (id : Nat) : h.findMethod? id name = h'.findMethod? id name := by
  have hinfo : ∀ id, h.classInfo id = h'.classInfo id := by
    intro id
    unfold Heap.classInfo
    rw [hc]
  induction id using Nat.strongRecOn with
  | _ id ih =>
    have hsuper : h.superclass? id = h'.superclass? id := by
      unfold Heap.superclass?
      rw [hinfo]
    rw [Heap.findMethod?, Heap.findMethod?, hinfo, hsuper]
    cases (h'.classInfo id).methods.get? name with
    | some m => rfl
    | none =>
      cases h'.superclass? id with
      | none => rfl
      | some p => exact ih p.1 p.2

/-- What is found in a class was declared in it or in one above it. -/
theorem exists_of_findMethod? {h : Heap} {name : String} {m : Nat} (id : Nat)
    (hm : h.findMethod? id name = some m) : ∃ k, (h.classInfo k).methods.get? name = some m := by
  induction id using Nat.strongRecOn with
  | _ id ih =>
    rw [Heap.findMethod?] at hm
    cases hget : (h.classInfo id).methods.get? name with
    | some m' =>
      rw [hget] at hm
      cases hm
      exact ⟨id, hget⟩
    | none =>
      rw [hget] at hm
      cases hsuper : h.superclass? id with
      | none =>
        rw [hsuper] at hm
        cases hm
      | some p =>
        rw [hsuper] at hm
        exact ih p.1 p.2 hm

namespace Mirrors

variable (h : Mirrors R before x)

include h in
theorem classInfo_eq (id : Nat) :
    x.world.machine.heap.classInfo id = x.machine.heap.classInfo id := by
  unfold Heap.classInfo
  rw [h.shares.classes]

include h in
theorem instanceInfo_eq (id : Nat) :
    x.world.machine.heap.instanceInfo id = x.machine.heap.instanceInfo id := by
  unfold Heap.instanceInfo
  rw [h.shares.instances]

include h in
theorem elements_eq (id : Nat) :
    x.world.machine.heap.elements id = x.machine.heap.elements id := by
  unfold Heap.elements
  rw [h.shares.arrays]

include h in
theorem findMethod?_eq (name : String) (id : Nat) :
    x.world.machine.heap.findMethod? id name = x.machine.heap.findMethod? id name :=
  findMethod?_congr h.shares.classes name id

include h in
/-- What a class or one above it gives for a name is a method. -/
theorem isMethod_of_findMethod? {name : String} {m : Nat} (id : Nat)
    (hm : x.machine.heap.findMethod? id name = some m) : IsMethod R x m := by
  obtain ⟨k, hk⟩ := exists_of_findMethod? id hm
  exact h.codes.methods hk

include h in
/-- Functions have the same names and as many parameters. -/
theorem declaration_eq (hR : ∀ {t t'}, R t t' → t.Alike t') (id : Nat) :
    (x.world.machine.heap.closure id).declaration.name.lexeme =
        (x.machine.heap.closure id).declaration.name.lexeme ∧
      (x.world.machine.heap.closure id).declaration.params.length =
        (x.machine.heap.closure id).declaration.params.length := by
  have hshape : ∀ {S : Scopes} {f f' : Function}, FunctionShape R .lexical S f f' →
      f.name.lexeme = f'.name.lexeme ∧ f.params.length = f'.params.length := by
    rintro S f f' ⟨hn, -, hp, -⟩
    exact ⟨(hR hn).lexeme, hp.length_eq⟩
  by_cases hid : id < x.functionCount
  · rcases h.codes.closures hid with ⟨-, S, -, hs, -⟩ | ⟨-, S, -, hs, -⟩
    · exact hshape hs
    · exact hshape hs
  · -- A number without a function stands for none on both sides.
    have hmachine : x.machine.heap.closure id = default :=
      Heap.closure_of_size_le (Nat.not_lt.mp hid)
    have hworld : x.world.machine.heap.closure id = default :=
      Heap.closure_of_size_le (h.codes.functions ▸ Nat.not_lt.mp hid)
    rw [hmachine, hworld]
    exact ⟨rfl, rfl⟩

include h in
/-- Values have the same texts. -/
theorem display?_eq (hR : ∀ {t t'}, R t t' → t.Alike t') (n : Nat) :
    ∀ v, x.world.machine.heap.display? n v = x.machine.heap.display? n v := by
  induction n with
  | zero => exact fun _ => rfl
  | succ n ih =>
    intro v
    cases v with
    | function id =>
      rw [Heap.display?, Heap.display?, (h.declaration_eq hR id).1]
    | classRef id => rw [Heap.display?, Heap.display?, h.classInfo_eq]
    | object id =>
      rw [Heap.display?, Heap.display?, h.instanceInfo_eq, h.classInfo_eq]
    | array id =>
      rw [Heap.display?, Heap.display?, h.elements_eq, funext ih]
    | _ => rfl

include h in
theorem arity?_eq (hR : ∀ {t t'}, R t t' → t.Alike t') (v : Value) :
    x.world.machine.heap.arity? v = x.machine.heap.arity? v := by
  have hfun : x.world.machine.heap.functionArity = x.machine.heap.functionArity :=
    funext fun id => (h.declaration_eq hR id).2
  cases v with
  | function id => simp only [Heap.arity?, hfun]
  | classRef id => simp only [Heap.arity?, hfun, h.findMethod?_eq]
  | _ => rfl

end Mirrors

/-! ### Operators -/

section Operators

variable (hR : ∀ {t t'}, R t t' → t.Alike t') {op op' : Token}

include hR in
theorem beside_unary (hm : Mirrors R before x) (hop : R op op')
    (hk : Tree.isUnary op.kind) (v : Value) :
    Beside R before k x (applyUnary op' v) (lift (applyUnary op v)) (Same R) := by
  have hkind : op.kind = .bang ∨ op.kind = .minus := by
    simpa [Tree.isUnary] using hk
  unfold applyUnary
  rw [← (hR hop).kind]
  rcases hkind with hkind | hkind
  · rw [hkind]
    exact .lift_pure hm ⟨rfl, proper_of_ne fun _ h => nomatch h⟩
  · rw [hkind]
    cases v with
    | number a => exact .lift_pure hm ⟨rfl, proper_of_ne fun _ h => nomatch h⟩
    | _ => exact .lift_fail hm hop

theorem beside_add (hm : Mirrors R before x) (hop : R op op') (a b : Value) :
    Beside R before k x (add op' a b) (lift (add op a b)) (Same R) := by
  have htext : ∀ s, Same R (.text s) (.text s) x :=
    fun s => ⟨rfl, proper_of_ne fun _ h => nomatch h⟩
  cases a with
  | number a =>
    cases b with
    | number b => exact .lift_pure hm ⟨rfl, proper_of_ne fun _ h => nomatch h⟩
    | _ => exact .lift_fail hm hop
  | text a =>
    cases b with
    | text b => exact .lift_pure hm (htext _)
    | number b => exact .lift_pure hm (htext _)
    | _ => exact .lift_fail hm hop
  | _ => exact .lift_fail hm hop

include hR in
theorem beside_arithmetic (hm : Mirrors R before x) (hop : R op op')
    (hk : isStrict op.kind) (hp : op.kind ≠ .plus) (he : op.kind ≠ .equalEqual)
    (hb : op.kind ≠ .bangEqual) (a b : Float) :
    Beside R before k x (arithmetic op' a b) (lift (arithmetic op a b)) (Same R) := by
  have hpure : ∀ {v : Value}, (∀ id, v ≠ .function id) →
      Beside R before k x (pure v) (lift (pure v)) (Same R) :=
    fun hv => .lift_pure hm ⟨rfl, proper_of_ne hv⟩
  unfold arithmetic
  rw [← (hR hop).kind]
  -- Every other strict operator gives a number or a truth value.
  cases hkind : op.kind with
  | minus => exact hpure fun _ h => nomatch h
  | star => exact hpure fun _ h => nomatch h
  | slash => exact hpure fun _ h => nomatch h
  | greater => exact hpure fun _ h => nomatch h
  | greaterEqual => exact hpure fun _ h => nomatch h
  | less => exact hpure fun _ h => nomatch h
  | lessEqual => exact hpure fun _ h => nomatch h
  | plus => exact absurd hkind hp
  | equalEqual => exact absurd hkind he
  | bangEqual => exact absurd hkind hb
  | _ =>
    rw [hkind] at hk
    cases hk

/-- Other operators than the sum and the equalities are on two numbers. -/
theorem applyBinary_numbers (hp : op.kind ≠ .plus) (he : op.kind ≠ .equalEqual)
    (hb : op.kind ≠ .bangEqual) (a b : Float) :
    applyBinary op (.number a) (.number b) = arithmetic op a b := by
  unfold applyBinary
  split
  · exact absurd ‹_› hp
  · exact absurd ‹_› he
  · exact absurd ‹_› hb
  · rfl

theorem applyBinary_notNumbers (hp : op.kind ≠ .plus) (he : op.kind ≠ .equalEqual)
    (hb : op.kind ≠ .bangEqual) {a b : Value} (h : ∀ x y, a = .number x → b ≠ .number y) :
    applyBinary op a b = Eval.fail .notNumbers op := by
  unfold applyBinary
  split
  · exact absurd ‹_› hp
  · exact absurd ‹_› he
  · exact absurd ‹_› hb
  · split
    · exact absurd rfl (h _ _ rfl)
    · rfl

include hR in
theorem beside_binary (hm : Mirrors R before x) (hop : R op op') (hk : isStrict op.kind)
    (a b : Value) :
    Beside R before k x (applyBinary op' a b) (lift (applyBinary op a b)) (Same R) := by
  have hkind := (hR hop).kind
  have hbool : ∀ t, Same R (.bool t) (.bool t) x :=
    fun t => ⟨rfl, proper_of_ne (by simp)⟩
  by_cases hplus : op.kind = .plus
  · unfold applyBinary
    rw [← hkind, hplus]
    exact beside_add hm hop a b
  by_cases heq : op.kind = .equalEqual
  · unfold applyBinary
    rw [← hkind, heq]
    exact .lift_pure hm (hbool _)
  by_cases hne : op.kind = .bangEqual
  · unfold applyBinary
    rw [← hkind, hne]
    exact .lift_pure hm (hbool _)
  -- What is left is for numbers alone.
  by_cases hnumbers : ∃ p q, a = .number p ∧ b = .number q
  · obtain ⟨p, q, rfl, rfl⟩ := hnumbers
    rw [applyBinary_numbers hplus heq hne,
      applyBinary_numbers (hkind ▸ hplus) (hkind ▸ heq) (hkind ▸ hne)]
    exact beside_arithmetic hR hm hop hk hplus heq hne p q
  · have hrest : ∀ p q, a = .number p → b ≠ .number q :=
      fun p q ha hb => hnumbers ⟨p, q, ha, hb⟩
    rw [applyBinary_notNumbers hplus heq hne hrest,
      applyBinary_notNumbers (hkind ▸ hplus) (hkind ▸ heq) (hkind ▸ hne) hrest]
    exact .lift_fail hm hop

end Operators

/-! ### Methods and properties -/

/-- What a new function is made of can be read back. -/
theorem addFunction_spec (hc : Codes R x) (c c' : Closure) (V : View) :
    let y := x.addFunction c c' V
    x.functionCount < y.functionCount ∧ y.machine.heap.closure x.functionCount = c ∧
      y.world.machine.heap.closure x.functionCount = c' ∧ y.world.view x.functionCount = V :=
  ⟨Nat.lt_of_lt_of_eq (Nat.lt_succ_self _) (Array.size_push _).symm, getD_push_size rfl,
    getD_push_size hc.functions.symm, getD_push_size hc.views.symm⟩

/-- A new function is made that can be called. -/
theorem callable_addFunction (c c' : Closure) {V : View} {S : Scopes}
    (hc : Codes R x) (hf : Follows x c.scope S V) (hroot : 0 < x.size)
    (hs : FunctionShape R .lexical S c'.declaration c.declaration) (hi : c'.isInit = c.isInit)
    (hthis : c.isInit → S.Sees "this" 0) :
    Callable R (x.addFunction c c' V) x.functionCount := by
  obtain ⟨hlt, hclosure, horigin, hview⟩ := addFunction_spec hc c c' V
  refine ⟨hlt, S, ?_⟩
  rw [hclosure, horigin, hview]
  exact ⟨hf.mono (addFunction_later hc c c' V) hroot, hs, hi, hthis⟩

/-- A new function is made that can be bound to a receiver. -/
theorem isMethod_addFunction (c c' : Closure) {V : View} {S : Scopes}
    (hc : Codes R x) (hf : Follows x c.scope S V) (hroot : 0 < x.size)
    (hs : FunctionShape R .lexical S.ofMethods c'.declaration c.declaration)
    (hi : c'.isInit = c.isInit) : IsMethod R (x.addFunction c c' V) x.functionCount := by
  obtain ⟨hlt, hclosure, horigin, hview⟩ := addFunction_spec hc c c' V
  refine ⟨hlt, S, ?_⟩
  rw [hclosure, horigin, hview]
  exact ⟨hf.mono (addFunction_later hc c c' V) hroot, hs, hi⟩

/-- An environment with one name is made inside another one; the view that
follows it has one more name in front. -/
theorem enclose_spec {p : Nat} {S : Scopes} {V : View} (name : String) {v : Value}
    (hm : Mirrors R before x) (hf : Follows x p S V) (hn : Fitting name v)
    (hv : Proper R x v) : ∃ V' y,
    x.machine.heap.newEnvironment (some p) (Bindings.empty.set name v) = (x.size, y.machine.heap) ∧
    y.machine = { x.machine with heap := y.machine.heap } ∧
    (V.extend name v) x.world = .ok V' y.world ∧
    y.machine.heap.functions = x.machine.heap.functions ∧
    y.world.machine.heap = x.world.machine.heap ∧
    Mirrors R before y ∧ Grows .inside x y ∧ Follows y x.size (Names.of name :: S) V' := by
  have hroot := hm.stores.root
  have hlater := enclose_later x p
  obtain ⟨hm', hlater', hf', -, hframe⟩ := bindNew_spec (enclose_mirrors hm p)
    (follows_enclose hf hroot) (full_enclose hm.stores p S) rfl hn (hv.mono hlater hroot)
  -- Declaring and defining one name in an empty scope is that scope with one name.
  have hscopes : Scopes.add (Bindings.empty :: S) name = Names.of name :: S := by
    simp [Scopes.add, Scopes.declare, Scopes.define, Scopes.mark, Names.of, Bindings.set,
      Bindings.empty, Bindings.insert]
  rw [hscopes] at hf'
  refine ⟨_, (x.enclose p).bindNew x.size name v, ?_, rfl, ?_, rfl, rfl, hm',
    ⟨hlater.trans hlater', rfl, ?_⟩, hf'⟩
  · unfold Heap.newEnvironment Forest.child
    rw [Forest.push_set]
    rfl
  · rw [bindNew_world]
    rfl
  · intro e he _ other
    exact hframe e (Nat.ne_of_lt he) other

/-- A method is bound to a receiver. -/
theorem beside_bind {method : Nat} {receiver : Value} (hm : Mirrors R before x)
    (h : IsMethod R x method) (hv : Proper R x receiver) :
    Beside R before .inside x (Eval.make (·.bind method receiver)) (bindMethod method receiver)
      fun id id' y => id = id' ∧ Callable R y id ∧
        y.machine.heap.functionArity id = x.machine.heap.functionArity method := by
  obtain ⟨hid, S, hf, hshape, hinit⟩ := h
  obtain ⟨V, y, henv, hmachine, hextend, hfunctions, hheap, hm', hgrows, hf'⟩ :=
    enclose_spec "this" hm hf (fun h => absurd h (by decide)) hv
  have hcount : y.functionCount = x.functionCount := congrArg Array.size hfunctions
  -- The method again, closed over the new environment; the view has the receiver instead.
  obtain ⟨c, hc⟩ : ∃ c, c = { x.machine.heap.closure method with scope := x.size } := ⟨_, rfl⟩
  obtain ⟨c', hc'⟩ : ∃ c', c' = { x.world.machine.heap.closure method with scope := 0 } := ⟨_, rfl⟩
  have hnew : Callable R (y.addFunction c c' V) y.functionCount := by
    subst hc hc'
    exact callable_addFunction _ _ hm'.codes hf' hm'.stores.root hshape hinit
      fun _ => Scopes.sees_of "this" S
  have hlater := addFunction_later hm'.codes c c' V
  have hbind : x.machine.heap.bind method receiver =
      (x.functionCount, (y.addFunction c c' V).machine.heap) := by
    unfold Heap.bind
    simp only [henv]
    rw [← hcount, hc]
    rfl
  refine .step (a := x.functionCount) (b := x.functionCount) (y := y.addFunction c c' V) ?_ ?_
    (addFunction_mirrors hm' (.inl hnew)) ⟨hgrows.toLater.trans hlater, hgrows.current, ?_⟩
    ⟨rfl, hcount ▸ hnew, ?_⟩
  · change EStateM.Result.ok (x.machine.heap.bind method receiver).1
      { x.machine with heap := (x.machine.heap.bind method receiver).2 } = _
    rw [hbind]
    change _ = EStateM.Result.ok x.functionCount
      { y.machine with heap := (y.addFunction c c' V).machine.heap }
    rw [hmachine]
  · have hid' : x.functionCount = y.world.machine.heap.functions.size := by
      rw [hm'.codes.functions, hcount]
    change ((x.world.view method).extend "this" receiver >>= fun V => newFunction
      (x.world.machine.heap.closure method).declaration
      (x.world.machine.heap.closure method).isInit V) x.world = _
    change EStateM.bind _ _ _ = _
    rw [EStateM.bind, hextend, hid', hc']
    rfl
  · intro e he hk other
    exact hgrows.frame he hk other
  · have hclosure : (y.addFunction c c' V).machine.heap.closure x.functionCount = c :=
      getD_push_size hcount.symm
    unfold Heap.functionArity
    rw [hclosure, hc]

/-- A method that is found is bound, and gives a value that can be called. -/
theorem beside_bindValue {method : Nat} {receiver : Value} (hm : Mirrors R before x)
    (h : IsMethod R x method) (hv : Proper R x receiver) :
    Beside R before .inside x (.function <$> Eval.make (·.bind method receiver))
      (.function <$> bindMethod method receiver) (Same R) := by
  refine (beside_bind hm h hv).map fun id id' y _ _ ⟨heq, hc, _⟩ => ⟨congrArg _ heq, ?_⟩
  intro id' hid
  cases hid
  exact hc

/-- A property of an array is read. -/
theorem beside_arrayProperty {name name' : Token} (hm : Mirrors R before x) (hn : R name name')
    (hname : name.lexeme = name'.lexeme) (id : Nat) :
    Beside R before .inside x (arrayProperty id name') (lift (arrayProperty id name))
      (Same R) := by
  unfold arrayProperty
  rw [hname]
  split
  · rw [lift_bind]
    refine .ask_left (.ask_right ?_)
    rw [hm.elements_eq]
    exact .lift_pure hm ⟨rfl, proper_of_ne fun _ h => nomatch h⟩
  · exact .lift_pure hm ⟨rfl, proper_of_ne fun _ h => nomatch h⟩
  · exact .lift_pure hm ⟨rfl, proper_of_ne fun _ h => nomatch h⟩
  · exact .lift_fail hm hn

/-- A property is read. -/
theorem beside_property {name name' : Token} (hm : Mirrors R before x) (hn : R name name')
    (hname : name.lexeme = name'.lexeme) (v : Value) :
    Beside R before .inside x (Lox.getProperty v name') (getProperty v name) (Same R) := by
  cases v with
  | object id =>
    unfold Lox.getProperty getProperty instanceProperty
    refine .ask_left (.ask_right ?_)
    rw [hm.instanceInfo_eq, hname]
    -- A field goes before a method of the same name.
    cases hget : (x.machine.heap.instanceInfo id).fields.get? name'.lexeme with
    | some v => exact .pure hm ⟨rfl, hm.values (.field hget)⟩
    | none =>
      refine .ask_left (.ask_left (.ask_right (.ask_right ?_)))
      rw [hm.instanceInfo_eq, hm.findMethod?_eq]
      cases hfind : x.machine.heap.findMethod? (x.machine.heap.instanceInfo id).classId
          name'.lexeme with
      | some m =>
        exact beside_bindValue hm (hm.isMethod_of_findMethod? _ hfind)
          (proper_of_ne fun _ h => nomatch h)
      | none => exact .fail hm hn
  | array id =>
    exact beside_arrayProperty hm hn hname id
  | _ => exact .lift_fail hm hn

/-- The same change of the objects on both sides. -/
def Snapshot.change (x : Snapshot) (f : Heap → Heap) : Snapshot where
  layout := x.layout
  machine := { x.machine with heap := f x.machine.heap }
  world := { x.world with machine := { x.world.machine with heap := f x.world.machine.heap } }

/-- A change of the objects alone, on both sides. -/
theorem Beyond.beside {α β : Type} {p : Eval α} {q : Run β} {Q : α → β → Snapshot → Prop}
    {a : α} {b : β} (h : Beyond x y) (hp : p x.machine = .ok a y.machine)
    (hq : q x.world = .ok b y.world) (hc : y.machine.current = x.machine.current)
    (hm : Mirrors R before y) (hQ : Q a b y) : Beside R before k x p q Q :=
  .step hp hq hm (h.grows hc).any hQ

/-- A field of an instance gets a value. -/
theorem beside_setField (hm : Mirrors R before x) (id : Nat) (name : String) {v : Value}
    (hv : Proper R x v) : Beside R before k x (setField id name v) (lift (setField id name v))
      fun _ _ _ => True := by
  let y := x.change fun h =>
    { h with instances := h.instances.modify id fun i => { i with fields := i.fields.set name v } }
  have hbeyond : Beyond x y := ⟨rfl, rfl, rfl, rfl, rfl, rfl, rfl⟩
  have hshares : Shares before y := by
    refine ⟨hm.shares.classes, ?_, hm.shares.arrays, hm.shares.readings, hm.shares.output⟩
    exact congrArg (Array.modify · id fun i => { i with fields := i.fields.set name v })
      hm.shares.instances
  refine hbeyond.beside (a := ()) (b := ()) rfl rfl rfl (hbeyond.mirrors hm hshares rfl ?_
    fun h => hm.values (.element h)) trivial
  intro id' name' v' hv'
  rcases Heap.get?_of_setField hv' with rfl | hold
  · exact hv
  · exact hm.values (.field hold)

/-- A new instance, without fields. -/
theorem beside_newInstance (hm : Mirrors R before x) (classId : Nat) :
    Beside R before k x (Eval.make (·.newInstance classId))
      (lift (Eval.make (·.newInstance classId))) fun id id' y => id = id' ∧
        y.machine.heap.classes = x.machine.heap.classes ∧
        y.machine.heap.functions = x.machine.heap.functions := by
  let y := x.change fun h => (h.newInstance classId).2
  have hbeyond : Beyond x y := ⟨rfl, rfl, rfl, rfl, rfl, rfl, rfl⟩
  have hshares : Shares before y := by
    refine ⟨hm.shares.classes, ?_, hm.shares.arrays, hm.shares.readings, hm.shares.output⟩
    exact congrArg (Array.push · { classId }) hm.shares.instances
  have hids : x.machine.heap.instances.size = x.world.machine.heap.instances.size :=
    congrArg Array.size hm.shares.instances.symm
  exact hbeyond.beside rfl rfl rfl (hbeyond.mirrors hm hshares rfl
    (fun h => hm.values (.field (Heap.get?_of_newInstance h)))
    fun h => hm.values (.element h)) ⟨hids, rfl, rfl⟩

/-- A property is set. -/
theorem beside_setProperty {name name' : Token} (hm : Mirrors R before x) (hn : R name name')
    (hname : name.lexeme = name'.lexeme) (o : Value) {v : Value} (hv : Proper R x v) :
    Beside R before k x (setProperty o name' v) (lift (setProperty o name v))
      fun _ _ _ => True := by
  cases o with
  | object id =>
    unfold setProperty
    rw [hname]
    exact beside_setField hm id _ hv
  | _ => exact .lift_fail hm hn

/-- A method of the class above is bound to the receiver. -/
theorem beside_super {S : Scopes} {V : View} {t' method method' : Token} {hops : Option Nat}
    (hm : Mirrors R before x) (hf : Follows x x.machine.current S V) (hn : R method method')
    (hname : method.lexeme = method'.lexeme) {d : Nat} (hd : hops = some (d + 1))
    (hsuper : S.Sees "super" (d + 1)) (hthis : S.Sees "this" d) :
    Beside R before .inside x (Lox.superMethod { token := t', hops } method')
      (superMethod V method) (Same R) := by
  subst hd
  obtain ⟨e, c, parent, hpos, hget, hcell, hvalue, -, hat⟩ := hf.value hm hsuper
  obtain ⟨e', c', receiver, -, -, hcell', hvalue', hproper, hat'⟩ := hf.value hm hthis
  -- What is bound as `super` is always a class.
  obtain ⟨classId, rfl⟩ := hm.stores.super hpos hget
  unfold Lox.superMethod superMethod
  rw [hcell, hcell']
  refine .get_left (.ask_left ?_)
  rw [hat]
  refine .found_left (.ask_left ?_)
  rw [show ((d + 1 : Nat) : Int) - 1 = (d : Int) by omega, hat']
  refine .found_left (.get_right ?_)
  rw [hvalue]
  refine .ask_left (.ask_right ?_)
  rw [hm.findMethod?_eq, hname]
  cases hfind : x.machine.heap.findMethod? classId method'.lexeme with
  | some m =>
    refine .get_right ?_
    rw [hvalue']
    exact beside_bindValue hm (hm.isMethod_of_findMethod? _ hfind) hproper
  | none => exact .fail hm hn

/-! ### Native functions -/

section Natives

variable {paren paren' : Token}

/-- What is allowed goes on, and what is refused is a fault on both sides. -/
theorem beside_allowed {α β γ : Type} {f : α → Eval β} {g : α → Run γ}
    {P : β → γ → Snapshot → Prop} (hm : Mirrors R before x) (hp : R paren paren')
    (r : Except Refusal α) (h : ∀ a, r = .ok a → Beside R before k x (f a) (g a) P) :
    Beside R before k x (allowed paren' r >>= f) (lift (allowed paren r) >>= g) P := by
  cases r with
  | ok a => exact h a rfl
  | error why =>
    refine .bind (Q := fun _ _ _ => False) (.lift_fail hm hp) ?_
    intro a b y _ _ hfalse
    exact hfalse.elim

/-- A new array. -/
theorem beside_newArray (hm : Mirrors R before x) {elements : Array Value}
    (he : ∀ {i : Nat} {v}, elements[i]? = some v → Proper R x v) :
    Beside R before k x (.array <$> Eval.make (·.newArray elements))
      (lift (.array <$> Eval.make (·.newArray elements))) (Same R) := by
  let y := x.change fun h => (h.newArray elements).2
  have hbeyond : Beyond x y := ⟨rfl, rfl, rfl, rfl, rfl, rfl, rfl⟩
  have hshares : Shares before y := by
    refine ⟨hm.shares.classes, hm.shares.instances, ?_, hm.shares.readings, hm.shares.output⟩
    exact congrArg (Array.push · elements) hm.shares.arrays
  have hids : x.world.machine.heap.arrays.size = x.machine.heap.arrays.size :=
    congrArg Array.size hm.shares.arrays
  refine hbeyond.beside (a := .array x.machine.heap.arrays.size)
    (b := .array x.machine.heap.arrays.size) rfl ?_ rfl
    (hbeyond.mirrors hm hshares rfl (fun h => hm.values (.field h)) ?_)
    ⟨rfl, proper_of_ne fun _ h => nomatch h⟩
  · rw [← hids]
    rfl
  · exact fun hv => (Heap.getElem?_of_newArray hv).elim he fun hold => hm.values (.element hold)

/-- An element of an array gets a value. -/
theorem beside_storeElement (hm : Mirrors R before x) (id i : Nat) {v : Value}
    (hv : Proper R x v) :
    let store : Eval Unit := Eval.change fun h =>
      { h with arrays := h.arrays.modify id fun a => a.setIfInBounds i v }
    Beside R before k x store (lift store) fun _ _ _ => True := by
  let y := x.change fun h =>
    { h with arrays := h.arrays.modify id fun a => a.setIfInBounds i v }
  have hbeyond : Beyond x y := ⟨rfl, rfl, rfl, rfl, rfl, rfl, rfl⟩
  have hshares : Shares before y := by
    refine ⟨hm.shares.classes, hm.shares.instances, ?_, hm.shares.readings, hm.shares.output⟩
    exact congrArg (Array.modify · id fun a => a.setIfInBounds i v) hm.shares.arrays
  refine hbeyond.beside (a := ()) (b := ()) rfl rfl rfl (hbeyond.mirrors hm hshares rfl
    (fun h => hm.values (.field h)) ?_) trivial
  intro id' i' v' hv'
  rcases Heap.getElem?_of_store hv' with rfl | hold
  · exact hv
  · exact hm.values (.element hold)

/-- The clock is read on both sides at once. -/
theorem beside_clock (host : Host) (hm : Mirrors R before x) {arguments : List Value} :
    Beside R before k x (applyNative host paren' .clock arguments)
      (lift (applyNative host paren .clock arguments)) (Same R) := by
  let y : Snapshot :=
    ⟨x.layout, { x.machine with readings := x.machine.readings + 1 },
      { x.world with machine :=
          { x.world.machine with readings := x.world.machine.readings + 1 } }⟩
  have hbeyond : Beyond x y := ⟨rfl, rfl, rfl, rfl, rfl, rfl, rfl⟩
  have hshares : Shares before y := ⟨hm.shares.classes, hm.shares.instances, hm.shares.arrays,
    congrArg (· + 1) hm.shares.readings, hm.shares.output⟩
  refine hbeyond.beside (a := .number (host.clock x.machine.readings))
    (b := .number (host.clock x.machine.readings)) rfl ?_ rfl
    (hbeyond.mirrors hm hshares rfl (fun h => hm.values (.field h))
      fun h => hm.values (.element h)) ⟨rfl, proper_of_ne fun _ h => nomatch h⟩
  rw [← hm.shares.readings]
  rfl

/-- A native function is called. -/
theorem beside_native (host : Host) (hm : Mirrors R before x) (hp : R paren paren') (f : Native)
    {arguments : List Value} (ha : ∀ v ∈ arguments, Proper R x v) :
    Beside R before k x (applyNative host paren' f arguments)
      (lift (applyNative host paren f arguments)) (Same R) := by
  have hfail : Beside R before k x
      (Eval.fail (.arity f.arity arguments.length) paren' : Eval Value)
      (lift (Eval.fail (.arity f.arity arguments.length) paren)) (Same R) := .lift_fail hm hp
  -- Arrays are the same on both sides, so what is found or refused is the same.
  cases f with
  | clock => exact beside_clock host hm
  | makeArray =>
    cases arguments with
    | nil => exact hfail
    | cons size rest =>
      unfold applyNative
      rw [lift_bind]
      refine beside_allowed hm hp _ fun elements helements => beside_newArray hm ?_
      intro i v hv
      rw [Elements.eq_nil_of_make helements hv]
      exact proper_nil
  | elementOf id =>
    cases arguments with
    | nil => exact hfail
    | cons index rest =>
      unfold applyNative
      rw [lift_bind]
      refine .ask_left (.ask_right ?_)
      rw [hm.elements_eq]
      cases hget : Elements.get (x.machine.heap.elements id) index with
      | error why => exact .lift_fail hm hp
      | ok v =>
        refine .lift_pure hm ⟨rfl, ?_⟩
        rcases Elements.eq_nil_or_getElem?_of_get hget with rfl | ⟨i, hi⟩
        · exact proper_nil
        · exact hm.values (.element hi)
  | storeInto id =>
    cases arguments with
    | nil => exact hfail
    | cons index rest =>
      cases rest with
      | nil => exact hfail
      | cons value rest =>
        unfold applyNative
        rw [lift_bind]
        refine .ask_left (.ask_right ?_)
        rw [lift_bind]
        rw [hm.elements_eq]
        refine beside_allowed hm hp _ fun i _ => ?_
        rw [lift_bind]
        have hvalue : Proper R x value := ha value (by simp)
        refine (beside_storeElement hm id i hvalue).bind fun _ _ y hm' hg _ => ?_
        exact .lift_pure hm' ⟨rfl, hvalue.mono hg.toLater hm.stores.root⟩

end Natives

end Lox.Lexical
