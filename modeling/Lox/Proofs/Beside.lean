/-
Two runs side by side.

A computation on environments and one on cells, run from states that are alike,
end alike: both give a result, or both stop for the same reason, and the states
are alike again.  Neither ever comes to a defect.

* `Stop.Matches` — the same reason to stop, which is no defect;
* `Beside` — two computations that run side by side;
* `Beside.bind` — one step after another;
* `beside_lookup`, `beside_assign`, `beside_fill`, `declare_step` —
  variables;
* `beside_property`, `beside_super`, `beside_native` — objects.
-/
import Lox.Proofs.Mirror
import Lox.Proofs.Pairing

namespace Lox

/-- Two reasons to stop: the same fault at related tokens, or the same bound.  A
defect matches nothing. -/
inductive Stop.Matches (R : Token → Token → Prop) : Stop → Stop → Prop
  | fault {f : Fault} {t t' : Token} (ht : R t t') : Matches R (.fault f t') (.fault f t)
  | exhausted : Matches R .exhausted .exhausted
  | unfinished : Matches R .unfinished .unfinished

theorem Stop.Matches.caught {R : Token → Token → Prop} {e e' : Stop} (h : e.Matches R e')
    {t t' : Token} (ht : R t t') : (e.caught t').Matches R (e'.caught t) := by
  cases h with
  | fault hu => exact .fault hu
  | exhausted => exact .fault ht
  | unfinished => exact .unfinished

namespace Lexical

open Scope

/-! ### Lifted computations -/

theorem lift_bind {α β : Type} (p : Eval α) (f : α → Eval β) :
    lift (p >>= f) = lift p >>= fun a => lift (f a) := by
  funext w
  unfold lift bind Monad.toBind EStateM.instMonad EStateM.bind
  cases h : p w.machine with
  | ok a m => cases h' : f a m <;> simp only [h, h']
  | error e m => simp only [h]

theorem catches {α : Type} (t : Token) (p : Run α) : Catches t p (catchExhausted t p) where
  ok h := by
    unfold catchExhausted
    rw [h]
  error {_ e _} h := by
    unfold catchExhausted
    rw [h]
    cases e with
    | _ => rfl

/-! ### Side by side -/

section

variable (R : Token → Token → Prop) (before : String)

/-- From one snapshot, two computations both give results that are related, or
both stop for the same reason; they end in a snapshot that has grown. -/
def Beside (k : Extent) (x : Snapshot) {α β : Type} (p : Eval α) (q : Run β)
    (Q : α → β → Snapshot → Prop) : Prop :=
  (∃ a b y, p x.machine = .ok a y.machine ∧ q x.world = .ok b y.world ∧
    Mirrors R before y ∧ Grows k x y ∧ Q a b y) ∨
  ∃ e e' y, p x.machine = .error e y.machine ∧ q x.world = .error e' y.world ∧
    Mirrors R before y ∧ Grows k x y ∧ e.Matches R e'

end

variable {R : Token → Token → Prop} {before : String} {k : Extent} {x y : Snapshot}
  {α β γ δ : Type} {p : Eval α} {q : Run β} {Q Q' : α → β → Snapshot → Prop}

namespace Beside

theorem imp (h : Beside R before k x p q Q)
    (hQ : ∀ a b y, Mirrors R before y → Grows k x y → Q a b y → Q' a b y) :
    Beside R before k x p q Q' := by
  rcases h with ⟨a, b, y, hp, hq, hm, hg, h⟩ | h
  · exact .inl ⟨a, b, y, hp, hq, hm, hg, hQ a b y hm hg h⟩
  · exact .inr h

theorem here (h : Beside R before .inside x p q Q) : Beside R before .here x p q Q := by
  rcases h with ⟨a, b, y, hp, hq, hm, hg, h⟩ | ⟨e, e', y, hp, hq, hm, hg, h⟩
  · exact .inl ⟨a, b, y, hp, hq, hm, hg.here, h⟩
  · exact .inr ⟨e, e', y, hp, hq, hm, hg.here, h⟩

/-- Both computations give a result in one step. -/
theorem step {a : α} {b : β} (hp : p x.machine = .ok a y.machine)
    (hq : q x.world = .ok b y.world) (hm : Mirrors R before y) (hg : Grows k x y)
    (hQ : Q a b y) : Beside R before k x p q Q :=
  .inl ⟨a, b, y, hp, hq, hm, hg, hQ⟩

theorem pure {a : α} {b : β} (hm : Mirrors R before x) (hQ : Q a b x) :
    Beside R before k x (pure a) (pure b) Q :=
  step rfl rfl hm (.refl k x) hQ

/-- Both computations stop at once. -/
theorem throw {e e' : Stop} (hm : Mirrors R before x) (he : e.Matches R e') :
    Beside R before k x (throw e : Eval α) (throw e' : Run β) Q :=
  .inr ⟨e, e', x, rfl, rfl, hm, .refl k x, he⟩

theorem fail {f : Fault} {t t' : Token} (hm : Mirrors R before x) (ht : R t t') :
    Beside R before k x (Eval.fail f t' : Eval α) (Lexical.fail f t : Run β) Q :=
  throw hm (.fault ht)

theorem lift_fail {f : Fault} {t t' : Token} (hm : Mirrors R before x) (ht : R t t') :
    Beside R before k x (Eval.fail f t' : Eval α) (lift (Eval.fail f t) : Run β) Q :=
  .inr ⟨_, _, x, rfl, rfl, hm, .refl k x, .fault ht⟩

theorem lift_pure {a : α} {b : β} (hm : Mirrors R before x) (hQ : Q a b x) :
    Beside R before k x (Pure.pure a) (lift (Pure.pure b)) Q :=
  step rfl rfl hm (.refl k x) hQ

theorem bind {f : α → Eval γ} {g : β → Run δ} {P : γ → δ → Snapshot → Prop}
    (h : Beside R before k x p q Q)
    (hf : ∀ a b y, Mirrors R before y → Grows k x y → Q a b y →
      Beside R before k y (f a) (g b) P) : Beside R before k x (p >>= f) (q >>= g) P := by
  rcases h with ⟨a, b, y, hp, hq, hm, hg, hQ⟩ | ⟨e, e', y, hp, hq, hm, hg, he⟩
  · rcases hf a b y hm hg hQ with ⟨c, d, z, hc, hd, hz, hgz, hP⟩ | ⟨e, e', z, hc, hd, hz, hgz, he⟩
    · exact .inl ⟨c, d, z, (bind_ok hp).trans hc, (bind_ok hq).trans hd, hz, hg.trans hgz, hP⟩
    · exact .inr ⟨e, e', z, (bind_ok hp).trans hc, (bind_ok hq).trans hd, hz, hg.trans hgz, he⟩
  · exact .inr ⟨e, e', y, bind_error hp, bind_error hq, hm, hg, he⟩

theorem map {f : α → γ} {g : β → δ} {P : γ → δ → Snapshot → Prop}
    (h : Beside R before k x p q Q)
    (hf : ∀ a b y, Mirrors R before y → Grows k x y → Q a b y → P (f a) (g b) y) :
    Beside R before k x (f <$> p) (g <$> q) P := by
  rw [map_eq_pure_bind, map_eq_pure_bind]
  exact h.bind fun a b y hm hg hQ => pure hm (hf a b y hm hg hQ)

/-- A step of the second computation alone. -/
theorem after_right {g : β → Run δ} {P : α → δ → Snapshot → Prop} {b : β}
    (hq : q x.world = .ok b y.world) (hp : y.machine = x.machine) (hg : Grows k x y)
    (h : Beside R before k y p (g b) P) : Beside R before k x p (q >>= g) P := by
  rcases h with ⟨a, d, z, ha, hd, hz, hgz, hP⟩ | ⟨e, e', z, ha, hd, hz, hgz, he⟩
  · exact .inl ⟨a, d, z, hp ▸ ha, (bind_ok hq).trans hd, hz, hg.trans hgz, hP⟩
  · exact .inr ⟨e, e', z, hp ▸ ha, (bind_ok hq).trans hd, hz, hg.trans hgz, he⟩

/-! ### Reading the states -/

theorem get_left {f : Machine → Eval α} (h : Beside R before k x (f x.machine) q Q) :
    Beside R before k x (get >>= f) q Q :=
  h

theorem get_right {g : World → Run β} (h : Beside R before k x p (g x.world) Q) :
    Beside R before k x p (get >>= g) Q :=
  h

theorem ask_left {ι : Type} {r : Heap → ι} {f : ι → Eval α}
    (h : Beside R before k x (f (r x.machine.heap)) q Q) :
    Beside R before k x (Eval.ask r >>= f) q Q :=
  h

theorem ask_right {ι : Type} {r : Heap → ι} {g : ι → Run β}
    (h : Beside R before k x p (g (r x.world.machine.heap)) Q) :
    Beside R before k x p (lift (Eval.ask r) >>= g) Q :=
  h

theorem found_left {f : α → Eval γ} {a : α} {P : γ → β → Snapshot → Prop}
    (h : Beside R before k x (f a) q P) :
    Beside R before k x (Eval.found (.ok a) >>= f) q P :=
  h

/-- Nesting that is too deep is a fault on both sides. -/
theorem catchExhausted {q : Run α} {Q : α → α → Snapshot → Prop} {t t' : Token} (ht : R t t')
    (h : Beside R before k x p q Q) :
    Beside R before k x (Eval.catchExhausted t' p) (Lexical.catchExhausted t q) Q := by
  have hleft := Eval.catches t' p
  have hright := catches t q
  rcases h with ⟨a, b, y, hp, hq, hm, hg, hQ⟩ | ⟨e, e', y, hp, hq, hm, hg, he⟩
  · exact step (hleft.ok hp) (hright.ok hq) hm hg hQ
  · exact .inr ⟨_, _, y, hleft.error hp, hright.error hq, hm, hg, he.caught ht⟩

end Beside

/-! ### Variables -/

theorem Mirrors.proper_get? (h : Mirrors R before x) {e : Nat} {name : String} {v : Value}
    (hv : (x.env e).values.get? name = some v) : Proper R x v := by
  by_cases he : e = 0
  · rw [he, h.stores.globals] at hv
    exact h.values (.global hv)
  · have hb : (x.env e).values.binds name := by
      rw [Bindings.binds, hv]
      rfl
    obtain ⟨c, hc⟩ := Option.isSome_iff_exists.mp (h.stores.covered (Nat.pos_of_ne_zero he) hb)
    have hcell : x.world.cell c = v := h.stores.value hc hv
    refine h.values (.cell (c := c) ?_)
    have hlt := (h.stores.cell hc).2.2
    rw [← hcell, World.cell, Array.getD_eq_getD_getElem?, Array.getElem?_eq_getElem hlt]
    rfl

theorem holder?_globals (f : Forest) (name : String) :
    f.holder? Machine.globals name =
      if (f.env 0).values.binds name then some 0 else none := by
  have hchain : f.chain 0 = [0] := by
    have houter : f.outer? 0 = none := by
      unfold Forest.outer?
      cases (f.env 0).enclosing with
      | none => rfl
      | some p => exact dif_neg (Nat.not_lt_zero p)
    rw [Forest.chain, houter]
  unfold Forest.holder? Machine.globals
  rw [hchain, List.find?_cons]
  cases (f.env 0).values.binds name with
  | true => rfl
  | false => rfl

theorem lookup?_globals (f : Forest) (name : String) :
    f.lookup? Machine.globals name = (f.env 0).values.get? name := by
  unfold Forest.lookup?
  rw [holder?_globals]
  by_cases hb : (f.env 0).values.binds name
  · rw [if_pos hb]
    rfl
  · rw [if_neg hb]
    rw [Bindings.binds, Bool.not_eq_true, Option.isSome_eq_false_iff,
      Option.isNone_iff_eq_none] at hb
    exact hb.symm

theorem getAt_of_walk {f : Forest} {e e' d : Nat} {name : String} {v : Value}
    (hw : f.walk d (some e) = .ok (some e')) (hv : (f.env e').values.get? name = some v) :
    f.getAt e (d : Int) name = .ok v := by
  have hreach : f.reach e (d : Int) = .ok e' := by
    unfold Forest.reach Forest.ancestor
    rw [Int.toNat_natCast, hw]
    rfl
  simp only [Forest.getAt, hreach, bind, Except.bind, hv]
  rfl

/-- What a ready name is bound to, by distance and in its cell. -/
theorem Follows.value {e : Nat} {S : Scopes} {V : View} (h : Follows x e S V)
    (hm : Mirrors R before x) {name : String} {d : Nat} (hs : S.Sees name d) :
    ∃ e' c v, 0 < e' ∧ (x.env e').values.get? name = some v ∧ V.cell? name = some c ∧
      x.world.cell c = v ∧ Proper R x v ∧
      x.machine.heap.environments.getAt e (d : Int) name = .ok v := by
  obtain ⟨e', c, hwalk, hpos, hcell, hlayout, hready⟩ := h.reach hs.1
  obtain ⟨v, hv⟩ := Option.isSome_iff_exists.mp (hready hs.2)
  exact ⟨e', c, v, hpos, hv, hcell, hm.stores.value hlayout hv, hm.proper_get? hv,
    getAt_of_walk hwalk hv⟩

/-- The value that both sides give, which a program may hold. -/
def Same (R : Token → Token → Prop) (v v' : Value) (y : Snapshot) : Prop :=
  v = v' ∧ Proper R y v

theorem proper_of_ne {v : Value} (h : ∀ id, v ≠ .function id) : Proper R x v :=
  fun id hv => absurd hv (h id)

theorem proper_nil : Proper R x .nil :=
  proper_of_ne fun _ h => nomatch h

/-- A name is read. -/
theorem beside_lookup {S : Scopes} {V : View} {t t' : Token} {hops : Option Nat}
    (hm : Mirrors R before x) (hf : Follows x x.machine.current S V) (ht : R t t')
    (hname : t.lexeme = t'.lexeme) (hops_eq : S.hops? t.lexeme = hops)
    (hready : ∀ d, hops = some d → S.Ready d t.lexeme) :
    Beside R before k x (Eval.lookup { token := t', hops }) (V.lookup t) (Same R) := by
  unfold Eval.lookup View.lookup Reference.name
  cases hops with
  | some d =>
    -- A name of a scope: its environment is so many hops away, and the view has its cell.
    obtain ⟨e', c, v, hpos, hv, hcell, hvalue, hproper, hget⟩ :=
      hf.value hm ⟨hops_eq, hready d rfl⟩
    rw [hcell]
    refine .step (y := x) (a := v) (b := x.world.cell c) ?_ rfl hm (.refl k x)
      ⟨hvalue.symm, hproper⟩
    change Eval.found (x.machine.heap.environments.getAt x.machine.current d t'.lexeme)
      x.machine = _
    rw [← hname, hget]
    rfl
  | none =>
    -- A name of no scope is a global on both sides.
    rw [hf.cell?_eq_none hops_eq]
    refine .ask_left (.get_right ?_)
    rw [lookup?_globals, ← hname, ← hm.stores.globals]
    unfold Snapshot.env
    cases hv : (x.machine.heap.environments.env 0).values.get? t.lexeme with
    | some v => exact .pure hm ⟨rfl, hm.proper_get? hv⟩
    | none => exact .fail hm ht

/-- Storing in a cell adds no name. -/
theorem store_grows {e c : Nat} {name : String} {v : Value} (he : e < x.size) :
    Grows .inside x (x.store e name c v) :=
  ⟨store_later he name c v, rfl, fun _ _ _ => rfl⟩

theorem storeGlobal_grows {name : String} {v : Value} (hroot : 0 < x.size) :
    Grows .inside x (x.storeGlobal name v) :=
  ⟨storeGlobal_later hroot name v, rfl, fun _ _ _ => rfl⟩

theorem Grows.any (h : Grows .inside x y) : Grows k x y := by
  cases k with
  | inside => exact h
  | here => exact h.here

/-- An assignment changes the variable that the name refers to. -/
theorem beside_assign {S : Scopes} {V : View} {t t' : Token} {hops : Option Nat} {v : Value}
    (hm : Mirrors R before x) (hf : Follows x x.machine.current S V) (ht : R t t')
    (hname : t.lexeme = t'.lexeme) (hops_eq : S.hops? t.lexeme = hops)
    (hsuper : t.lexeme ≠ "super") (hv : Proper R x v) :
    Beside R before k x (Eval.assign { token := t', hops } v) (V.assign t v)
      fun _ _ _ => True := by
  unfold Eval.assign View.assign Reference.name
  cases hops with
  | some d =>
    obtain ⟨e', c, hwalk, hpos, hcell, hlayout, -⟩ := hf.reach hops_eq
    have hlt := (hm.stores.cell hlayout).2.1
    have hreach : x.machine.heap.environments.reach x.machine.current (d : Int) = .ok e' := by
      unfold Forest.reach Forest.ancestor
      rw [Int.toNat_natCast, hwalk]
      rfl
    rw [hcell]
    -- The environment and the cell get the value in one step of both.
    refine .step (y := x.store e' t.lexeme c v) (a := ()) (b := ()) ?_ rfl
      (store_mirrors hm hlayout (fun h => absurd h hsuper) hv) (store_grows hlt).any trivial
    change (Eval.found (x.machine.heap.environments.reach x.machine.current d) >>= fun target =>
      Eval.changeForest (·.define target t'.lexeme v)) x.machine = _
    rw [hreach, ← hname]
    rfl
  | none =>
    rw [hf.cell?_eq_none hops_eq]
    refine .ask_left (.get_right ?_)
    rw [holder?_globals, ← hname, ← hm.stores.globals]
    change Beside R before k x _
      (if (x.machine.heap.environments.env 0).values.binds t.lexeme then _ else _) _
    by_cases hb : (x.machine.heap.environments.env 0).values.binds t.lexeme
    · rw [if_pos hb, if_pos hb]
      exact .step (y := x.storeGlobal t.lexeme v) (a := ()) (b := ()) rfl rfl
        (storeGlobal_mirrors hm t.lexeme hv) (storeGlobal_grows hm.stores.root).any trivial
    · rw [if_neg hb, if_neg hb]
      exact .fail hm ht

/-- The names of an environment are those of the innermost scope. -/
def Full (x : Snapshot) (e : Nat) (S : Scopes) : Prop :=
  ∀ name, (x.layout e name).isSome → S.redeclares name = true

/-- What is added inside new environments leaves the others as they are. -/
theorem Full.mono {e : Nat} {S : Scopes} (h : Full x e S) (hg : Grows .inside x y)
    (he : e < x.size) : Full y e S := by
  intro name hn
  rw [hg.frame he (.inl rfl)] at hn
  exact h name hn

theorem Full.mark {e : Nat} {S : Scopes} {name : String} {ready : Bool} (h : Full x e S) :
    Full x e (S.mark name ready) := by
  intro other hn
  have hre := h other hn
  cases S with
  | nil => exact hre
  | cons scope outer =>
    change (scope.set name ready).binds other = true
    rw [Bindings.binds_set, Bool.or_eq_true]
    exact .inr hre

theorem follows_define {e c : Nat} {S : Scopes} {V : View} {name : String} {v : Value}
    (h : Follows x e S V) (hm : Stores x) (hs : S.redeclares name = true)
    (hc : x.layout e name = some c) : Follows (x.store e name c v) e (S.define name) V := by
  have he := (hm.cell hc).2.1
  have hlater := store_later he name c v
  have hget : ∀ other, ((x.store e name c v).env e).values.get? other =
      if e = e ∧ name = other then some v else (x.env e).values.get? other :=
    fun other => Forest.get?_define _ he name other v e
  cases h with
  | globals => cases hs
  | @inner _ p scope S V entries ho hpos hp hn hcells hb =>
    -- The scope binds the same names as before: this one only becomes ready.
    have hbinds : ∀ other, (scope.set name true).binds other = scope.binds other := by
      intro other
      rw [Bindings.binds_set]
      -- The name itself is bound now; what was ready before is bound as before.
      by_cases hsame : name = other
      · subst hsame
        rw [show scope.binds name = true from hs, Bool.or_true]
      · simp [hsame]
    refine .inner (ho.mono hlater hm.root) hpos ?_ ?_ ?_ ?_
    · rw [hlater.enclosing he]
      exact hp
    · intro other
      rw [hbinds]
      exact hn other
    · intro other hother
      rw [hbinds] at hother
      exact hcells other hother
    · intro other hready
      rw [Bindings.binds, hget]
      by_cases hsame : name = other
      · rw [if_pos ⟨rfl, hsame⟩]
        rfl
      · rw [if_neg fun h => hsame h.2]
        rw [Bindings.get?_set, if_neg hsame] at hready
        exact hb other hready

/-- A declared name gets its value. -/
theorem beside_fill {S : Scopes} {V : View} {name : String} {v : Value}
    (hm : Mirrors R before x) (hf : Follows x x.machine.current S V)
    (hs : S = [] ∨ S.redeclares name = true) (hn : Fitting name v) (hv : Proper R x v)
    (hfull : Full x x.machine.current S) :
    Beside R before k x (Eval.define name v) (V.fill name v) fun _ _ y =>
      Follows y y.machine.current (S.define name) V ∧
        Full y y.machine.current (S.define name) := by
  -- At the top level the name is a global, which has no cell.
  unfold View.fill
  rcases hs with rfl | hs
  · obtain ⟨hzero, rfl⟩ := hf.eq_globals
    refine .step (y := x.storeGlobal name v) (a := ()) (b := ()) ?_ rfl
      (storeGlobal_mirrors hm name hv) (storeGlobal_grows hm.stores.root).any ⟨?_, hfull.mark⟩
    · change EStateM.Result.ok () _ = _
      rw [hzero]
      rfl
    · change Follows _ x.machine.current _ _
      rw [hzero]
      exact .globals
  · -- The name is in the innermost scope, so its cell is that of the current environment.
    cases S with
    | nil => cases hs
    | cons scope outer =>
      have hhops : Scopes.hops? (scope :: outer) name = some 0 := by
        rw [Scopes.hops?_cons]
        exact if_pos hs
      obtain ⟨e', c, hwalk, hpos, hcell, hlayout, -⟩ := hf.reach hhops
      cases hwalk
      rw [hcell]
      exact .step (y := x.store x.machine.current name c v) (a := ()) (b := ()) rfl rfl
        (store_mirrors hm hlayout hn hv) (store_grows (hm.stores.cell hlayout).2.1).any
        ⟨follows_define hf hm.stores hs hlayout, hfull.mark⟩

theorem follows_reserve {e : Nat} {scope : Names} {S : Scopes} {V : View} {name : String}
    {v : Value} (h : Follows x e (scope :: S) V) (hroot : 0 < x.size)
    (hn : x.layout e name = none) :
    Follows (x.reserve e name v) e (Scopes.declare (scope :: S) name)
      ⟨true, (name, x.world.cells.size) :: V.names⟩ := by
  have hlater := reserve_later hn v
  cases h with
  | @inner _ p _ _ V entries ho hpos hp hnames hcells hb =>
    -- The new cell is in front, so it is found first under its name and under no other.
    have hlayout : ∀ other, (x.reserve e name v).layout e other =
        if name = other then some x.world.cells.size else x.layout e other := by
      intro other
      rw [layout_reserve]
      simp only [true_and]
    refine @Follows.inner _ _ _ _ _ _ ((name, x.world.cells.size) :: entries)
      (ho.mono hlater hroot) hpos hp ?_ ?_ ?_
    · intro other
      rw [hlayout, Bindings.binds_set, List.lookup_cons]
      by_cases hsame : name = other
      · simp [hsame]
      · have hne : (other == name) = false := by simpa using Ne.symm hsame
        simp [hsame, hne, hnames]
    · intro other hother
      rw [hlayout]
      rw [Bindings.binds_set] at hother
      by_cases hsame : name = other
      · simp [hsame]
      · rw [if_neg hsame]
        exact hcells other (by simpa [hsame] using hother)
    · intro other hready
      rw [Bindings.get?_set] at hready
      by_cases hsame : name = other
      · rw [if_pos hsame] at hready
        cases hready
      · rw [if_neg hsame] at hready
        exact hb other hready

/-- A new name of a local environment gets a cell. -/
theorem reserve_spec {e : Nat} {scope : Names} {S : Scopes} {V : View} {name : String} {v : Value}
    (hm : Mirrors R before x) (hf : Follows x e (scope :: S) V) (hfull : Full x e (scope :: S))
    (hs : scope.binds name = false) (hv : Proper R x v) :
    x.layout e name = none ∧ Mirrors R before (x.reserve e name v) ∧
      Follows (x.reserve e name v) e (Scopes.declare (scope :: S) name)
        ⟨true, (name, x.world.cells.size) :: V.names⟩ ∧
      Full (x.reserve e name v) e (Scopes.declare (scope :: S) name) := by
  -- A name with a cell is bound in the scope already, since the scope is full.
  have hnew : x.layout e name = none := by
    cases hl : x.layout e name with
    | none => rfl
    | some c =>
      have hre : scope.binds name = true := hfull name (by rw [hl]; rfl)
      rw [hs] at hre
      cases hre
  refine ⟨hnew, reserve_mirrors hm hf.isLocal.2 (hf.lt_size hm.stores.root) hnew hv,
    follows_reserve hf hm.stores.root hnew, ?_⟩
  intro other hother
  change (scope.set name false).binds other = true
  rw [Bindings.binds_set, Bool.or_eq_true, decide_eq_true_iff]
  rw [layout_reserve] at hother
  by_cases hsame : name = other
  · exact .inl hsame
  · rw [if_neg fun h => hsame h.2] at hother
    exact .inr (hfull other hother)

/-- A new name is declared; the machine has nothing to do yet. -/
theorem declare_step {S : Scopes} {V : View} {name : String} (hm : Mirrors R before x)
    (hf : Follows x x.machine.current S V) (hfull : Full x x.machine.current S)
    (hs : S.redeclares name = false) : ∃ V' y,
      (V.declare name) x.world = .ok V' y.world ∧ y.machine = x.machine ∧
      Mirrors R before y ∧ Grows .here x y ∧
      Follows y y.machine.current (S.declare name) V' ∧
      Full y y.machine.current (S.declare name) ∧
      (S.declare name = [] ∨ (S.declare name).redeclares name = true) := by
  cases S with
  | nil =>
    -- Outside of all scopes nothing is laid out ahead.
    obtain ⟨-, rfl⟩ := hf.eq_globals
    exact ⟨{}, x, rfl, rfl, hm, .refl _ x, hf, hfull, .inl rfl⟩
  | cons scope outer =>
    obtain ⟨hnew, hm', hf', hfull'⟩ := reserve_spec hm hf hfull (v := .nil) hs proper_nil
    have hbinds : (scope.set name false).binds name = true := by
      rw [Bindings.binds_set]
      simp
    refine ⟨⟨true, (name, x.world.cells.size) :: V.names⟩, x.reserve x.machine.current name .nil,
      ?_, rfl, hm', ⟨reserve_later hnew _, rfl, ?_⟩, hf', hfull', .inr hbinds⟩
    · unfold View.declare
      rw [if_pos hf.isLocal.1]
      rfl
    · rintro e he (hk | hne) other
      · cases hk
      · rw [layout_reserve, if_neg fun h => hne h.1.symm]

/-! ### New environments -/

theorem follows_enclose {p : Nat} {S : Scopes} {V : View} (h : Follows x p S V)
    (hroot : 0 < x.size) :
    Follows (x.enclose p) x.size (Bindings.empty :: S) ⟨true, V.names⟩ := by
  refine @Follows.inner _ _ _ _ _ _ [] (h.mono (enclose_later x p) hroot) hroot ?_ (fun _ => rfl)
    ?_ ?_
  · rw [env_enclose, if_pos rfl]
  · intro name hn
    cases hn
  · intro name hn
    cases hn

/-- Nothing is laid out in a new environment yet. -/
theorem full_enclose (h : Stores x) (p : Nat) (S : Scopes) :
    Full (x.enclose p) x.size (Bindings.empty :: S) := by
  intro other hother
  obtain ⟨c, hc⟩ := Option.isSome_iff_exists.mp hother
  exact absurd (h.cell hc).2.1 (Nat.lt_irrefl _)

/-- A name is bound in an environment, in a cell of its own. -/
def Snapshot.bindNew (x : Snapshot) (e : Nat) (name : String) (v : Value) : Snapshot :=
  (x.reserve e name v).store e name x.world.cells.size v

theorem bindNew_world (x : Snapshot) (e : Nat) (name : String) (v : Value) :
    (x.bindNew e name v).world = { x.world with cells := x.world.cells.push v } := by
  have hcells : (x.world.cells.push v).setIfInBounds x.world.cells.size v =
      x.world.cells.push v := by
    apply Array.ext
    · rw [Array.size_setIfInBounds]
    · intro i hi hi'
      rw [Array.getElem_setIfInBounds]
      by_cases h : x.world.cells.size = i
      · subst h
        simp
      · rw [if_neg h]
  unfold Snapshot.bindNew Snapshot.store Snapshot.reserve
  rw [hcells]

theorem bindNew_spec {e : Nat} {scope : Names} {S : Scopes} {V : View} {name : String}
    {v : Value} (hm : Mirrors R before x) (hf : Follows x e (scope :: S) V)
    (hfull : Full x e (scope :: S)) (hs : scope.binds name = false) (hn : Fitting name v)
    (hv : Proper R x v) :
    Mirrors R before (x.bindNew e name v) ∧ Later x (x.bindNew e name v) ∧
      Follows (x.bindNew e name v) e (Scopes.add (scope :: S) name)
        ⟨true, (name, x.world.cells.size) :: V.names⟩ ∧
      Full (x.bindNew e name v) e (Scopes.add (scope :: S) name) ∧
      ∀ e', e' ≠ e → ∀ other, (x.bindNew e name v).layout e' other = x.layout e' other := by
  obtain ⟨hnew, hm', hf', hfull'⟩ := reserve_spec hm hf hfull hs hv
  have hlater := reserve_later hnew v
  have hcell : (x.reserve e name v).layout e name = some x.world.cells.size := by
    rw [layout_reserve, if_pos ⟨rfl, rfl⟩]
  -- A name that was declared just now may be defined again.
  have hbinds : Scopes.redeclares (Scopes.declare (scope :: S) name) name = true := by
    change (scope.set name false).binds name = true
    rw [Bindings.binds_set]
    simp
  refine ⟨store_mirrors hm' hcell hn (hv.mono hlater hm.stores.root),
    hlater.trans (store_later (hm'.stores.cell hcell).2.1 _ _ _),
    follows_define hf' hm'.stores hbinds hcell, hfull'.mark, ?_⟩
  intro e' he' other
  change (x.reserve e name v).layout e' other = _
  rw [layout_reserve, if_neg fun h => he' h.1.symm]

end Lexical

end Lox
