/-
Variables by name and by distance.

Environments are made one inside another, any number of them inside the same one, and names
are bound in them.  A name leads from an environment to the nearest one outward that binds
it; a distance leads to the environment exactly so many steps out.  Where the distance is
the least at which the name is bound, both lead to the same binding.

* `Forest.Access` — computations on environments, with a fault for a name without binding;
* `lookup_eq_value`, `assign_eq_assign` — what a program does with a global name;
* `Forest.Step`, `Forest.grown` — how environments are made and changed;
* `Forest.Linked`, `linked_grown` — enclosing environments were made before;
* `Forest.Nearest` — the nearest binding of a name, by distance;
* `holder?_eq_some_iff` — a name leads to its nearest binding;
* `Forest.Rebinds`, `rebinds_define` — one binding is changed, and who sees it;
* `name_agrees_with_distance` — reading and assigning, by name and by distance.
-/
import Lox.Proofs.Holding

namespace Lox

/-! ### Names of bindings -/

namespace Bindings

variable {α : Type}

/-- A name that is bound keeps its place among the names. -/
theorem names_insert {name : String} {entries : List (String × α)}
    (h : (find? name entries).isSome) (v : α) :
    (insert name v entries).map Prod.fst = entries.map Prod.fst := by
  induction entries with
  | nil => cases h
  | cons entry rest ih =>
    obtain ⟨key, old⟩ := entry
    rw [insert]
    by_cases hkey : key = name
    · rw [if_pos hkey]
      rfl
    · rw [find?, if_neg hkey] at h
      rw [if_neg hkey, List.map_cons, List.map_cons, ih h]

theorem names_set {b : Bindings α} {name : String} (h : b.binds name) (v : α) :
    (b.set name v).names = b.names :=
  names_insert h v

end Bindings

namespace Forest

/-! ### Reading and assigning -/

/-- A computation on environments. -/
abbrev Access := EStateM Stop Forest

namespace Access

/-- The value of a name in the nearest environment that binds it. -/
def value (id : Nat) (name : Token) : Access Value := fun f =>
  match f.lookup? id name.lexeme with
  | some v => .ok v f
  | none => .error (.fault (.undefinedVariable name.lexeme) name) f

/-- Changes the value of a name in the nearest environment that binds it. -/
def assign (id : Nat) (name : Token) (v : Value) : Access Unit := fun f =>
  match f.assign? id name.lexeme v with
  | some g => .ok () g
  | none => .error (.fault (.undefinedVariable name.lexeme) name) f

/-- A computation on the environments of a machine. -/
def inMachine {α : Type} (p : Access α) : Eval α := fun m =>
  match p m.heap.environments with
  | .ok a f => .ok a (m.withEnvironments f)
  | .error e f => .error e (m.withEnvironments f)

/-- A global variable is read in the outermost environment of a program. -/
theorem lookup_eq_value (t : Token) :
    Eval.lookup ⟨t, none⟩ = (value Machine.globals t).inMachine := by
  funext m
  rw [Eval.lookup_global]
  unfold inMachine value
  cases m.heap.environments.lookup? Machine.globals t.lexeme with
  | some v => rfl
  | none => rfl

/-- A global variable is changed in the outermost environment of a program. -/
theorem assign_eq_assign (t : Token) (v : Value) :
    Eval.assign ⟨t, none⟩ v = (assign Machine.globals t v).inMachine := by
  funext m
  rw [Eval.assign_global]
  unfold inMachine assign Forest.assign?
  cases m.heap.environments.holder? Machine.globals t.lexeme with
  | some e => rfl
  | none => rfl

end Access

/-! ### Steps -/

/-- What can be done with environments. -/
inductive Step where
  /-- A new environment, inside another or outermost. -/
  | child (outer : Option Nat)
  | define (id : Nat) (name : String) (v : Value)
  | assign (id : Nat) (name : Token) (v : Value)
  | assignAt (id : Nat) (distance : Int) (name : Token) (v : Value)

namespace Step

/-- The environment where a step is taken. -/
def at? : Step → Option Nat
  | child outer => outer
  | define id _ _ | assign id _ _ | assignAt id _ _ _ => some id

/-- The environments after a step at one of them.  A step that fails changes nothing. -/
def apply (f : Forest) : Step → Forest
  | child outer => (f.child outer).2
  | define id name v => f.define id name v
  | assign id name v =>
    match Access.assign id name v f with
    | .ok _ g | .error _ g => g
  | assignAt id distance name v =>
    match f.assignAt id distance name.lexeme v with
    | .ok g => g
    | .error _ => f

/-- The environments after a step, which is left out if its environment is not there. -/
def take (f : Forest) (s : Step) : Forest :=
  if s.at?.all (· < f.size) then s.apply f else f

end Step

/-- The environments after some steps. -/
def grown (steps : List Step) : Forest :=
  steps.foldl Step.take #[]

/-! ### Links -/

/-- Every environment was made after the one around it. -/
def Linked (f : Forest) : Prop :=
  ∀ ⦃e p⦄, (f.env e).enclosing = some p → p < e

theorem linked_child {f : Forest} (h : f.Linked) {outer : Option Nat}
    (houter : ∀ p ∈ outer, p < f.size) : Linked (f.child outer).2 := by
  intro e p hp
  change (Forest.env (f.push ⟨outer, {}⟩) e).enclosing = some p at hp
  rw [env_push] at hp
  by_cases hnew : e = f.size
  · rw [if_pos hnew] at hp
    exact hnew ▸ houter p hp
  · rw [if_neg hnew] at hp
    exact h hp

theorem linked_define {f : Forest} (h : f.Linked) (id : Nat) (name : String) (v : Value) :
    Linked (f.define id name v) := by
  intro e p hp
  rw [enclosing_define] at hp
  exact h hp

theorem linked_take {f : Forest} (h : f.Linked) (s : Step) : Linked (s.take f) := by
  unfold Step.take
  by_cases hat : s.at?.all (· < f.size)
  · rw [if_pos hat]
    -- A step binds a name in one environment or makes one; no link that is there changes.
    cases s with
    | child outer =>
      refine linked_child h fun p hp => ?_
      cases hp
      exact of_decide_eq_true hat
    | define id name v => exact linked_define h id name v
    | assign id name v =>
      cases hholder : f.holder? id name.lexeme with
      | some a =>
        simp only [Step.apply, Access.assign, assign?, hholder]
        exact linked_define h a name.lexeme v
      | none =>
        simp only [Step.apply, Access.assign, assign?, hholder]
        exact h
    | assignAt id distance name v =>
      cases hreach : f.reach id distance with
      | ok a =>
        simp only [Step.apply, assignAt, hreach]
        exact linked_define h a name.lexeme v
      | error why =>
        simp only [Step.apply, assignAt, hreach]
        exact h
  · rw [if_neg hat]
    exact h

theorem linked_grown (steps : List Step) : Linked (grown steps) := by
  have hfrom : ∀ {f : Forest}, f.Linked → Linked (steps.foldl Step.take f) := by
    induction steps with
    | nil => exact fun h => h
    | cons s steps ih => exact fun h => ih (linked_take h s)
  refine hfrom fun e p hp => ?_
  cases hp

/-! ### Chains and walks -/

/-- A name is bound in the environment at a distance, and not at any smaller distance. -/
def Nearest (f : Forest) (e : Nat) (name : String) (distance a : Nat) : Prop :=
  f.ancestor e distance = .ok (some a) ∧ (f.env a).values.binds name ∧
    ∀ d < distance, ∀ b, f.ancestor e d = .ok (some b) → (f.env b).values.binds name = false

section

variable {f : Forest} {e : Nat}

theorem outer?_eq_none (h : (f.env e).enclosing = none) : f.outer? e = none := by
  unfold outer?
  rw [h]

theorem outer?_eq_some {p : Nat} (h : (f.env e).enclosing = some p) (hp : p < e) :
    f.outer? e = some ⟨p, hp⟩ := by
  unfold outer?
  rw [h]
  exact dif_pos hp

theorem chain_outermost (h : (f.env e).enclosing = none) : f.chain e = [e] := by
  rw [chain, outer?_eq_none h]

theorem chain_inner {p : Nat} (h : (f.env e).enclosing = some p) (hp : p < e) :
    f.chain e = e :: f.chain p := by
  rw [chain, outer?_eq_some h hp]

/-- The environment at a distance is the one at that place of the chain. -/
theorem ancestor_eq_iff (hf : f.Linked) {distance a : Nat} :
    f.ancestor e distance = .ok (some a) ↔ (f.chain e)[distance]? = some a := by
  unfold ancestor
  rw [Int.toNat_natCast]
  -- By induction on the distance, one link of the chain at a time.
  induction distance generalizing e with
  | zero =>
    have hhead : (f.chain e)[0]? = some e := by
      cases hp : (f.env e).enclosing with
      | none => rw [chain_outermost hp, List.getElem?_cons_zero]
      | some p => rw [chain_inner hp (hf hp), List.getElem?_cons_zero]
    rw [walk, hhead, Except.ok.injEq]
  | succ distance ih =>
    rw [walk]
    cases hp : (f.env e).enclosing with
    | none =>
      rw [chain_outermost hp]
      cases distance with
      | zero => exact iff_of_false (fun h => by cases h) (fun h => by cases h)
      | succ distance => exact iff_of_false (fun h => by cases h) (fun h => by cases h)
    | some p =>
      rw [chain_inner hp (hf hp), List.getElem?_cons_succ]
      exact ih

/-- A name leads to its nearest binding. -/
theorem holder?_eq_some_iff (hf : f.Linked) {name : String} {a : Nat} :
    f.holder? e name = some a ↔ ∃ distance, f.Nearest e name distance a := by
  unfold holder? Nearest
  simp only [ancestor_eq_iff hf]
  rw [List.find?_eq_some_iff_getElem]
  constructor
  · rintro ⟨hbinds, d, hd, ha, hbefore⟩
    refine ⟨d, List.getElem?_eq_some_iff.mpr ⟨hd, ha⟩, hbinds, fun c hc b hb => ?_⟩
    obtain ⟨hlt, rfl⟩ := List.getElem?_eq_some_iff.mp hb
    exact Bool.not_eq_true' _ ▸ hbefore c hc
  · rintro ⟨d, ha, hbinds, hbefore⟩
    obtain ⟨hd, ha⟩ := List.getElem?_eq_some_iff.mp ha
    refine ⟨hbinds, d, hd, ha, fun c hc => ?_⟩
    have hlt : c < (f.chain e).length := Nat.lt_trans hc hd
    rw [hbefore c hc _ (List.getElem?_eq_getElem hlt)]
    rfl

/-- A name leads nowhere if no environment outward binds it. -/
theorem holder?_eq_none (hf : f.Linked) {name : String}
    (h : ∀ distance a : Nat, f.ancestor e distance = .ok (some a) →
      (f.env a).values.binds name = false) : f.holder? e name = none := by
  cases hholder : f.holder? e name with
  | none => rfl
  | some a =>
    obtain ⟨d, hancestor, hbinds, -⟩ := (holder?_eq_some_iff hf).mp hholder
    rw [h d a hancestor] at hbinds
    cases hbinds

theorem lt_size_of_binds {name : String} (h : (f.env e).values.binds name) : e < f.size := by
  refine Nat.lt_of_not_le fun hle => ?_
  rw [env_of_size_le hle] at h
  cases h

end

/-! ### A changed binding -/

/-- One binding is given a value: that of a name in one environment.  Who comes to it first
sees the value; all else is as before. -/
structure Rebinds (f g : Forest) (a : Nat) (name : String) (v : Value) : Prop where
  size : g.size = f.size
  enclosing : ∀ e, (g.env e).enclosing = (f.env e).enclosing
  names : ∀ e, (g.env e).values.names = (f.env e).values.names
  value : (g.env a).values.get? name = some v
  others : ∀ e other, ¬(e = a ∧ other = name) →
    (g.env e).values.get? other = (f.env e).values.get? other
  seen : ∀ e, (∃ distance, f.Nearest e name distance a) → g.lookup? e name = some v
  unseen : ∀ e other, (other = name → ¬∃ distance, f.Nearest e name distance a) →
    g.lookup? e other = f.lookup? e other

theorem chain_define (f : Forest) (a : Nat) (name : String) (v : Value) (e : Nat) :
    (f.define a name v).chain e = f.chain e := by
  have houter : ∀ e, (f.define a name v).outer? e = f.outer? e := fun e => by
    unfold outer?
    rw [enclosing_define]
  induction e using Nat.strongRecOn with
  | _ e ih =>
    rw [chain, chain, houter]
    cases f.outer? e with
    | none => rfl
    | some p => exact congrArg (e :: ·) (ih p.1 p.2)

section

variable {f : Forest} {a : Nat} {name : String} (hbinds : (f.env a).values.binds name) (v : Value)
include hbinds

theorem names_define (e : Nat) :
    ((f.define a name v).env e).values.names = (f.env e).values.names := by
  rw [env_define f (lt_size_of_binds hbinds)]
  by_cases he : a = e
  · subst he
    rw [if_pos rfl]
    exact Bindings.names_set hbinds v
  · rw [if_neg he]

theorem binds_define (e : Nat) (other : String) :
    ((f.define a name v).env e).values.binds other = (f.env e).values.binds other := by
  unfold Bindings.binds
  rw [get?_define f (lt_size_of_binds hbinds)]
  by_cases hsame : a = e ∧ name = other
  · obtain ⟨rfl, rfl⟩ := hsame
    rw [if_pos ⟨rfl, rfl⟩]
    exact hbinds.symm
  · rw [if_neg hsame]

/-- Every name leads to where it led before. -/
theorem holder?_define (e : Nat) (other : String) :
    (f.define a name v).holder? e other = f.holder? e other := by
  unfold holder?
  rw [chain_define]
  exact congrArg (List.find? · _) (funext fun b => binds_define hbinds v b other)

theorem lookup?_define (e : Nat) (other : String) :
    (f.define a name v).lookup? e other =
      if other = name ∧ f.holder? e name = some a then some v else f.lookup? e other := by
  unfold lookup?
  rw [holder?_define hbinds]
  cases hholder : f.holder? e other with
  | none =>
    rw [if_neg]
    · rfl
    · rintro ⟨rfl, hsome⟩
      rw [hholder] at hsome
      cases hsome
  | some b =>
    change ((f.define a name v).env b).values.get? other = ite _ _ ((f.env b).values.get? other)
    rw [get?_define f (lt_size_of_binds hbinds)]
    by_cases hsame : a = b ∧ name = other
    · obtain ⟨rfl, rfl⟩ := hsame
      rw [if_pos ⟨rfl, rfl⟩, if_pos ⟨rfl, hholder⟩]
    · rw [if_neg hsame, if_neg]
      rintro ⟨rfl, ha⟩
      exact hsame ⟨Option.some.inj (ha.symm.trans hholder), rfl⟩

/-- To bind a name again where it is bound changes that binding, and nothing else. -/
theorem rebinds_define (hf : f.Linked) : f.Rebinds (f.define a name v) a name v where
  size := size_define f a name v
  enclosing := enclosing_define f a name v
  names := names_define hbinds v
  value := by rw [get?_define f (lt_size_of_binds hbinds), if_pos ⟨rfl, rfl⟩]
  others := fun e other h => by
    rw [get?_define f (lt_size_of_binds hbinds), if_neg fun hsame => h ⟨hsame.1.symm, hsame.2.symm⟩]
  seen := fun e h => by
    rw [lookup?_define hbinds, if_pos ⟨rfl, (holder?_eq_some_iff hf).mpr h⟩]
  unseen := fun e other h => by
    rw [lookup?_define hbinds, if_neg fun hsame =>
      h hsame.1 ((holder?_eq_some_iff hf).mp hsame.2)]

end

/-! ### By name and by distance -/

/-- However environments were made and changed: at the least distance at which a name is
bound, its value is the one that the name leads to, and assigning by name and by distance
both give that one binding the value.  A name that is bound nowhere outward can be neither
read nor assigned, and trying it changes nothing. -/
theorem name_agrees_with_distance (steps : List Step) (e : Nat) (name : Token) (v : Value) :
    let f := grown steps
    (∀ distance a, f.Nearest e name.lexeme distance a →
      (∃ u, (f.env a).values.get? name.lexeme = some u ∧ Access.value e name f = .ok u f ∧
        f.getAt e distance name.lexeme = .ok u) ∧
      ∃ g, Access.assign e name v f = .ok () g ∧
        f.assignAt e distance name.lexeme v = .ok g ∧ f.Rebinds g a name.lexeme v) ∧
    ((∀ distance a : Nat, f.ancestor e distance = .ok (some a) →
        (f.env a).values.binds name.lexeme = false) →
      let stop := Stop.fault (.undefinedVariable name.lexeme) name
      Access.value e name f = .error stop f ∧ Access.assign e name v f = .error stop f ∧
        (Fault.undefinedVariable name.lexeme).code = "E407") := by
  intro f
  have hf : f.Linked := linked_grown steps
  constructor
  · intro distance a hnearest
    have hholder := (holder?_eq_some_iff hf).mpr ⟨distance, hnearest⟩
    -- The holder is found going outward, so it is the ancestor at the least distance.
    obtain ⟨hancestor, hbinds, -⟩ := hnearest
    obtain ⟨u, hu⟩ := Option.isSome_iff_exists.mp hbinds
    have hlookup : f.lookup? e name.lexeme = some u := by
      unfold lookup?
      rw [hholder]
      exact hu
    have hassign : f.assign? e name.lexeme v = some (f.define a name.lexeme v) := by
      unfold assign?
      rw [hholder]
      rfl
    have hreach : f.reach e distance = .ok a := reach_ok.mpr hancestor
    refine ⟨⟨u, hu, ?_, Lexical.getAt_of_walk hancestor hu⟩, f.define a name.lexeme v, ?_, ?_,
      rebinds_define hbinds v hf⟩
    · unfold Access.value
      rw [hlookup]
    · unfold Access.assign
      rw [hassign]
    · unfold assignAt
      rw [hreach]
      rfl
  · intro hnone
    have hholder := holder?_eq_none hf hnone
    refine ⟨?_, ?_, rfl⟩
    · unfold Access.value lookup?
      rw [hholder]
      rfl
    · unfold Access.assign assign?
      rw [hholder]
      rfl

/-- Two environments inside one that binds a name, one of which binds it, too, and a third
one inside the other. -/
def siblings : List Step :=
  [.child none, .define 0 "x" (.text "outer"), .child (some 0), .child (some 0),
    .define 2 "x" (.text "inner"), .child (some 1)]

/-- What is assigned further inside is seen by one sibling, and not by the other.  A name
that nobody binds cannot be assigned. -/
theorem name_agrees_with_distance_siblings :
    let x : Token := { kind := .identifier, lexeme := "x" }
    let y : Token := { kind := .identifier, lexeme := "y" }
    let v := Value.text "changed"
    let f := grown siblings
    f.Nearest 3 "x" 2 0 ∧
      (∃ g, Access.assign 3 x v f = .ok () g ∧ f.assignAt 3 2 "x" v = .ok g ∧
        g.lookup? 1 "x" = some v ∧ g.lookup? 2 "x" = f.lookup? 2 "x") ∧
      Access.assign 3 y v f = .error (.fault (.undefinedVariable "y") y) f := by
  intro x y v f
  have hf : f.Linked := linked_grown siblings
  have hthird : f.Nearest 3 "x" 2 0 := by
    refine ⟨rfl, rfl, fun d hd b hb => ?_⟩
    obtain rfl | rfl : d = 0 ∨ d = 1 := by omega
    · cases hb
      rfl
    · cases hb
      rfl
  have hfirst : f.Nearest 1 "x" 1 0 := by
    refine ⟨rfl, rfl, fun d hd b hb => ?_⟩
    obtain rfl : d = 0 := by omega
    cases hb
    rfl
  have hsecond : f.Nearest 2 "x" 0 2 :=
    ⟨rfl, rfl, fun d hd => absurd hd (Nat.not_lt_zero d)⟩
  have hother : ¬∃ distance, f.Nearest 2 "x" distance 0 := fun h => by
    have hholder := (holder?_eq_some_iff hf).mpr ⟨0, hsecond⟩
    rw [(holder?_eq_some_iff hf).mpr h] at hholder
    cases hholder
  have hy : ∀ distance a : Nat, f.ancestor 3 distance = .ok (some a) →
      (f.env a).values.binds "y" = false := fun distance a h => by
    -- The third environment, the first, the outermost one, and nothing beyond.
    obtain _ | _ | _ | _ | n := distance
    · cases h
      rfl
    · cases h
      rfl
    · cases h
      rfl
    · cases h
    · cases h
  obtain ⟨-, g, hassign, hassignAt, hg⟩ :=
    (name_agrees_with_distance siblings 3 x v).1 2 0 hthird
  have hunbound := (name_agrees_with_distance siblings 3 y v).2 hy
  exact ⟨hthird, ⟨g, hassign, hassignAt, hg.seen 1 ⟨1, hfirst⟩, hg.unseen 2 "x" fun _ => hother⟩,
    hunbound.2.1⟩

end Forest

end Lox
