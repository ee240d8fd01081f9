/-
What resolution finds is the innermost declaration.

A program that is resolved without a problem gets, at every use of a name, the
number of scopes between the use and the nearest declaration around it.  A
second program of the same shape then has no problem either, and its uses get
the same distances.

* `Rules.lexical` — distances that lead to the innermost declaration, and names
  that are declared once in a scope;
* `Settled` — the invariant: every name is ready where a statement begins, and
  `this` and `super` are around the methods of a class;
* `Carries` — quiet resolution of one tree gives quiet resolution of another;
* `carries_expression`, `carries_statement` — trees of one shape;
* `Flawless`, `resolve_carries` — whole programs.
-/
import Lox.Proofs.Proper
import Lox.Proofs.Shapes

namespace Lox

/-! ### Names in scopes -/

theorem Bindings.binds_set {α : Type} (b : Bindings α) (name other : String) (value : α) :
    (b.set name value).binds other = (decide (name = other) || b.binds other) := by
  unfold Bindings.binds
  rw [Bindings.get?_set]
  by_cases h : name = other
  · simp [h]
  · simp [h]

namespace Scope

open Resolver

namespace Scopes

/-- A name is ready for use so many scopes outward. -/
def Ready (S : Scopes) (d : Nat) (name : String) : Prop :=
  ∃ scope, S[d]? = some scope ∧ scope.get? name = some true

/-- The innermost declaration of a name is so many scopes outward, and ready. -/
def Sees (S : Scopes) (name : String) (d : Nat) : Prop :=
  S.hops? name = some d ∧ S.Ready d name

/-- All names of a scope are ready. -/
def AllReady (S : Scopes) : Prop :=
  ∀ scope ∈ S, ∀ name, scope.binds name → scope.get? name = some true

theorem hops?_cons (scope : Names) (S : Scopes) (name : String) :
    hops? (scope :: S) name =
      if scope.binds name then some 0 else (hops? S name).map (· + 1) := by
  unfold hops?
  rw [List.findIdx?_cons]

/-- Marking one name leaves the distances of the others. -/
theorem hops?_mark {S : Scopes} {name other : String} (ready : Bool) (h : name ≠ other) :
    (S.mark name ready).hops? other = S.hops? other := by
  cases S with
  | nil => rfl
  | cons scope outer =>
    rw [mark, hops?_cons, hops?_cons, Bindings.binds_set]
    simp [h]

theorem ready_mark {S : Scopes} {name other : String} (ready : Bool) {d : Nat}
    (h : name ≠ other) (hr : S.Ready d other) : (S.mark name ready).Ready d other := by
  obtain ⟨scope, hs, ho⟩ := hr
  cases S with
  | nil => simp at hs
  | cons inner outer =>
    cases d with
    | zero =>
      obtain rfl : inner = scope := by simpa using hs
      refine ⟨inner.set name ready, rfl, ?_⟩
      rw [Bindings.get?_set, if_neg h]
      exact ho
    | succ d => exact ⟨scope, hs, ho⟩

theorem sees_mark {S : Scopes} {name other : String} (ready : Bool) {d : Nat}
    (h : name ≠ other) (hs : S.Sees other d) : (S.mark name ready).Sees other d :=
  ⟨(hops?_mark ready h).trans hs.1, ready_mark ready h hs.2⟩

theorem sees_cons {scope : Names} {S : Scopes} {name : String} {d : Nat}
    (hb : scope.binds name = false) (hs : S.Sees name d) : Sees (scope :: S) name (d + 1) := by
  obtain ⟨hd, scope', hs', hr⟩ := hs
  refine ⟨?_, scope', hs', hr⟩
  rw [hops?_cons, hb, hd]
  rfl

theorem sees_of (name : String) (S : Scopes) : Sees (Names.of name :: S) name 0 := by
  have hget : (Names.of name).get? name = some true := by
    rw [Names.of, Bindings.get?_set, if_pos rfl]
  refine ⟨?_, Names.of name, rfl, hget⟩
  rw [hops?_cons, Bindings.binds, hget]
  rfl

theorem tail_mark (S : Scopes) (name : String) (ready : Bool) :
    (S.mark name ready).tail = S.tail := by
  cases S with
  | nil => rfl
  | cons scope outer => rfl

theorem tail_add (S : Scopes) (name : String) : (S.add name).tail = S.tail := by
  rw [add, define, tail_mark, declare, tail_mark]

theorem tail_enter (S : Scopes) (params : List Token) : (S.enter params).tail = S := by
  have hfold : ∀ (params : List Token) (T : Scopes),
      (params.foldl (fun s p => s.add p.lexeme) T).tail = T.tail := by
    intro params
    induction params with
    | nil => exact fun T => rfl
    | cons p params ih => exact fun T => (ih _).trans (tail_add T p.lexeme)
  exact hfold params _

/-- A declared name is the only one that may not be ready. -/
theorem AllReady.add {S : Scopes} (h : S.AllReady) (name : String) : (S.add name).AllReady := by
  cases S with
  | nil => exact h
  | cons inner outer =>
    intro scope hmem other hb
    rcases List.mem_cons.mp hmem with rfl | hmem
    · rw [Bindings.get?_set]
      by_cases heq : name = other
      · rw [if_pos heq]
      · rw [if_neg heq, Bindings.get?_set, if_neg heq]
        refine h inner (by simp) other ?_
        rw [Bindings.binds_set, Bindings.binds_set] at hb
        simpa [heq] using hb
    · exact h scope (by simp [hmem]) other hb

theorem AllReady.tail {S : Scopes} (h : S.AllReady) : AllReady S.tail :=
  fun scope hmem => h scope (List.mem_of_mem_tail hmem)

theorem AllReady.cons {S : Scopes} {scope : Names} (h : S.AllReady)
    (hs : ∀ name, scope.binds name → scope.get? name = some true) :
    AllReady (scope :: S) := by
  intro scope' hmem
  rcases List.mem_cons.mp hmem with rfl | hmem
  · exact hs
  · exact h scope' hmem

theorem AllReady.enter {S : Scopes} (h : S.AllReady) (params : List Token) :
    (S.enter params).AllReady := by
  have hfold : ∀ (params : List Token) (T : Scopes), T.AllReady →
      (params.foldl (fun s p => s.add p.lexeme) T).AllReady := by
    intro params
    induction params with
    | nil => exact fun T hT => hT
    | cons p params ih => exact fun T hT => ih _ (hT.add _)
  refine hfold params _ (h.cons fun name hb => ?_)
  simp [Bindings.binds, Bindings.get?, Bindings.empty, Bindings.find?] at hb

theorem AllReady.of {S : Scopes} (h : S.AllReady) (name : String) :
    AllReady (Names.of name :: S) := by
  refine h.cons fun other hb => ?_
  rw [Names.of, Bindings.get?_set]
  by_cases heq : name = other
  · rw [if_pos heq]
  · rw [Names.of, Bindings.binds_set] at hb
    simp [heq, Bindings.binds, Bindings.get?, Bindings.empty, Bindings.find?] at hb

theorem AllReady.isPending {S : Scopes} (h : S.AllReady) (name : String) :
    S.isPending name = false := by
  cases S with
  | nil => rfl
  | cons inner outer =>
    by_cases hb : inner.binds name
    · rw [Scopes.isPending, h inner (by simp) name hb]
      rfl
    · rw [Bindings.binds, Bool.not_eq_true, Option.isSome_eq_false_iff,
        Option.isNone_iff_eq_none] at hb
      rw [Scopes.isPending, hb]
      rfl

/-- A name whose initializer is finished is ready where it is found. -/
theorem ready_of_hops? {S : Scopes} {name : String} {d : Nat} (ht : AllReady S.tail)
    (hp : S.isPending name = false) (hd : S.hops? name = some d) : S.Ready d name := by
  cases S with
  | nil => cases hd
  | cons inner outer =>
    obtain ⟨hlt, hb, -⟩ := List.findIdx?_eq_some_iff_getElem.mp hd
    refine ⟨(inner :: outer)[d], List.getElem?_eq_getElem hlt, ?_⟩
    cases d with
    | zero =>
      rw [List.getElem_cons_zero] at hb ⊢
      obtain ⟨ready, hr⟩ := Option.isSome_iff_exists.mp hb
      cases ready with
      | true => exact hr
      | false =>
        rw [isPending, hr] at hp
        cases hp
    | succ d =>
      rw [List.getElem_cons_succ] at hb ⊢
      exact ht _ (List.getElem_mem _) name hb

end Scopes

/-- Uses lead to the innermost declaration, which is ready unless the use only
assigns, and no scope declares a name twice. -/
def Rules.lexical : Rules where
  uses S kind name hops :=
    match kind with
    | .variable_ => S.hops? name = hops ∧ ∀ d, hops = some d → S.Ready d name
    | .assignment => S.hops? name = hops
    | .this_ => ∃ d, hops = some d ∧ S.Sees "this" d
    | .super_ => ∃ d, hops = some (d + 1) ∧ S.Sees "super" (d + 1) ∧ S.Sees "this" d
  declares S name := S.redeclares name = false

/-! ### Places -/

/-- The part of a context that resolution depends on. -/
structure Place where
  scopes : Scopes
  functionKind : FunctionKind
  classKind : ClassKind

/-- Where resolution is. -/
def Context.place (c : Context) : Place :=
  ⟨c.scopes, c.functionKind, c.classKind⟩

theorem Context.place_eq {c : Context} {S : Scopes} {fk : FunctionKind} {ck : ClassKind} :
    c.place = ⟨S, fk, ck⟩ ↔ c.scopes = S ∧ c.functionKind = fk ∧ c.classKind = ck := by
  simp [Context.place]

/-- The scopes of `this` and `super` that a kind of class promises. -/
def ClassKind.Around : ClassKind → Scopes → Prop
  | .none, _ => True
  | .plain, S => ∃ d, S.Sees "this" d
  | .subclass, S => ∃ d, S.Sees "this" d ∧ S.Sees "super" (d + 1)

/-- A name that is neither `this` nor `super`. -/
def Ordinary (name : String) : Prop :=
  name ≠ "this" ∧ name ≠ "super"

theorem ClassKind.Around.mark {k : ClassKind} {S : Scopes} (h : k.Around S) {name : String}
    (hn : Ordinary name) (ready : Bool) : k.Around (S.mark name ready) := by
  cases k with
  | none => trivial
  | plain =>
    obtain ⟨d, hthis⟩ := h
    exact ⟨d, Scopes.sees_mark ready hn.1 hthis⟩
  | subclass =>
    obtain ⟨d, hthis, hsuper⟩ := h
    exact ⟨d, Scopes.sees_mark ready hn.1 hthis, Scopes.sees_mark ready hn.2 hsuper⟩

theorem ClassKind.Around.add {k : ClassKind} {S : Scopes} (h : k.Around S) {name : String}
    (hn : Ordinary name) : k.Around (S.add name) :=
  (h.mark hn false).mark hn true

theorem ClassKind.Around.push {k : ClassKind} {S : Scopes} (h : k.Around S) :
    k.Around (Bindings.empty :: S) := by
  cases k with
  | none => trivial
  | plain =>
    obtain ⟨d, hthis⟩ := h
    exact ⟨d + 1, Scopes.sees_cons rfl hthis⟩
  | subclass =>
    obtain ⟨d, hthis, hsuper⟩ := h
    exact ⟨d + 1, Scopes.sees_cons rfl hthis, Scopes.sees_cons rfl hsuper⟩

theorem ClassKind.Around.enter {k : ClassKind} {S : Scopes} (h : k.Around S)
    {params : List Token} (hp : ∀ p ∈ params, Ordinary p.lexeme) : k.Around (S.enter params) := by
  have hfold : ∀ (params : List Token) (T : Scopes), (∀ p ∈ params, Ordinary p.lexeme) →
      k.Around T → k.Around (params.foldl (fun s p => s.add p.lexeme) T) := by
    intro params
    induction params with
    | nil => exact fun T _ hT => hT
    | cons p params ih =>
      intro T hp hT
      rw [List.forall_mem_cons] at hp
      exact ih _ hp.2 (hT.add hp.1)
  exact hfold params _ hp h.push

theorem around_ofMethods (S : Scopes) : ClassKind.plain.Around S.ofMethods :=
  ⟨0, Scopes.sees_of "this" S⟩

theorem around_ofSubclass (S : Scopes) : ClassKind.subclass.Around S.ofSubclass.ofMethods := by
  refine ⟨0, Scopes.sees_of "this" _, Scopes.sees_cons ?_ (Scopes.sees_of "super" S)⟩
  decide

/-! ### One resolution beside another -/

theorem sound_leaving {α : Type} {p : Resolver α} {leave : Context → Context}
    {R : Context → α → Context → Prop} (h : Sound p R)
    (hr : ∀ c, (leave c).report = c.report) :
    Sound (leaving p leave) fun c a c' => ∃ t, R c a t ∧ c' = leave t := by
  -- What is put back on leaving is no part of the report.
  refine ⟨fun c => ?_, ?_⟩
  · have hgrows := h.grows c
    unfold leaving
    cases hrun : p c with
    | ok a t =>
      rw [hrun] at hgrows
      change Report.Extends _ (leave t).report
      rw [hr t]
      exact hgrows
    | error e t =>
      rw [hrun] at hgrows
      change Report.Extends _ (leave t).report
      rw [hr t]
      exact hgrows
  · rintro c a c' ⟨hrun, hreport⟩
    unfold leaving at hrun
    cases hpc : p c with
    | error e t =>
      rw [hpc] at hrun
      cases hrun
    | ok a' t =>
      rw [hpc] at hrun
      cases hrun
      exact ⟨t, h.quiet ⟨hpc, (hr t).symm.trans hreport⟩, rfl⟩

theorem Tame.sound {α : Type} {p : Resolver α} (h : Tame p) : Sound p fun _ _ _ => True :=
  ⟨h.grows, fun _ => trivial⟩

/-- From a place to another, quiet runs of `p` have quiet runs of `q` beside them,
whatever the two have found before, and `q` gives a result with a property. -/
structure Carries {α β : Type} (p : Resolver α) (q : Resolver β) (l m : Place)
    (Q : β → Prop) : Prop where
  runs : Sound p fun c _ c' => c.place = l → c'.place = m ∧
    ∀ d : Context, d.place = l → ∃ b d', Quiet q d b d' ∧ d'.place = m ∧ Q b

namespace Carries

variable {α β γ δ : Type} {l m n : Place} {p : Resolver α} {q : Resolver β} {Q Q' : β → Prop}

theorem imp (h : Carries p q l m Q) (hQ : ∀ b, Q b → Q' b) : Carries p q l m Q' := by
  refine ⟨h.runs.imp fun hrun hl => ?_⟩
  obtain ⟨hm, hd⟩ := hrun hl
  refine ⟨hm, fun d hdl => ?_⟩
  obtain ⟨b, d', hquiet, hdm, hb⟩ := hd d hdl
  exact ⟨b, d', hquiet, hdm, hQ b hb⟩

theorem pure (a : α) (b : β) : Carries (pure a) (pure b) l l (· = b) := by
  refine ⟨(Sound.pure a).imp ?_⟩
  rintro c _ _ ⟨-, rfl⟩ hl
  exact ⟨hl, fun d hd => ⟨b, d, .pure b d, hd, rfl⟩⟩

theorem throw (e : Halt) : Carries (throw e : Resolver α) q l m Q :=
  ⟨(Sound.throw e).imp False.elim⟩

theorem bind [Inhabited β] {f : α → Resolver γ} {g : β → Resolver δ} {P : β → δ → Prop}
    (h : Carries p q l m Q) (hf : ∀ a b, Carries (f a) (g b) m n (P b)) :
    Carries (p >>= f) (q >>= g) l n fun r => ∃ b, Q b ∧ P b r := by
  have hnext : ∀ a, Sound (f a) fun c _ c' => c.place = m → c'.place = n ∧ ∀ b (d : Context),
      d.place = m → ∃ r d', Quiet (g b) d r d' ∧ d'.place = n ∧ P b r := fun a =>
    ⟨(hf a default).runs.grows, fun hquiet hm => ⟨((hf a default).runs.quiet hquiet hm).1,
      fun b => ((hf a b).runs.quiet hquiet hm).2⟩⟩
  refine ⟨(h.runs.bind hnext).imp ?_⟩
  rintro c r c' ⟨a, t, hfirst, hrest⟩ hl
  obtain ⟨ht, hbeside⟩ := hfirst hl
  obtain ⟨hn, hbesides⟩ := hrest ht
  refine ⟨hn, fun d hd => ?_⟩
  obtain ⟨b, e, hq, he, hb⟩ := hbeside d hd
  obtain ⟨r', d', hq', hd', hr'⟩ := hbesides b e he
  exact ⟨r', d', hq.bind hq', hd', b, hb, hr'⟩

theorem map {f : α → γ} {g : β → δ} (h : Carries p q l m Q) :
    Carries (f <$> p) (g <$> q) l m fun r => ∃ b, Q b ∧ r = g b := by
  refine ⟨(h.runs.map f).imp ?_⟩
  rintro c r c' ⟨a, hrun, -⟩ hl
  obtain ⟨hm, hbeside⟩ := hrun hl
  refine ⟨hm, fun d hd => ?_⟩
  obtain ⟨b, d', hq, hd', hb⟩ := hbeside d hd
  exact ⟨g b, d', hq.map g, hd', b, hb, rfl⟩

/-- A change of all but the report. -/
theorem move {f g : Context → Context} (hr : ∀ c, (f c).report = c.report)
    (hr' : ∀ c, (g c).report = c.report) (hp : ∀ c, c.place = l → (f c).place = m)
    (hp' : ∀ c, c.place = l → (g c).place = m) :
    Carries (modify f : Resolver Unit) (modify g : Resolver Unit) l m fun _ => True := by
  refine ⟨(Sound.modify hr).imp ?_⟩
  rintro c _ _ rfl hl
  exact ⟨hp c hl, fun d hd => ⟨(), g d, ⟨rfl, hr' d⟩, hp' d hd, trivial⟩⟩

/-- What depends on the context depends on the place, or is not quiet. -/
theorem get_bind {f : Context → Resolver γ} {g : Context → Resolver δ} {P : δ → Prop}
    (hgrows : ∀ c, Sound (f c) fun _ _ _ => True)
    (h : ∀ c d : Context, c.place = l → d.place = l → Carries (f c) (g d) l m P) :
    Carries (get >>= f) (get >>= g) l m P := by
  have hnext : ∀ c, Sound (f c) fun s _ s' => c.place = l → s.place = l → s'.place = m ∧
      ∀ d : Context, d.place = l → ∃ r d', Quiet (g d) d r d' ∧ d'.place = m ∧ P r := by
    intro c
    refine ⟨(hgrows c).grows, fun hquiet hc hs => ?_⟩
    refine ⟨((h c c hc hc).runs.quiet hquiet hs).1, fun d hd => ?_⟩
    exact ((h c d hc hd).runs.quiet hquiet hs).2 d hd
  refine ⟨(Sound.get.bind hnext).imp ?_⟩
  rintro c r c' ⟨_, _, ⟨rfl, rfl⟩, hrest⟩ hl
  obtain ⟨hm, hbeside⟩ := hrest hl hl
  refine ⟨hm, fun d hd => ?_⟩
  obtain ⟨r', d', hq, hd', hr'⟩ := hbeside d hd
  exact ⟨r', d', (Quiet.get d).bind hq, hd', hr'⟩

/-- A run that complains is not quiet. -/
theorem complain_bind {t : Token} {problem : Problem} {f : Unit → Resolver γ}
    {q : Resolver δ} {P : δ → Prop} (hf : ∀ a, Sound (f a) fun _ _ _ => True) :
    Carries (complain t problem >>= f) q l m P := by
  have hcomplain : Sound (complain t problem) fun _ _ _ => False := by
    refine ⟨(Tame.complain t problem).grows, ?_⟩
    rintro c _ _ ⟨⟨⟩, hr⟩
    exact absurd hr (Report.add_ne _ _)
  refine ⟨(hcomplain.bind hf).imp ?_⟩
  rintro c r c' ⟨_, _, hfalse, -⟩
  exact hfalse.elim

theorem sound (h : Carries p q l m Q) : Sound p fun _ _ _ => True :=
  h.runs.imp fun _ => trivial

/-- Something that may be a problem, in both runs. -/
theorem guarded {c c' : Prop} [Decidable c] [Decidable c'] (hc : c ↔ c') {t t' : Token}
    {problem : Problem} (h : Carries p q l m Q) :
    Carries (if c then complain t problem >>= fun _ => p else p)
      (if c' then complain t' problem >>= fun _ => q else q) l m fun b => Q b ∧ ¬c := by
  by_cases hproblem : c
  · rw [if_pos hproblem]
    exact complain_bind fun _ => h.sound
  · rw [if_neg hproblem, if_neg (mt hc.mpr hproblem)]
    exact h.imp fun _ hb => ⟨hb, hproblem⟩

/-- Whether there is a problem depends on the place. -/
theorem get_guarded {problem : Problem} {c : Place → Prop} [∀ l, Decidable (c l)] {t t' : Token}
    (h : Carries p q l m Q) :
    Carries (do
        let here ← get
        if c here.place then complain t problem >>= fun _ => p else p)
      (do
        let here ← get
        if c here.place then complain t' problem >>= fun _ => q else q) l m
      fun b => Q b ∧ ¬c l := by
  refine get_bind (fun here => ?_) fun here there hhere hthere => ?_
  · have hcomplain := (Tame.complain t problem).sound
    exact (Sound.ite (hcomplain.bind fun _ => h.sound) h.sound).imp fun _ => trivial
  · rw [hhere, hthere]
    exact h.guarded Iff.rfl

/-- On leaving, the context is changed in both runs. -/
theorem leaving {f g : Context → Context} (h : Carries p q l m Q)
    (hr : ∀ c, (f c).report = c.report) (hr' : ∀ c, (g c).report = c.report)
    (hp : ∀ c, c.place = m → (f c).place = n) (hp' : ∀ c, c.place = m → (g c).place = n) :
    Carries (leaving p f) (leaving q g) l n Q := by
  refine ⟨(sound_leaving h.runs hr).imp ?_⟩
  rintro c a _ ⟨t, hrun, rfl⟩ hl
  obtain ⟨hm, hbeside⟩ := hrun hl
  refine ⟨hp t hm, fun d hd => ?_⟩
  obtain ⟨b, d', hq, hd', hb⟩ := hbeside d hd
  refine ⟨b, g d', ⟨?_, (hr' d').trans hq.2⟩, hp' d' hd', hb⟩
  unfold Resolver.leaving
  rw [hq.1]

/-- A call takes a frame in both runs, or in neither. -/
theorem call (n : Nat) : Carries (call n) (call n) l l fun _ => True := by
  cases n with
  | zero => exact throw _
  | succ n => exact (pure _ _).imp fun _ _ => trivial

/-- Inside, the place is another one; afterwards a part of it is put back. -/
theorem around {l' m' n' : Place} {f : Context → Context} {g : Context → Context → Context}
    {first first' : Resolver Unit} {P : Unit → Prop} (hfirst : Carries first first' l' m' P)
    (h : Carries p q m' n' Q) (hr : ∀ c, (f c).report = c.report)
    (hr' : ∀ c d, (g c d).report = d.report) (hf : ∀ c, c.place = l → (f c).place = l')
    (hg : ∀ c d, c.place = l → d.place = n' → (g c d).place = n) :
    Carries (do let c ← get; modify f; first; Resolver.leaving p (g c))
      (do let c ← get; modify f; first'; Resolver.leaving q (g c)) l n
      fun b => (∃ u, P u) ∧ Q b := by
  refine get_bind (fun c => ((Sound.modify hr).bind fun _ => hfirst.runs.bind fun _ =>
    sound_leaving h.runs (hr' c)).imp fun _ => trivial) fun c d hc hd => ?_
  refine (bind (move hr hr hf hf) fun _ _ => bind hfirst fun _ _ =>
    h.leaving (hr' c) (hr' d) (hg c · hc) (hg d · hd)).imp ?_
  rintro b ⟨_, _, u, hu, hb⟩
  exact ⟨⟨u, hu⟩, hb⟩

theorem inFunction {kind : FunctionKind} {S T : Scopes} {fk : FunctionKind} {ck : ClassKind}
    (frames : Nat) (h : Carries p q ⟨S, kind, ck⟩ ⟨T, kind, ck⟩ Q) :
    Carries (inFunction kind (Resolver.call frames) p) (inFunction kind (Resolver.call frames) q)
      ⟨S, fk, ck⟩ ⟨T, fk, ck⟩ Q := by
  refine (around (f := fun c => { c with functionKind := kind })
    (g := fun c d => { d with functionKind := c.functionKind }) (call frames) h (fun _ => rfl)
    (fun _ _ => rfl) ?_ ?_).imp fun _ => And.right
  · intro c hc
    obtain ⟨rfl, rfl, rfl⟩ := Context.place_eq.mp hc
    rfl
  · intro c d hc hd
    obtain ⟨-, rfl, -⟩ := Context.place_eq.mp hc
    obtain ⟨rfl, -, hck⟩ := Context.place_eq.mp hd
    exact Context.place_eq.mpr ⟨rfl, rfl, hck⟩

theorem inClass {S T U : Scopes} {fk : FunctionKind} {ck ck' : ClassKind}
    {first first' : Resolver Unit} {P : Unit → Prop}
    (hfirst : Carries first first' ⟨S, fk, .plain⟩ ⟨T, fk, .plain⟩ P)
    (h : Carries p q ⟨T, fk, .plain⟩ ⟨U, fk, ck'⟩ Q) :
    Carries (inClass first p) (inClass first' q) ⟨S, fk, ck⟩ ⟨U, fk, ck⟩
      fun b => (∃ u, P u) ∧ Q b := by
  refine around (f := fun c => { c with classKind := .plain })
    (g := fun c d => { d with classKind := c.classKind }) hfirst h (fun _ => rfl)
    (fun _ _ => rfl) ?_ ?_
  · intro c hc
    obtain ⟨rfl, rfl, rfl⟩ := Context.place_eq.mp hc
    rfl
  · intro c d hc hd
    obtain ⟨-, -, rfl⟩ := Context.place_eq.mp hc
    obtain ⟨rfl, hfk, -⟩ := Context.place_eq.mp hd
    exact Context.place_eq.mpr ⟨rfl, hfk, rfl⟩

theorem inherit {S : Scopes} {fk : FunctionKind} {ck : ClassKind} :
    Carries inherit inherit ⟨S, fk, ck⟩ ⟨S, fk, .subclass⟩ fun _ => True := by
  have hmove : ∀ c : Context, c.place = ⟨S, fk, ck⟩ →
      Context.place { c with classKind := .subclass } = ⟨S, fk, .subclass⟩ := by
    intro c hc
    obtain ⟨rfl, rfl, rfl⟩ := Context.place_eq.mp hc
    rfl
  exact move (fun _ => rfl) (fun _ => rfl) hmove hmove

theorem withScope {scope : Names} {T S : Scopes} {fk : FunctionKind} {ck : ClassKind}
    (h : Carries p q ⟨scope :: S, fk, ck⟩ ⟨T, fk, ck⟩ Q) (ht : T.tail = S) :
    Carries (withScope scope p) (withScope scope q) ⟨S, fk, ck⟩ ⟨S, fk, ck⟩ Q := by
  have hpop : ∀ c : Context, c.place = ⟨T, fk, ck⟩ →
      Context.place { c with scopes := c.scopes.tail } = ⟨S, fk, ck⟩ := by
    intro c hc
    obtain ⟨rfl, rfl, rfl⟩ := Context.place_eq.mp hc
    exact Context.place_eq.mpr ⟨ht, rfl, rfl⟩
  have hpush : ∀ c : Context, c.place = ⟨S, fk, ck⟩ →
      Context.place { c with scopes := scope :: c.scopes } = ⟨scope :: S, fk, ck⟩ := by
    intro c hc
    obtain ⟨rfl, rfl, rfl⟩ := Context.place_eq.mp hc
    rfl
  have henter := move (f := fun c => { c with scopes := scope :: c.scopes })
    (g := fun c => { c with scopes := scope :: c.scopes }) (fun _ => rfl) (fun _ => rfl) hpush hpush
  have hleave := h.leaving (f := fun c => { c with scopes := c.scopes.tail })
    (g := fun c => { c with scopes := c.scopes.tail }) (fun _ => rfl) (fun _ => rfl) hpop hpop
  exact (henter.bind fun _ _ => hleave).imp fun b ⟨_, _, hb⟩ => hb

theorem inScope (frames : Nat) {scope : Names} {T S : Scopes} {fk : FunctionKind} {ck : ClassKind}
    (h : Carries p q ⟨scope :: S, fk, ck⟩ ⟨T, fk, ck⟩ Q) (ht : T.tail = S) :
    Carries (inScope frames scope p) (inScope frames scope q) ⟨S, fk, ck⟩ ⟨S, fk, ck⟩ Q :=
  ((call frames).bind fun _ _ => h.withScope ht).imp fun _ ⟨_, _, hb⟩ => hb

/-! ### Declarations and uses -/

theorem define (frames : Nat) {t t' : Token} (h : t.lexeme = t'.lexeme) {S : Scopes}
    {fk : FunctionKind} {ck : ClassKind} :
    Carries (define frames t) (define frames t') ⟨S, fk, ck⟩ ⟨S.define t.lexeme, fk, ck⟩
      fun _ => True := by
  refine imp (.bind (call frames) fun _ _ => move (fun _ => rfl) (fun _ => rfl) ?_ ?_)
    fun _ _ => trivial
  · intro c hc
    obtain ⟨rfl, rfl, rfl⟩ := Context.place_eq.mp hc
    rfl
  · intro c hc
    obtain ⟨rfl, rfl, rfl⟩ := Context.place_eq.mp hc
    rw [h]
    rfl

theorem declare (frames : Nat) {t t' : Token} (h : t.lexeme = t'.lexeme) {S : Scopes}
    {fk : FunctionKind} {ck : ClassKind} :
    Carries (declare frames t) (declare frames t') ⟨S, fk, ck⟩ ⟨S.declare t.lexeme, fk, ck⟩
      fun _ => S.redeclares t.lexeme = false := by
  have hmark : ∀ c : Context, c.place = ⟨S, fk, ck⟩ → Context.place
      { c with scopes := c.scopes.declare t.lexeme } = ⟨S.declare t.lexeme, fk, ck⟩ := by
    intro c hc
    obtain ⟨rfl, rfl, rfl⟩ := Context.place_eq.mp hc
    rfl
  unfold Resolver.declare
  rw [← h]
  refine imp ((call frames).bind fun _ _ => get_guarded
    (c := fun l => l.scopes.redeclares t.lexeme)
    (move (fun _ => rfl) (fun _ => rfl) hmark hmark)) ?_
  rintro _ ⟨_, _, _, hre⟩
  simpa using hre

theorem locate (kind : UseKind) {t t' : Token} (h : t.lexeme = t'.lexeme) {l : Place} :
    Carries (locate kind { token := t }) (locate kind { token := t' }) l l
      (· = { token := t', hops := l.scopes.hops? t.lexeme }) := by
  refine get_bind (fun c => ?_) fun c d hc hd => ?_
  · split
    · exact Tame.sound (.bind (.modify fun c => .refl c.report) fun _ => .pure _)
    · exact Tame.sound (.pure _)
  have hscopes : c.scopes = l.scopes := congrArg Place.scopes hc
  have hscopes' : d.scopes = l.scopes := congrArg Place.scopes hd
  unfold Reference.name
  rw [hscopes, hscopes', ← h]
  cases l.scopes.hops? t.lexeme with
  | none => exact pure _ _
  | some hops =>
    refine imp (bind (move (fun _ => rfl) (fun _ => rfl) (fun _ hc => hc) fun _ hc => hc)
      fun _ _ => pure _ _) ?_
    rintro ref ⟨_, _, href⟩
    exact href

theorem readVariable {t t' : Token} (h : t.lexeme = t'.lexeme) {l : Place} :
    Carries (readVariable { token := t }) (readVariable { token := t' }) l l fun ref =>
      ref = { token := t', hops := l.scopes.hops? t.lexeme } ∧
        l.scopes.isPending t.lexeme = false := by
  unfold Resolver.readVariable Reference.name
  rw [← h]
  refine imp (get_guarded (c := fun l => l.scopes.isPending t.lexeme) (locate .variable_ h)) ?_
  rintro ref ⟨href, hp⟩
  exact ⟨href, by simpa using hp⟩

/-! ### Sequences -/

/-- The elements of two lists, one after another at one place. -/
theorem mapM {ι ι' : Type} [Inhabited β] {f : ι → Resolver α} {g : ι' → Resolver β}
    {as : List ι} {bs : List ι'} {P : ι → β → Prop}
    (h : List.Forall₂ (fun a b => Carries (f a) (g b) l l (P a)) as bs) :
    Carries (as.mapM f) (bs.mapM g) l l (List.Forall₂ P as) := by
  induction h with
  | nil => exact (pure _ _).imp fun _ hr => hr ▸ .nil
  | cons hab _ ih =>
    rw [List.mapM_cons, List.mapM_cons]
    refine (hab.bind fun _ _ => ih.bind fun _ _ => pure _ _).imp ?_
    rintro r ⟨b, hb, bs', hbs, rfl⟩
    exact .cons hb hbs

end Carries

section Trees

variable {R : Token → Token → Prop} (hR : ∀ {t t'}, R t t' → t.Alike t')

/-! ### Expressions -/

include hR in
theorem carries_this (n : Nat) {t t' : Token} (ht : R t t') (hk : t.kind = .thisKeyword) {l : Place}
    (hc : l.classKind.Around l.scopes) :
    Carries (expression (n + 1) (.thisRef { token := t }))
      (expression (n + 1) (.thisRef { token := t' })) l l
      (ExprShape R (Rules.lexical.uses l.scopes) (.thisRef { token := t })) := by
  refine Carries.get_bind (fun c => Tame.sound (.ite ((Tame.complain _ _).bind fun _ =>
    .pure _) ((Tame.locate _ _).map _))) fun c d hcl hdl => ?_
  have hkind : c.classKind = l.classKind := congrArg Place.classKind hcl
  have hkind' : d.classKind = l.classKind := congrArg Place.classKind hdl
  rw [hkind, hkind']
  by_cases hnone : l.classKind == .none
  · rw [if_pos hnone, if_pos hnone]
    exact Carries.complain_bind fun _ => Tame.sound (.pure _)
  · rw [if_neg hnone, if_neg hnone]
    have hthis : t.lexeme = "this" := (hR ht).spelled.this hk
    -- Inside a class of either kind a scope around binds `this`.
    obtain ⟨d, hd⟩ : ∃ d, l.scopes.Sees "this" d := by
      revert hc hnone
      cases l.classKind with
      | none => exact fun _ h => absurd rfl h
      | plain => exact fun h _ => h
      | subclass => exact fun ⟨d, hd, _⟩ _ => ⟨d, hd⟩
    refine ((Carries.locate .this_ (hR ht).lexeme).map).imp ?_
    rintro e ⟨ref, rfl, rfl⟩
    rw [hthis, hd.1]
    exact .this ht hk ⟨d, rfl, hd⟩

include hR in
theorem carries_super (n : Nat) {t t' method method' : Token} (ht : R t t')
    (hk : t.kind = .superKeyword) (hm : R method method') {l : Place}
    (hc : l.classKind.Around l.scopes) :
    Carries (expression (n + 1) (.superRef { token := t } method))
      (expression (n + 1) (.superRef { token := t' } method')) l l
      (ExprShape R (Rules.lexical.uses l.scopes) (.superRef { token := t } method)) := by
  have htame := (Tame.locate .super_ { token := t }).bind fun ref =>
    Tame.pure (Expr.superRef ref method)
  refine Carries.get_bind (fun c => Tame.sound ?_) fun c d hcl hdl => ?_
  · split
    · exact (Tame.complain _ _).bind fun _ => htame
    · exact (Tame.complain _ _).bind fun _ => htame
    · exact htame
  have hkind : c.classKind = l.classKind := congrArg Place.classKind hcl
  have hkind' : d.classKind = l.classKind := congrArg Place.classKind hdl
  rw [hkind, hkind']
  -- Only a subclass binds `super`; elsewhere the word is complained about.
  revert hc
  cases l.classKind with
  | none => exact fun _ => Carries.complain_bind fun _ => htame.sound
  | plain => exact fun _ => Carries.complain_bind fun _ => htame.sound
  | subclass =>
    rintro ⟨d, hthis, hsuper⟩
    have hlexeme : t.lexeme = "super" := (hR ht).spelled.super hk
    refine ((Carries.locate .super_ (hR ht).lexeme).bind fun _ _ => Carries.pure _ _).imp ?_
    rintro e ⟨ref, rfl, rfl⟩
    rw [hlexeme, hsuper.1]
    exact .super ht hk hm ⟨d, rfl, hsuper, hthis⟩

include hR in
/-- Expressions of one shape. -/
theorem carries_expression (n : Nat) : ∀ {e e' : Expr} {l : Place}, Tree.FreeShape R e e' →
    Scopes.AllReady l.scopes.tail → l.classKind.Around l.scopes →
    Carries (expression n e) (expression n e') l l
      (ExprShape R (Rules.lexical.uses l.scopes) e) := by
  -- On the frames, as the resolver calls itself with one frame less.
  induction n with
  | zero => exact fun _ _ _ => .throw _
  | succ n ih =>
    intro e e' l hshape hready hkind
    cases hshape with
    | literal =>
      refine (Carries.pure _ _).imp ?_
      rintro _ rfl
      exact .literal
    | grouping he =>
      refine ((ih he hready hkind).map).imp ?_
      rintro r ⟨b, hb, rfl⟩
      exact .grouping hb
    | unary hop hk he =>
      refine ((ih he hready hkind).map).imp ?_
      rintro r ⟨b, hb, rfl⟩
      exact .unary hop hk hb
    | binary hl hop hk hr =>
      refine Carries.imp (.bind (ih hl hready hkind) fun _ _ =>
        .bind (ih hr hready hkind) fun _ _ => .pure _ _) ?_
      rintro r ⟨b, hb, b', hb', rfl⟩
      exact .binary hb hop hk hb'
    | logical hl hop hr =>
      refine Carries.imp (.bind (ih hl hready hkind) fun _ _ =>
        .bind (ih hr hready hkind) fun _ _ => .pure _ _) ?_
      rintro r ⟨b, hb, b', hb', rfl⟩
      exact .logical hb hop hb'
    | var ht hk _ =>
      refine ((Carries.readVariable (hR ht).lexeme).map).imp ?_
      rintro r ⟨ref, ⟨rfl, hp⟩, rfl⟩
      exact .var ht hk ⟨rfl, fun d hd => Scopes.ready_of_hops? hready hp hd⟩
    | assign ht hk _ he =>
      refine Carries.imp (.bind (ih he hready hkind) fun _ _ =>
        .bind (.locate .assignment (hR ht).lexeme) fun _ _ => .pure _ _) ?_
      rintro r ⟨b, hb, ref, rfl, rfl⟩
      exact .assign ht hk rfl hb
    | call hf hp hes =>
      refine Carries.imp (.bind (ih hf hready hkind) fun _ _ =>
        .bind (.mapM (hes.imp fun _ _ he => ih he hready hkind)) fun _ _ => .pure _ _) ?_
      rintro r ⟨b, hb, bs, hbs, rfl⟩
      exact .call hb hp hbs
    | get ho hn =>
      refine Carries.imp (.bind (ih ho hready hkind) fun _ _ => .pure _ _) ?_
      rintro r ⟨b, hb, rfl⟩
      exact .get hb hn
    | set ho hn he =>
      refine Carries.imp (.bind (ih he hready hkind) fun _ _ =>
        .bind (ih ho hready hkind) fun _ _ => .pure _ _) ?_
      rintro r ⟨b, hb, b', hb', rfl⟩
      exact .set hb' hn hb
    | this ht hk _ => exact carries_this hR n ht hk hkind
    | super ht hk hm _ => exact carries_super hR n ht hk hm hkind

/-! ### Statements -/

include hR in
theorem ordinary {t t' : Token} (ht : R t t') (hk : t.kind = .identifier) : Ordinary t.lexeme :=
  (hR ht).spelled.name hk

include hR in
theorem ordinary_params {params params' : List Token} (hp : List.Forall₂ R params params')
    (hk : ∀ p ∈ params, p.kind = .identifier) : ∀ p ∈ params, Ordinary p.lexeme := by
  induction hp with
  | nil => simp
  | cons hr _ ih =>
    rw [List.forall_mem_cons] at hk ⊢
    exact ⟨ordinary hR hr hk.1, ih hk.2⟩

include hR in
/-- A statement declares at most one name. -/
theorem StmtShape.scopes {rules : Rules} {S T : Scopes} {s s' : Stmt}
    (h : StmtShape R rules S s s' T) : T = S ∨ ∃ name, Ordinary name ∧ T = S.add name := by
  cases h with
  | plain hn hk _ => exact .inr ⟨_, ordinary hR hn hk, rfl⟩
  | initialized hn hk _ _ => exact .inr ⟨_, ordinary hR hn hk, rfl⟩
  | funDecl _ hf =>
    obtain ⟨hn, hk, -⟩ := hf
    exact .inr ⟨_, ordinary hR hn hk, rfl⟩
  | classDecl hn hk _ _ => exact .inr ⟨_, ordinary hR hn hk, rfl⟩
  | subclass hn hk _ _ _ _ _ => exact .inr ⟨_, ordinary hR hn hk, rfl⟩
  | _ => exact .inl rfl

/-- What resolution of statements relies on. -/
structure Settled (S : Scopes) (ck : ClassKind) : Prop where
  ready : S.AllReady
  around : ck.Around S

include hR in
theorem StmtShape.settled {rules : Rules} {S T : Scopes} {s s' : Stmt} {ck : ClassKind}
    (h : StmtShape R rules S s s' T) (hS : Settled S ck) : Settled T ck := by
  rcases h.scopes hR with rfl | ⟨name, hn, rfl⟩
  · exact hS
  · exact ⟨hS.ready.add name, hS.around.add hn⟩

include hR in
theorem StmtShape.tail {rules : Rules} {S T : Scopes} {s s' : Stmt}
    (h : StmtShape R rules S s s' T) : T.tail = S.tail := by
  rcases h.scopes hR with rfl | ⟨name, -, rfl⟩
  · rfl
  · exact Scopes.tail_add S name

include hR in
theorem BodyShape.tail {rules : Rules} {body body' : List Stmt} :
    ∀ {S T : Scopes}, BodyShape R rules S body body' T → T.tail = S.tail := by
  induction body generalizing body' with
  | nil =>
    rintro S _ ⟨⟩
    rfl
  | cons s body ih =>
    rintro S U (_ | ⟨hs, hb⟩)
    exact (ih hb).trans (hs.tail hR)

/-- Resolution of one statement carries over to others of its shape. -/
def CarriesAll (R : Token → Token → Prop) (f : Stmt → Resolver Stmt) : Prop :=
  ∀ {S T : Scopes} {s s' : Stmt} {fk : FunctionKind} {ck : ClassKind},
    StmtShape R .free S s s' T → Settled S ck →
    Carries (f s) (f s') ⟨S, fk, ck⟩ ⟨T, fk, ck⟩ (StmtShape R .lexical S s · T)

/-- So does resolution of statements one after another. -/
def CarriesBodies (R : Token → Token → Prop) (f : List Stmt → Resolver (List Stmt)) : Prop :=
  ∀ {S T : Scopes} {body body' : List Stmt} {fk : FunctionKind} {ck : ClassKind},
    BodyShape R .free S body body' T → Settled S ck →
    Carries (f body) (f body') ⟨S, fk, ck⟩ ⟨T, fk, ck⟩ (BodyShape R .lexical S body · T)

/-- So does resolution of a function of any kind. -/
def CarriesFunctions (R : Token → Token → Prop)
    (f : FunctionKind → Function → Resolver Function) : Prop :=
  ∀ (kind : FunctionKind) {S : Scopes} {g g' : Function} {fk : FunctionKind} {ck : ClassKind},
    FunctionShape R .free S g g' → Settled S ck →
    Carries (f kind g) (f kind g') ⟨S, fk, ck⟩ ⟨S, fk, ck⟩ (FunctionShape R .lexical S g)

section Bodies

variable {fk : FunctionKind} {ck : ClassKind}

include hR in
theorem carries_body {f : Stmt → Resolver Stmt} (hf : CarriesAll R f) :
    CarriesBodies R (·.mapM f) := by
  intro S T body body' fk ck hb hS
  induction body generalizing body' S with
  | nil =>
    obtain ⟨⟩ := hb
    refine (Carries.pure _ _).imp ?_
    rintro _ rfl
    exact .nil
  | cons s body ih =>
    obtain _ | ⟨hs, hb⟩ := hb
    change Carries ((s :: body).mapM f) (List.mapM f (_ :: _)) _ _ _
    rw [List.mapM_cons, List.mapM_cons]
    refine Carries.imp (.bind (hf hs hS) fun _ _ =>
      .bind (ih hb (hs.settled hR hS)) fun _ _ => .pure _ _) ?_
    rintro r ⟨b, hb, bs, hbs, rfl⟩
    exact .cons hb hbs

theorem carries_params (n : Nat) {params params' : List Token}
    (h : List.Forall₂ (fun p p' : Token => p.lexeme = p'.lexeme) params params') :
    ∀ {S : Scopes}, Carries
      (forIn params PUnit.unit fun p _ => do declare n p; define n p; pure (.yield PUnit.unit))
      (forIn params' PUnit.unit fun p _ => do declare n p; define n p; pure (.yield PUnit.unit))
      ⟨S, fk, ck⟩ ⟨params.foldl (fun s p => s.add p.lexeme) S, fk, ck⟩
      fun _ => Rules.lexical.DeclaresAll S params := by
  induction h with
  | nil => exact (Carries.pure _ _).imp fun _ _ => trivial
  | cons hp _ ih =>
    intro S
    simp only [List.forIn_cons, bind_assoc, pure_bind]
    refine Carries.imp (.bind (.declare n hp) fun _ _ => .bind (.define n hp) fun _ _ => ih) ?_
    rintro _ ⟨_, hd, _, _, hds⟩
    exact ⟨hd, hds⟩

include hR in
theorem carries_functionWith (n : Nat) {body : List Stmt → Resolver (List Stmt)}
    (hf : CarriesBodies R body) : CarriesFunctions R (functionWith n body) := by
  intro kind S g g' fk ck h hS
  obtain ⟨hn, hk, hp, hkp, -, hb⟩ := h
  rename_i T name name' params params' stmts stmts'
  have henter : Settled (S.enter params) ck :=
    ⟨hS.ready.enter params, hS.around.enter (ordinary_params hR hp hkp)⟩
  have htail : T.tail = S := (hb.tail hR).trans (Scopes.tail_enter S params)
  refine Carries.imp (.inFunction n (.withScope (.bind (carries_params n (hp.imp fun _ _ hr =>
    (hR hr).lexeme)) fun _ _ => .map (hf hb henter)) htail)) ?_
  rintro r ⟨_, hd, stmts, hbody, rfl⟩
  exact .mk hn hk hp hkp hd hbody

theorem FunctionShape.name {rules : Rules} {S : Scopes} {g g' : Function}
    (h : FunctionShape R rules S g g') : R g.name g'.name ∧ g.name.kind = .identifier := by
  obtain ⟨hn, hk, -⟩ := h
  exact ⟨hn, hk⟩

variable {f : FunctionKind → Function → Resolver Function} (hf : CarriesFunctions R f)

include hR hf

theorem carries_methods (n : Nat) {S : Scopes} {ms ms' : List Function}
    (h : MethodsShape R .free S.ofMethods ms ms') (hS : Settled S.ofMethods ck) :
    Carries (methodsWith n f ms) (methodsWith n f ms') ⟨S, fk, ck⟩ ⟨S, fk, ck⟩
      (MethodsShape R .lexical S.ofMethods ms) := by
  refine .inScope n (T := S.ofMethods) ?_ rfl
  change Carries _ _ ⟨S.ofMethods, fk, ck⟩ _ _
  generalize S.ofMethods = T at h hS
  induction ms generalizing ms' with
  | nil =>
    obtain ⟨⟩ := h
    refine (Carries.pure _ _).imp ?_
    rintro _ rfl
    exact .nil
  | cons m ms ih =>
    obtain _ | ⟨hm, hms⟩ := h
    rename_i m' ms'
    -- Whether a method is an initializer is a matter of its name alone.
    have hinit : m'.isInit = m.isInit := by
      obtain ⟨hn, -⟩ := hm
      exact congrArg (· == "init") (hR hn).lexeme.symm
    rw [List.mapM_cons, List.mapM_cons, hinit]
    refine Carries.imp (.bind (hf _ hm hS) fun _ _ =>
      .bind (ih hms) fun _ _ => .pure _ _) ?_
    rintro r ⟨b, hb, bs, hbs, rfl⟩
    exact .cons hb hbs

theorem carries_class (n : Nat) {S : Scopes} {name name' : Token} {ms ms' : List Function}
    (hS : S.AllReady) (hn : R name name')
    (hm : MethodsShape R .free (S.add name.lexeme).ofMethods ms ms') :
    Carries (classWith n f name none ms) (classWith n f name' none ms') ⟨S, fk, ck⟩
      ⟨S.add name.lexeme, fk, ck⟩ fun r => ∃ ms'', r = .classDecl name' none ms'' ∧
        S.redeclares name.lexeme = false ∧
        MethodsShape R .lexical (S.add name.lexeme).ofMethods ms ms'' := by
  refine Carries.imp (.inClass (.bind (.declare n (hR hn).lexeme) fun _ _ =>
    .define n (hR hn).lexeme) (.map (carries_methods hR hf n hm
      ⟨(hS.add _).of "this", around_ofMethods _⟩))) ?_
  rintro r ⟨⟨_, _, hd, -⟩, ms'', hms, rfl⟩
  exact ⟨ms'', rfl, hd, hms⟩

/-- The methods of a class with a superclass, and the superclass before them. -/
theorem carries_subclass (n : Nat) {S : Scopes} {name name' t t' : Token} {ms ms' : List Function}
    (hS : S.AllReady) (hn : R name name') (ht : R t t')
    (hm : MethodsShape R .free (S.add name.lexeme).ofSubclass.ofMethods ms ms') :
    Carries (classWith n f name (some { token := t }) ms)
      (classWith n f name' (some { token := t' }) ms') ⟨S, fk, ck⟩
      ⟨S.add name.lexeme, fk, ck⟩ fun r => ∃ hops ms'',
        r = .classDecl name' (some { token := t', hops }) ms'' ∧
        S.redeclares name.lexeme = false ∧ Rules.lexical.uses S .variable_ t.lexeme hops ∧
        MethodsShape R .lexical (S.add name.lexeme).ofSubclass.ofMethods ms ms'' := by
  have hadd := hS.add name.lexeme
  have hsame : t.lexeme = name.lexeme ↔ t'.lexeme = name'.lexeme := by
    rw [(hR ht).lexeme, (hR hn).lexeme]
  refine Carries.imp (.inClass (.bind (.declare n (hR hn).lexeme) fun _ _ =>
    .define n (hR hn).lexeme) (.guarded hsame (.bind .inherit fun _ _ =>
      .bind (.readVariable (hR ht).lexeme) fun _ _ => .bind (.inScope n
        (carries_methods hR hf n hm ⟨(hadd.of "super").of "this", around_ofSubclass _⟩) rfl)
          fun _ _ => .pure _ _))) ?_
  rintro r ⟨⟨_, _, hd, -⟩, ⟨_, _, _, ⟨rfl, -⟩, ms'', hms, rfl⟩, hne⟩
  -- The superclass has another name, so it is found where it was before.
  have hhops : (S.add name.lexeme).hops? t.lexeme = S.hops? t.lexeme :=
    (Scopes.hops?_mark _ (Ne.symm hne)).trans (Scopes.hops?_mark _ (Ne.symm hne))
  refine ⟨_, ms'', rfl, hd, ⟨hhops.symm, fun d hd => ?_⟩, hms⟩
  exact Scopes.ready_of_hops? hS.tail (hS.isPending _) (hhops.symm.trans hd)

end Bodies

/-- Resolution of classes carries over to others of their shape. -/
def CarriesClasses (R : Token → Token → Prop)
    (f : Token → Option Reference → List Function → Resolver Stmt) : Prop :=
  ∀ {S T : Scopes} {name name' : Token} {superclass superclass' : Option Reference}
    {ms ms' : List Function} {fk : FunctionKind} {ck : ClassKind},
    StmtShape R .free S (.classDecl name superclass ms) (.classDecl name' superclass' ms') T →
    Settled S ck → Carries (f name superclass ms) (f name' superclass' ms') ⟨S, fk, ck⟩
      ⟨T, fk, ck⟩ (StmtShape R .lexical S (.classDecl name superclass ms) · T)

include hR in
theorem carries_classWith (n : Nat) {f : FunctionKind → Function → Resolver Function}
    (hf : CarriesFunctions R f) : CarriesClasses R (classWith n f) := by
  intro S T name name' superclass superclass' ms ms' fk ck hshape hS
  cases hshape with
  | classDecl hn hk _ hm =>
    refine (carries_class hR hf n hS.ready hn hm).imp ?_
    rintro r ⟨ms, rfl, hd, hms⟩
    exact .classDecl hn hk hd hms
  | subclass hn hk _ ht hkt _ hm =>
    refine (carries_subclass hR hf n hS.ready hn ht hm).imp ?_
    rintro r ⟨hops, ms, rfl, hd, hu, hms⟩
    exact .subclass hn hk hd ht hkt hu hms

include hR in
/-- Trees of one shape. -/
theorem carries_trees (n : Nat) : CarriesAll R (statement n) ∧ CarriesBodies R (statements n) ∧
    CarriesFunctions R (function n) ∧ CarriesClasses R (classDecl n) := by
  -- On the frames, all calls together; what a node calls has one frame less.
  induction n with
  | zero => exact ⟨fun _ _ => .throw _, fun _ _ => .throw _, fun _ {_ _ _ _ _} _ _ => .throw _,
      fun _ _ => .throw _⟩
  | succ n ih =>
    obtain ⟨hs, hbody, hf, hc⟩ := ih
    refine ⟨?_, carries_body hR hs, carries_functionWith hR n hbody, carries_classWith hR n hf⟩
    intro S T s s' fk ck hshape hS
    have hready : Scopes.AllReady S.tail := hS.ready.tail
    have hexpr : ∀ {e e' : Expr}, Tree.FreeShape R e e' →
        Carries (expression n e) (expression n e') ⟨S, fk, ck⟩ ⟨S, fk, ck⟩
          (ExprShape R (Rules.lexical.uses S) e) :=
      fun he => carries_expression hR n he hready hS.around
    cases hshape with
    | expression he =>
      refine ((hexpr he).map).imp ?_
      rintro r ⟨b, hb, rfl⟩
      exact .expression hb
    | print he =>
      refine ((hexpr he).map).imp ?_
      rintro r ⟨b, hb, rfl⟩
      exact .print hb
    | plain hn hk _ =>
      refine Carries.imp (.bind (.declare n (hR hn).lexeme) fun _ _ => .bind (.pure none none)
        fun _ _ => .bind (.define n (hR hn).lexeme) fun _ _ => .pure _ _) ?_
      rintro r ⟨_, hd, _, rfl, _, _, rfl⟩
      exact .plain hn hk hd
    | initialized hn hk _ he =>
      -- The name is declared but not ready while its own initializer is resolved.
      have hinit := carries_expression hR n (l := ⟨S.declare _, fk, ck⟩) he
        (by rw [Scopes.declare, Scopes.tail_mark]; exact hready)
        (hS.around.mark (ordinary hR hn hk) false)
      refine Carries.imp (.bind (.declare n (hR hn).lexeme) fun _ _ => .bind (.map hinit)
        fun _ _ => .bind (.define n (hR hn).lexeme) fun _ _ => .pure _ _) ?_
      rintro r ⟨_, hd, _, ⟨b, hb, rfl⟩, _, _, rfl⟩
      exact .initialized hn hk hd hb
    | block hb =>
      have hpush : Settled (Bindings.empty :: S) ck :=
        ⟨hS.ready.enter [], hS.around.push⟩
      refine Carries.imp (.map (.inScope n (hbody hb hpush) (hb.tail hR))) ?_
      rintro r ⟨b, hb, rfl⟩
      exact .block hb
    | ifAlone he h =>
      refine Carries.imp (.bind (hexpr he) fun _ _ => .bind (hs h hS) fun _ _ =>
        .bind (.pure none none) fun _ _ => .pure _ _) ?_
      rintro r ⟨b, hb, t, ht, _, rfl, rfl⟩
      exact .ifAlone hb ht
    | ifElse he h ht =>
      refine Carries.imp (.bind (hexpr he) fun _ _ => .bind (hs h hS) fun _ _ =>
        .bind (.map (hs ht hS)) fun _ _ => .pure _ _) ?_
      rintro r ⟨b, hb, t, ht, _, ⟨u, hu, rfl⟩, rfl⟩
      exact .ifElse hb ht hu
    | whileLoop he h =>
      refine Carries.imp (.bind (hexpr he) fun _ _ => .bind (hs h hS) fun _ _ => .pure _ _) ?_
      rintro r ⟨b, hb, t, ht, rfl⟩
      exact .whileLoop hb ht
    | breakLoop hk =>
      refine (Carries.pure _ _).imp ?_
      rintro _ rfl
      exact .breakLoop hk
    | funDecl _ hg =>
      obtain ⟨hn, hk⟩ := hg.name
      -- A function may call itself: its name is ready before its body is resolved.
      have hadd : Settled (S.add _) ck := ⟨hS.ready.add _, hS.around.add (ordinary hR hn hk)⟩
      refine Carries.imp (.bind (.declare n (hR hn).lexeme) fun _ _ =>
        .bind (.define n (hR hn).lexeme) fun _ _ => .map (hf _ hg hadd)) ?_
      rintro r ⟨_, hd, _, _, g, hg, rfl⟩
      exact .funDecl hd hg
    | returned hk =>
      refine Carries.imp (.get_guarded (c := fun l => l.functionKind == .none)
        (.bind (.pure none none) fun _ _ => .pure _ _)) ?_
      rintro r ⟨⟨_, rfl, rfl⟩, -⟩
      exact .returned hk
    | returnedWith hk he =>
      refine Carries.imp (.get_guarded (c := fun l => l.functionKind == .none)
        (.bind (.map (hexpr he)) fun _ _ => .pure _ _)) ?_
      rintro r ⟨⟨_, ⟨b, hb, rfl⟩, rfl⟩, -⟩
      exact .returnedWith hk hb
    | classDecl hn hk hd hm => exact hc (.classDecl hn hk hd hm) hS
    | subclass hn hk hd ht hkt hu hm => exact hc (.subclass hn hk hd ht hkt hu hm) hS

include hR in
theorem carries_statement (n : Nat) : CarriesAll R (statement n) :=
  (carries_trees hR n).1

/-- A top-level statement that is too deep is a problem; where there is none, it is
resolved as any other. -/
theorem sound_topLevel {n : Nat} {s : Stmt} {R : Context → Stmt → Context → Prop}
    (h : Sound (statement n s) R) : Sound (topLevel n s) R := by
  refine ⟨fun c => ?_, ?_⟩
  · have hgrows := h.grows c
    unfold topLevel
    cases hrun : statement n s c with
    | ok a t =>
      rw [hrun] at hgrows
      exact hgrows
    | error e t =>
      rw [hrun] at hgrows
      cases e with
      | tooDeep => exact hgrows.trans (.add t.report (Problem.static _ _ _))
      | noStatement kind => exact hgrows
      | noExpression kind => exact hgrows
  · rintro c a c' ⟨hrun, hreport⟩
    unfold topLevel at hrun
    cases hstmt : statement n s c with
    | ok a' t =>
      rw [hstmt] at hrun
      cases hrun
      exact h.quiet ⟨hstmt, hreport⟩
    | error e t =>
      rw [hstmt] at hrun
      cases e with
      | tooDeep =>
        cases hrun
        have hgrows := h.grows c
        rw [hstmt] at hgrows
        -- The statement was given up, so the report is longer than before.
        exact absurd hreport (hgrows.add_ne _)
      | noStatement kind => cases hrun
      | noExpression kind => cases hrun

theorem quiet_topLevel {n : Nat} {s s' : Stmt} {c c' : Context}
    (h : Quiet (statement n s) c s' c') : Quiet (topLevel n s) c s' c' := by
  refine ⟨?_, h.2⟩
  unfold topLevel
  rw [h.1]

include hR in
theorem carries_topLevel (n : Nat) : CarriesAll R (topLevel n) := by
  intro S T s s' fk ck hshape hS
  have h : Carries (statement n s) (statement n s') ⟨S, fk, ck⟩ ⟨T, fk, ck⟩
      (StmtShape R .lexical S s · T) := carries_statement hR n hshape hS
  refine ⟨(sound_topLevel h.runs).imp fun hrun hl => ?_⟩
  obtain ⟨hm, hbeside⟩ := hrun hl
  refine ⟨hm, fun d hd => ?_⟩
  obtain ⟨b, d', hq, hd', hb⟩ := hbeside d hd
  exact ⟨b, d', quiet_topLevel hq, hd', hb⟩

end Trees

/-! ### Programs -/

theorem BodyShape.nil_scopes {R : Token → Token → Prop} {rules : Rules} {body body' : List Stmt}
    (hR : ∀ {t t'}, R t t' → t.Alike t') :
    ∀ {T : Scopes}, BodyShape R rules [] body body' T → T = [] := by
  induction body generalizing body' with
  | nil =>
    rintro _ ⟨⟩
    rfl
  | cons s body ih =>
    rintro U (_ | ⟨hs, hb⟩)
    rcases hs.scopes hR with rfl | ⟨name, -, rfl⟩
    · exact ih hb
    · exact ih hb

/-- The place of the statements of a program. -/
def Place.outermost : Place :=
  ⟨[], .none, .none⟩

section Programs

variable {R : Token → Token → Prop} (hR : ∀ {t t'}, R t t' → t.Alike t') {frames : Nat}
  {program program' : List Stmt}

include hR in
theorem carries_program
    (hshape : List.Forall₂ (Tree.Category.declaration.Fits R) program program') :
    Carries (program.mapM (topLevel frames)) (program'.mapM (topLevel frames)) .outermost
      .outermost (BodyShape R .lexical [] program · []) := by
  obtain ⟨T, hbody⟩ := Tree.bodyShape_of_fits hshape []
  have hsettled : Settled [] .none := ⟨by simp [Scopes.AllReady], trivial⟩
  have hcarries : Carries (program.mapM (topLevel frames)) (program'.mapM (topLevel frames))
      ⟨[], .none, .none⟩ ⟨T, .none, .none⟩ (BodyShape R .lexical [] program · T) :=
    carries_body hR (carries_topLevel hR frames) hbody hsettled
  obtain rfl := hbody.nil_scopes hR
  exact hcarries

/-- A program that is resolved without a problem wherever a program may begin. -/
structure Flawless (frames : Nat) (program : List Stmt) : Prop where
  quiet : ∀ c : Context, c.place = .outermost →
    ∃ ss c', Quiet (program.mapM (topLevel frames)) c ss c' ∧ c'.place = .outermost

theorem Flawless.append {program program' : List Stmt} (h : Flawless frames program)
    (h' : Flawless frames program') : Flawless frames (program ++ program') := by
  refine ⟨fun c hc => ?_⟩
  obtain ⟨ss, d, hd, hplace⟩ := h.quiet c hc
  obtain ⟨ss', e, he, hplace'⟩ := h'.quiet d hplace
  refine ⟨ss ++ ss', e, ?_, hplace'⟩
  rw [List.mapM_append]
  exact hd.bind (he.bind (.pure _ _))

theorem Flawless.flatten {programs : List (List Stmt)} (h : ∀ p ∈ programs, Flawless frames p) :
    Flawless frames programs.flatten := by
  induction programs with
  | nil => exact ⟨fun c hc => ⟨[], c, .pure _ _, hc⟩⟩
  | cons p programs ih =>
    rw [List.forall_mem_cons] at h
    exact h.1.append (ih h.2)

theorem Flawless.resolve (h : Flawless frames program) (listing : Listing) (report : Report) :
    ∃ r, resolve frames program listing report = .ok r ∧ r.report = report := by
  obtain ⟨ss, c, hquiet, -⟩ := h.quiet { listing, report } rfl
  refine ⟨⟨ss, c.uses, c.report, c.scopes.length⟩, ?_, hquiet.2⟩
  unfold Scope.resolve
  rw [hquiet.1]

section Shapes

variable (hshape : List.Forall₂ (Tree.Category.declaration.Fits R) program program')
  (hproper : ∀ s ∈ program, ProperStmt s) {listing : Listing} {report : Report} {r : Resolved}
  (hr : resolve frames program listing report = .ok r) (hquiet : r.report = report)

include hR hshape hproper hr hquiet

/-- A program of the same shape as one that is resolved without a problem has no
problem either. -/
theorem flawless_of_resolve : Flawless frames program' := by
  obtain ⟨ss, c, hrun, hresolve⟩ := resolve_proper frames listing report hproper
  obtain rfl : _ = r := Except.ok.inj (hresolve.symm.trans hr)
  obtain ⟨-, hbeside⟩ := (carries_program hR hshape).runs.quiet ⟨hrun, hquiet⟩ rfl
  refine ⟨fun d hd => ?_⟩
  obtain ⟨ss', d', hq, hplace, -⟩ := hbeside d hd
  exact ⟨ss', d', hq, hplace⟩

/-- Its names have the distances of their declarations. -/
theorem resolve_carries (listing' : Listing) (report' : Report) :
    ∃ r', resolve frames program' listing' report' = .ok r' ∧ r'.report = report' ∧
      BodyShape R .lexical [] program r'.statements [] := by
  obtain ⟨ss, c, hrun, hresolve⟩ := resolve_proper frames listing report hproper
  obtain rfl : _ = r := Except.ok.inj (hresolve.symm.trans hr)
  obtain ⟨-, hbeside⟩ := (carries_program hR hshape).runs.quiet ⟨hrun, hquiet⟩ rfl
  obtain ⟨ss', c', ⟨hrun', hreport⟩, -, hlexical⟩ :=
    hbeside { listing := listing', report := report' } rfl
  refine ⟨⟨ss', c'.uses, c'.report, c'.scopes.length⟩, ?_, hreport, hlexical⟩
  unfold resolve
  rw [hrun']

end Shapes

end Programs

end Scope

end Lox
