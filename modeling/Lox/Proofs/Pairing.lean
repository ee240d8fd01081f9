/-
Two runs in step.

Two computations are compared from pairs of states.  They are in step when both
give results that belong together, or both stop for the same reason, and the
states they come to are a pair again.  A pairing may be lenient about the stack:
then nothing is asked of the second computation where the first one ran out of
frames.

* `Stop.SameAt` — the same reason to stop, at related tokens;
* `Stop.Overflows` — the stack was exhausted;
* `Catches` — nesting that is too deep is made a fault;
* `Pairing` — pairs of states, and what is asked of two computations;
* `Pairing.InStep` — two computations in step;
* `InStep.bind`, `InStep.caught`, `InStep.mapM`, `InStep.runAll`, `InStep.iterate` — steps,
  sequences and loops in step.
-/
import Lox.Machine.Eval
import Lox.Proofs.Quiet
import Mathlib.Data.List.Forall2

namespace Lox

/-- The same reason to stop, at tokens that belong together. -/
inductive Stop.SameAt (R : Token → Token → Prop) : Stop → Stop → Prop
  | fault {f : Fault} {t t' : Token} (ht : R t t') : SameAt R (.fault f t) (.fault f t')
  | exhausted : SameAt R .exhausted .exhausted
  | unfinished : SameAt R .unfinished .unfinished
  | defect (d : Defect) : SameAt R (.defect d) (.defect d)

/-- The stack was exhausted, whether or not a call has made a fault of it. -/
inductive Stop.Overflows : Stop → Prop
  | exhausted : Overflows .exhausted
  | fault (t : Token) : Overflows (.fault .stackOverflow t)

theorem Stop.SameAt.refl {R : Token → Token → Prop} (hR : ∀ t, R t t) (e : Stop) :
    e.SameAt R e := by
  cases e with
  | fault f t => exact .fault (hR t)
  | exhausted => exact .exhausted
  | unfinished => exact .unfinished
  | defect d => exact .defect d

theorem Stop.SameAt.eq {e e' : Stop} (h : e.SameAt Eq e') : e = e' := by
  cases h with
  | fault ht => rw [ht]
  | exhausted => rfl
  | unfinished => rfl
  | defect d => rfl

/-! ### Nesting that is too deep -/

/-- The reason to stop, when nesting that is too deep is made a fault. -/
def Stop.caught (t : Token) : Stop → Stop
  | .exhausted => .fault .stackOverflow t
  | e => e

theorem Stop.SameAt.caught {R : Token → Token → Prop} {e e' : Stop} (h : e.SameAt R e')
    {t t' : Token} (ht : R t t') : (e.caught t).SameAt R (e'.caught t') := by
  cases h with
  | fault hu => exact .fault hu
  | exhausted => exact .fault ht
  | unfinished => exact .unfinished
  | defect d => exact .defect d

theorem Stop.Overflows.caught {e : Stop} (h : e.Overflows) (t : Token) :
    ∃ t', e.caught t = .fault .stackOverflow t' := by
  cases h with
  | exhausted => exact ⟨t, rfl⟩
  | fault t' => exact ⟨t', rfl⟩

/-- A computation does what another one does, and makes nesting that is too deep a fault at
a token. -/
structure Catches {σ α : Type} (t : Token) (p p' : EStateM Stop σ α) : Prop where
  ok : ∀ {s a s'}, p s = .ok a s' → p' s = .ok a s'
  error : ∀ {s e s'}, p s = .error e s' → p' s = .error (e.caught t) s'

theorem Eval.catches {α : Type} (t : Token) (p : Eval α) :
    Catches t p (Eval.catchExhausted t p) where
  ok h := by
    unfold Eval.catchExhausted
    rw [h]
  error {_ e _} h := by
    unfold Eval.catchExhausted
    rw [h]
    cases e with
    | _ => rfl

/-! ### Computations in step -/

/-- Pairs of states of two kinds, and what is asked of computations on them. -/
structure Pairing (X σ τ : Type) where
  left : X → σ
  right : X → τ
  /-- The two states of a pair are alike. -/
  Alike : X → Prop
  /-- What stays true from one pair to a later one. -/
  Later : X → X → Prop
  later_refl : ∀ x, Later x x
  later_trans : ∀ {x y z}, Later x y → Later y z → Later x z
  /-- Tokens at which the two computations may stop. -/
  Places : Token → Token → Prop
  /-- Nothing is asked where the first computation ran out of frames. -/
  Lenient : Prop

namespace Pairing

variable {X σ τ α β γ δ : Type} (P : Pairing X σ τ)

/-- From one pair of states, two computations both give results that belong
together, or both stop for the same reason. -/
def InStep (x : X) (p : EStateM Stop σ α) (q : EStateM Stop τ β) (Q : α → β → X → Prop) : Prop :=
  (∃ a b y, p (P.left x) = .ok a (P.left y) ∧ q (P.right x) = .ok b (P.right y) ∧
    P.Alike y ∧ P.Later x y ∧ Q a b y) ∨
  (∃ e e' y, p (P.left x) = .error e (P.left y) ∧ q (P.right x) = .error e' (P.right y) ∧
    P.Alike y ∧ P.Later x y ∧ e.SameAt P.Places e') ∨
  (P.Lenient ∧ ∃ e s, p (P.left x) = .error e s ∧ e.Overflows)

/-- The same result on both sides. -/
def Same (a b : α) (_ : X) : Prop :=
  a = b

/-- The same value on both sides, and what is known of it. -/
def Gives (V : Value → X → Prop) (v v' : Value) (y : X) : Prop :=
  v = v' ∧ V v y

/-- The same completion on both sides, and what is known of a value it returns. -/
def Ends (V : Value → X → Prop) (c c' : Completion) (y : X) : Prop :=
  c = c' ∧ ∀ v, c = .returned v → V v y

variable {P} {x : X} {p : EStateM Stop σ α} {q : EStateM Stop τ β} {Q Q' : α → β → X → Prop}

namespace InStep

theorem imp (h : P.InStep x p q Q)
    (hQ : ∀ a b y, P.Alike y → P.Later x y → Q a b y → Q' a b y) : P.InStep x p q Q' := by
  rcases h with ⟨a, b, y, hp, hq, hy, hl, h⟩ | h
  · exact .inl ⟨a, b, y, hp, hq, hy, hl, hQ a b y hy hl h⟩
  · exact .inr h

/-- Both computations give a result in one step. -/
theorem step {a : α} {b : β} {y : X} (hp : p (P.left x) = .ok a (P.left y))
    (hq : q (P.right x) = .ok b (P.right y)) (hy : P.Alike y) (hl : P.Later x y) (hQ : Q a b y) :
    P.InStep x p q Q :=
  .inl ⟨a, b, y, hp, hq, hy, hl, hQ⟩

theorem pure {a : α} {b : β} (hx : P.Alike x) (hQ : Q a b x) :
    P.InStep x (pure a) (pure b) Q :=
  step rfl rfl hx (P.later_refl x) hQ

/-- Both computations stop at once. -/
theorem throw {e e' : Stop} (hx : P.Alike x) (he : e.SameAt P.Places e') :
    P.InStep x (throw e) (throw e') Q :=
  .inr (.inl ⟨e, e', x, rfl, rfl, hx, P.later_refl x, he⟩)

/-- Where the first computation has no frames left, the second has none either, or
may go on. -/
theorem exhausted (hx : P.Alike x) (h : ¬P.Lenient → q = MonadExcept.throw Stop.exhausted) :
    P.InStep x (MonadExcept.throw Stop.exhausted) q Q := by
  by_cases hlenient : P.Lenient
  · exact .inr (.inr ⟨hlenient, .exhausted, P.left x, rfl, .exhausted⟩)
  · rw [h hlenient]
    exact throw hx .exhausted

theorem bind {f : α → EStateM Stop σ γ} {g : β → EStateM Stop τ δ} {R : γ → δ → X → Prop}
    (h : P.InStep x p q Q)
    (hf : ∀ a b y, P.Alike y → P.Later x y → Q a b y → P.InStep y (f a) (g b) R) :
    P.InStep x (p >>= f) (q >>= g) R := by
  rcases h with ⟨a, b, y, hp, hq, hy, hl, hQ⟩ | ⟨e, e', y, hp, hq, hy, hl, he⟩ |
    ⟨hlen, e, s, hp, he⟩
  · unfold InStep
    rw [bind_ok hp, bind_ok hq]
    rcases hf a b y hy hl hQ with ⟨c, d, z, hc, hd, hz, hlz, hR⟩ | ⟨e, e', z, hc, hd, hz, hlz, he⟩
      | hover
    · exact .inl ⟨c, d, z, hc, hd, hz, P.later_trans hl hlz, hR⟩
    · exact .inr (.inl ⟨e, e', z, hc, hd, hz, P.later_trans hl hlz, he⟩)
    · exact .inr (.inr hover)
  · exact .inr (.inl ⟨e, e', y, bind_error hp, bind_error hq, hy, hl, he⟩)
  · exact .inr (.inr ⟨hlen, e, s, bind_error hp, he⟩)

/-- What both computations give alike, both go on with. -/
theorem next {q : EStateM Stop τ α} {f : α → EStateM Stop σ γ} {g : α → EStateM Stop τ δ}
    {R : γ → δ → X → Prop} (h : P.InStep x p q Same)
    (hf : ∀ a y, P.Alike y → P.InStep y (f a) (g a) R) : P.InStep x (p >>= f) (q >>= g) R := by
  refine h.bind fun a b y hy _ hsame => ?_
  obtain rfl : a = b := hsame
  exact hf a y hy

theorem map {f : α → γ} {g : β → δ} {R : γ → δ → X → Prop} (h : P.InStep x p q Q)
    (hf : ∀ a b y, P.Alike y → P.Later x y → Q a b y → R (f a) (g b) y) :
    P.InStep x (f <$> p) (g <$> q) R := by
  rw [map_eq_pure_bind, map_eq_pure_bind]
  exact h.bind fun a b y hy hl hQ => pure hy (hf a b y hy hl hQ)

theorem ite {c c' : Prop} [Decidable c] [Decidable c'] {p' : EStateM Stop σ α}
    {q' : EStateM Stop τ β} (hc : c ↔ c') (h : P.InStep x p q Q) (h' : P.InStep x p' q' Q) :
    P.InStep x (if c then p else p') (if c' then q else q') Q := by
  by_cases hcond : c
  · rw [if_pos hcond, if_pos (hc.mp hcond)]
    exact h
  · rw [if_neg hcond, if_neg (mt hc.mpr hcond)]
    exact h'

/-- Nesting that is too deep is a fault on both sides. -/
theorem caught {p' : EStateM Stop σ α} {q' : EStateM Stop τ β} {t t' : Token}
    (h : P.InStep x p q Q) (ht : P.Places t t') (hp' : Catches t p p') (hq' : Catches t' q q') :
    P.InStep x p' q' Q := by
  rcases h with ⟨a, b, y, hp, hq, h⟩ | ⟨e, e', y, hp, hq, hy, hl, he⟩ | ⟨hlen, e, s, hp, he⟩
  · exact .inl ⟨a, b, y, hp'.ok hp, hq'.ok hq, h⟩
  · exact .inr (.inl ⟨_, _, y, hp'.error hp, hq'.error hq, hy, hl, he.caught ht⟩)
  · obtain ⟨u, hcaught⟩ := he.caught t
    exact .inr (.inr ⟨hlen, _, s, hp'.error hp, hcaught ▸ .fault u⟩)

/-- What is known at a pair of states and stays true is known for every element of
a list when its turn comes. -/
theorem mapM {ι ι' : Type} {f : ι → EStateM Stop σ α} {g : ι' → EStateM Stop τ α}
    {I : X → Prop} {V : α → X → Prop} {is : List ι} {js : List ι'}
    (hI : ∀ {x y}, P.Alike x → P.Later x y → I x → I y)
    (hV : ∀ {a x y}, P.Alike x → P.Later x y → V a x → V a y)
    (h : List.Forall₂ (fun i j => ∀ y, P.Alike y → I y →
      P.InStep y (f i) (g j) fun a b z => a = b ∧ V a z) is js) :
    ∀ {x}, P.Alike x → I x → P.InStep x (is.mapM f) (js.mapM g) fun as bs y =>
      as = bs ∧ ∀ a ∈ as, V a y := by
  induction h with
  | nil => exact fun hx _ => pure hx ⟨rfl, by simp⟩
  | cons hij _ ih =>
    intro x hx hi
    rw [List.mapM_cons, List.mapM_cons]
    refine (hij x hx hi).bind fun a b y hy hl hab => ?_
    obtain ⟨rfl, ha⟩ := hab
    refine (ih hy (hI hx hl hi)).bind fun as bs z hz hlz has => ?_
    obtain ⟨rfl, has⟩ := has
    exact pure hz ⟨rfl, List.forall_mem_cons.mpr ⟨hV hy hlz ha, has⟩⟩

end InStep

/-! ### Two machines -/

end Pairing

section Inside

variable {α : Type} {p : Eval α} {m m' : Machine} {e : Nat}

theorem Eval.inEnvironment_ok {a : α} (h : p { m with current := e } = .ok a m') :
    Eval.inEnvironment e p m = .ok a { m' with current := m.current } := by
  unfold Eval.inEnvironment
  rw [h]

theorem Eval.inEnvironment_error {stop : Stop} (h : p { m with current := e } = .error stop m') :
    Eval.inEnvironment e p m = .error stop { m' with current := m.current } := by
  unfold Eval.inEnvironment
  rw [h]

end Inside

namespace Pairing

variable {X σ τ α β γ δ : Type}

section Machines

variable {P : Pairing X Machine Machine} {x : X} {p : Eval α} {q : Eval β} {Q : α → β → X → Prop}

namespace InStep

theorem fail {f : Fault} {t t' : Token} (hx : P.Alike x) (ht : P.Places t t') :
    P.InStep x (Eval.fail f t) (Eval.fail f t') Q :=
  throw hx (.fault ht)

theorem get {f : Machine → Eval α} {g : Machine → Eval β}
    (h : P.InStep x (f (P.left x)) (g (P.right x)) Q) :
    P.InStep x (MonadState.get >>= f) (MonadState.get >>= g) Q :=
  h

theorem ask {ι κ : Type} {r : Heap → ι} {r' : Heap → κ} {f : ι → Eval α} {g : κ → Eval β}
    (h : P.InStep x (f (r (P.left x).heap)) (g (r' (P.right x).heap)) Q) :
    P.InStep x (Eval.ask r >>= f) (Eval.ask r' >>= g) Q :=
  h

/-- What a walk by distance found, or the same defect. -/
theorem found {r : Except Forest.Lost α} {Q : α → α → X → Prop} (hx : P.Alike x)
    (hQ : ∀ a, r = .ok a → Q a a x) : P.InStep x (Eval.found r) (Eval.found r) Q := by
  cases r with
  | ok a => exact pure hx (hQ a rfl)
  | error why => exact throw hx (.defect _)

theorem found_bind {ι : Type} {r : Except Forest.Lost ι} {f : ι → Eval α} {g : ι → Eval β}
    (hx : P.Alike x) (h : ∀ a, r = .ok a → P.InStep x (f a) (g a) Q) :
    P.InStep x (Eval.found r >>= f) (Eval.found r >>= g) Q := by
  cases r with
  | ok a => exact h a rfl
  | error why => exact throw hx (.defect _)

theorem catchExhausted {t t' : Token} (ht : P.Places t t') (h : P.InStep x p q Q) :
    P.InStep x (Eval.catchExhausted t p) (Eval.catchExhausted t' q) Q :=
  h.caught ht (Eval.catches t p) (Eval.catches t' q)

/-- A computation in another environment, with the outer one put back on both
sides. -/
theorem inEnvironment {z : X} {env : Nat} {R : α → β → X → Prop}
    (hleft : P.left z = { P.left x with current := env })
    (hright : P.right z = { P.right x with current := env }) (h : P.InStep z p q Q)
    (hback : ∀ y, P.Alike y → P.Later z y → ∃ y',
      P.left y' = { P.left y with current := (P.left x).current } ∧
      P.right y' = { P.right y with current := (P.right x).current } ∧ P.Alike y' ∧
      P.Later x y' ∧ ∀ a b, Q a b y → R a b y') :
    P.InStep x (Eval.inEnvironment env p) (Eval.inEnvironment env q) R := by
  unfold InStep Eval.inEnvironment at *
  rw [hleft, hright] at h
  rcases h with ⟨a, b, y, hp, hq, hy, hl, hQ⟩ | ⟨e, e', y, hp, hq, hy, hl, he⟩ |
    ⟨hlen, e, s, hp, he⟩
  · obtain ⟨y', hleft', hright', hy', hl', hR⟩ := hback y hy hl
    rw [hp, hq]
    exact .inl ⟨a, b, y', by rw [hleft'], by rw [hright'], hy', hl', hR a b hQ⟩
  · obtain ⟨y', hleft', hright', hy', hl', -⟩ := hback y hy hl
    rw [hp, hq]
    exact .inr (.inl ⟨e, e', y', by rw [hleft'], by rw [hright'], hy', hl', he⟩)
  · rw [hp]
    exact .inr (.inr ⟨hlen, e, _, rfl, he⟩)

/-- Statements one after another, up to the first that does not end normally. -/
theorem runAll {run run' : Stmt → Eval Completion} {I : X → Prop} {V : Value → X → Prop}
    {body body' : List Stmt} (hI : ∀ {x y}, P.Alike x → P.Later x y → I x → I y)
    (h : List.Forall₂ (fun s s' => ∀ y, P.Alike y → I y → P.InStep y (run s) (run' s') (Ends V))
      body body') : ∀ {x}, P.Alike x → I x →
    P.InStep x (Lox.runAll run body) (Lox.runAll run' body') (Ends V) := by
  induction h with
  | nil => exact fun hx _ => pure hx ⟨rfl, fun _ h => nomatch h⟩
  | cons hs _ ih =>
    intro x hx hi
    refine (hs x hx hi).bind fun c c' y hy hl hc => ?_
    obtain ⟨rfl, hv⟩ := hc
    cases c with
    | normal => exact ih hy (hI hx hl hi)
    | broke => exact pure hy ⟨rfl, hv⟩
    | returned v => exact pure hy ⟨rfl, hv⟩

/-- Loops whose conditions and bodies are in step, turn by turn. -/
theorem iterate {condition condition' : Eval Bool} {body body' : Eval Completion} {I : X → Prop}
    {V : Value → X → Prop} (hI : ∀ {x y}, P.Alike x → P.Later x y → I x → I y)
    (hc : ∀ y, P.Alike y → I y → P.InStep y condition condition' Same)
    (hb : ∀ y, P.Alike y → I y → P.InStep y body body' (Ends V)) : ∀ turns {x}, P.Alike x → I x →
    P.InStep x (Lox.iterate condition body turns) (Lox.iterate condition' body' turns)
      (Ends V) := by
  intro turns
  induction turns with
  | zero => exact fun hx _ => throw hx .unfinished
  | succ turns ih =>
    intro x hx hi
    refine (hc x hx hi).bind fun c c' y hy hl hsame => ?_
    obtain rfl : c = c' := hsame
    have hi' := hI hx hl hi
    refine ite Iff.rfl ((hb y hy hi').bind fun d d' z hz hlz hd => ?_)
      (pure hy ⟨rfl, fun _ h => nomatch h⟩)
    obtain ⟨rfl, hv⟩ := hd
    cases d with
    | normal => exact ih hz (hI hy hlz hi')
    | broke => exact pure hz ⟨rfl, fun _ h => nomatch h⟩
    | returned v => exact pure hz ⟨rfl, hv⟩

end InStep

end Machines

end Pairing

end Lox
