/-
Computations that do not see a change of their state.

Reading and resolving add to their reports, but seldom look at them.  From a state with
other messages before its own, or with another limit, they come to the same, and the
change is still there where they end.

* `Along` — a relation between the states before and after a run, by how it ended;
* `Oblivious` — a computation that does not see a change of its state, and moves the state
  only along such a relation;
* `Oblivious.bind`, `Oblivious.getBind`, `Oblivious.mapM` — such computations, put together;
* `Report.Unseen`, `Report.behind` — changes of a report that adding does not see, such as
  earlier messages.
-/
import Lox.Proofs.Quiet
import Mathlib.Order.Defs.Unbundled

namespace Lox

/-- The same outcome, with a change of the state. -/
def EStateM.Result.onState {ε σ α : Type} (g : σ → σ) :
    EStateM.Result ε σ α → EStateM.Result ε σ α
  | .ok a s => .ok a (g s)
  | .error e s => .error e (g s)

theorem EStateM.Result.final_onState {ε σ α : Type} (g : σ → σ) (r : EStateM.Result ε σ α) :
    EStateM.Result.final (EStateM.Result.onState g r) = g (EStateM.Result.final r) := by
  cases r with
  | ok a s => rfl
  | error e s => rfl

/-- Why a run stopped, if it did. -/
def EStateM.Result.halt? {ε σ α : Type} : EStateM.Result ε σ α → Option ε
  | .ok _ _ => none
  | .error e _ => some e

/-- A relation between the states a run begins and ends with, which may ask for less where
the run stopped.  Only a run that gave a result goes on. -/
class Along {ε σ : Type} (K : Option ε → σ → σ → Prop) : Prop where
  refl : ∀ e s, K e s s
  trans : ∀ {e s t u}, K none s t → K e t u → K e s u

instance {ε σ : Type} (K : σ → σ → Prop) [IsPreorder σ K] : Along fun _ : Option ε => K where
  refl _ s := Std.Refl.refl s
  trans h h' := IsTrans.trans _ _ _ h h'

/-- From a state changed by `g` a computation comes to the same, with the change in the
state where it ends; and it moves a state only along `K`. -/
structure Oblivious {ε σ α : Type} (g : σ → σ) (K : Option ε → σ → σ → Prop)
    (p : EStateM ε σ α) : Prop where
  commutes : ∀ s, p (g s) = EStateM.Result.onState g (p s)
  keeps : ∀ s, K (EStateM.Result.halt? (p s)) s (EStateM.Result.final (p s))

namespace Oblivious

variable {ε σ α β : Type} {g : σ → σ} {K K' : Option ε → σ → σ → Prop} {p : EStateM ε σ α}

theorem imp (h : Oblivious g K p) (hK : ∀ {e s t}, K e s t → K' e s t) : Oblivious g K' p :=
  ⟨h.commutes, fun s => hK (h.keeps s)⟩

section

variable [Along K]

theorem pure (a : α) : Oblivious g K (pure a : EStateM ε σ α) :=
  ⟨fun _ => rfl, fun s => Along.refl _ s⟩

theorem throw (e : ε) : Oblivious g K (throw e : EStateM ε σ α) :=
  ⟨fun _ => rfl, fun s => Along.refl _ s⟩

theorem bind {f : α → EStateM ε σ β} (h : Oblivious g K p) (hf : ∀ a, Oblivious g K (f a)) :
    Oblivious g K (p >>= f) := by
  refine ⟨fun s => ?_, fun s => ?_⟩
  · have hp := h.commutes s
    cases hrun : p s with
    | ok a t =>
      rw [hrun] at hp
      rw [bind_ok hrun, bind_ok hp]
      exact (hf a).commutes t
    | error e t =>
      rw [hrun] at hp
      rw [bind_error hrun, bind_error hp]
      rfl
  · have hp := h.keeps s
    cases hrun : p s with
    | ok a t =>
      rw [hrun] at hp
      rw [bind_ok hrun]
      exact Along.trans hp ((hf a).keeps t)
    | error e t =>
      rw [hrun] at hp
      rw [bind_error hrun]
      exact hp

theorem map (f : α → β) (h : Oblivious g K p) : Oblivious g K (f <$> p) := by
  rw [map_eq_pure_bind]
  exact h.bind fun a => pure (f a)

theorem mapM {ι : Type} {f : ι → EStateM ε σ α} (h : ∀ i, Oblivious g K (f i)) (is : List ι) :
    Oblivious g K (is.mapM f) := by
  induction is with
  | nil => exact pure []
  | cons i is ih =>
    rw [List.mapM_cons]
    exact (h i).bind fun a => ih.bind fun as => pure (a :: as)

theorem optionMapM {ι : Type} {f : ι → EStateM ε σ α} (h : ∀ i, Oblivious g K (f i))
    (o : Option ι) : Oblivious g K (o.mapM f) := by
  cases o with
  | none => exact pure none
  | some i => exact (h i).map some

end

theorem ite {c : Prop} [Decidable c] {q : EStateM ε σ α} (h : Oblivious g K p)
    (h' : Oblivious g K q) : Oblivious g K (if c then p else q) := by
  split
  · exact h
  · exact h'

/-- What is done with the state is decided by what the change leaves alone. -/
theorem getBind {k : σ → EStateM ε σ α} (hsame : ∀ s, k (g s) = k s)
    (h : ∀ s, Oblivious g K (k s)) : Oblivious g K (get >>= k) := by
  refine ⟨fun s => ?_, fun s => (h s).keeps s⟩
  change k (g s) (g s) = EStateM.Result.onState g (k s s)
  rw [hsame]
  exact (h s).commutes s

theorem modifyGet {f : σ → α × σ} (hf : ∀ s, f (g s) = ((f s).1, g (f s).2))
    (hK : ∀ s, K none s (f s).2) : Oblivious g K (modifyGet f : EStateM ε σ α) := by
  refine ⟨fun s => ?_, hK⟩
  change EStateM.Result.ok (f (g s)).1 (f (g s)).2 = _
  rw [hf]
  rfl

theorem modify {f : σ → σ} (hf : ∀ s, f (g s) = g (f s)) (hK : ∀ s, K none s (f s)) :
    Oblivious g K (modify f : EStateM ε σ PUnit) :=
  modifyGet (fun s => by rw [hf]) hK

end Oblivious

/-! ### Reports -/

namespace Report

/-- A change of reports that adding a message does not see. -/
def Unseen (f : Report → Report) : Prop :=
  ∀ r d, (f r).add d = f (r.add d)

/-- A report with earlier messages before its own. -/
def behind (earlier : Array Diagnostic) (r : Report) : Report :=
  { r with diagnostics := earlier ++ r.diagnostics }

theorem unseen_behind (earlier : Array Diagnostic) : Unseen (behind earlier) := by
  intro r d
  unfold behind add
  rw [Array.append_push]

/-- A report is what it has found, behind the messages of another. -/
theorem behind_append (r other : Report) (h : other.limit = r.limit) :
    behind r.diagnostics other = r.append other := by
  unfold behind append
  rw [h]

theorem Extends.errorCount_le {r r' : Report} (h : r.Extends r') :
    r.errorCount ≤ r'.errorCount := by
  obtain ⟨-, errors, hd, -⟩ := h
  unfold errorCount count
  rw [← Array.countP_toList, ← Array.countP_toList, hd, List.countP_append]
  exact Nat.le_add_right _ _

/-- A report is not full if one that goes on from it is not. -/
theorem Extends.isFull {r r' : Report} (h : r.Extends r') (hr : r'.isFull = false) :
    r.isFull = false := by
  have hcount := h.errorCount_le
  have hlimit := h.1
  unfold Report.isFull at hr ⊢
  rw [decide_eq_false_iff_not] at hr ⊢
  omega

theorem isFull_of_behind {earlier : Array Diagnostic} {r : Report}
    (h : (behind earlier r).isFull = false) : r.isFull = false := by
  have hcount : (behind earlier r).errorCount =
      earlier.countP (·.severity == .error) + r.errorCount :=
    Array.countP_append
  have hlimit : (behind earlier r).limit = r.limit := rfl
  unfold Report.isFull at h ⊢
  rw [decide_eq_false_iff_not] at h ⊢
  omega

end Report

end Lox
