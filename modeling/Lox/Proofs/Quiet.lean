/-
Computations that add to a report, and runs that add nothing.

Reading and resolving both move a state that holds a report.  What they add to
the report stays there, so a run that ends with the report it began with was
silent at every step on the way.

* `Quiet` — a run gives a result and leaves the report as it was;
* `Quiet.bind`, `Quiet.map`, `Quiet.mapM` — quiet runs, put together;
* `Sound` — a computation keeps every message, and its quiet runs are described
  by a relation;
* `Sound.bind` — the quiet runs of two steps, taken apart.
-/
import Lox.Scope.Resolve
import Lox.Token.Scan
import Lox.Tree.Cursor

namespace Lox

/-! ### Reports that go on from others -/

/-- The codes of what scanning, reading and resolving report. -/
def checkCodes : List String :=
  ["E001", "E002", "E004", "E101", "E102", "E103", "E104", "E105", "E106", "E301", "E302", "E303",
    "E304", "E305", "E306", "E307"]

/-- An error that is found without running a program. -/
structure Diagnostic.Static (d : Diagnostic) : Prop where
  severity : d.severity = .error
  code : d.code ∈ checkCodes

theorem Token.Mistake.static (m : Token.Mistake) (span : Span) (line : Option String) :
    (m.diagnose span line).Static := by
  refine ⟨rfl, ?_⟩
  cases m <;> simp [Token.Mistake.diagnose, Token.Mistake.code, checkCodes]

theorem Tree.Complaint.static (c : Tree.Complaint) (t : Token) (listing : Listing) :
    (c.diagnose t listing).Static := by
  refine ⟨rfl, ?_⟩
  cases c with
  | expected text =>
    by_cases h : t.isEnd <;> simp [Tree.Complaint.diagnose, Tree.Complaint.code, h, checkCodes]
  | _ => simp [Tree.Complaint.diagnose, Tree.Complaint.code, checkCodes]

theorem Scope.Problem.static (p : Scope.Problem) (t : Token) (listing : Listing) :
    (p.diagnose t listing).Static := by
  refine ⟨rfl, ?_⟩
  cases p <;> simp [Scope.Problem.diagnose, Scope.Problem.code, checkCodes]

/-- One report goes on from another: the limit is the same, and what comes after
the messages of the first are errors of the checks. -/
def Report.Extends (r r' : Report) : Prop :=
  r.limit = r'.limit ∧ ∃ errors : List Diagnostic,
    r'.diagnostics.toList = r.diagnostics.toList ++ errors ∧ ∀ d ∈ errors, d.Static

namespace Report.Extends

theorem refl (r : Report) : r.Extends r :=
  ⟨rfl, [], (List.append_nil _).symm, fun _ h => nomatch h⟩

theorem trans {r r' r'' : Report} (h : r.Extends r') (h' : r'.Extends r'') :
    r.Extends r'' := by
  obtain ⟨hl, errors, hd, he⟩ := h
  obtain ⟨hl', errors', hd', he'⟩ := h'
  refine ⟨hl.trans hl', errors ++ errors', ?_, ?_⟩
  · rw [hd', hd, List.append_assoc]
  · intro d hmem
    rcases List.mem_append.mp hmem with hmem | hmem
    · exact he d hmem
    · exact he' d hmem

/-- A report that goes on without a message is the same. -/
theorem eq_of_length {r r' : Report} (h : r.Extends r')
    (hlen : r'.diagnostics.size ≤ r.diagnostics.size) : r = r' := by
  obtain ⟨limit, diagnostics⟩ := r
  obtain ⟨limit', diagnostics'⟩ := r'
  obtain ⟨hl, errors, hd, -⟩ := h
  have hsize := congrArg List.length hd
  simp only [List.length_append, Array.length_toList] at hsize hlen
  have hnil : errors = [] := List.eq_nil_of_length_eq_zero (by omega)
  rw [hnil, List.append_nil] at hd
  rw [show limit = limit' from hl, show diagnostics' = diagnostics from Array.toList_inj.mp hd]

theorem size_le {r r' : Report} (h : r.Extends r') :
    r.diagnostics.size ≤ r'.diagnostics.size := by
  obtain ⟨-, errors, hd, -⟩ := h
  have hsize := congrArg List.length hd
  simp only [List.length_append, Array.length_toList] at hsize
  omega

theorem antisymm {r r' : Report} (h : r.Extends r') (h' : r'.Extends r) : r = r' :=
  h.eq_of_length h'.size_le

theorem add (r : Report) {d : Diagnostic} (hd : d.Static) : r.Extends (r.add d) :=
  ⟨rfl, [d], by simp [Report.add], by simpa using hd⟩

/-- A report without errors that goes on from another is the same. -/
theorem eq_of_hasErrors {r r' : Report} (h : r.Extends r') (he : r'.hasErrors = false) :
    r = r' := by
  refine h.eq_of_length ?_
  obtain ⟨-, errors, hd, hall⟩ := h
  have hnone : ∀ d ∈ r'.diagnostics.toList, d.severity ≠ .error := by
    have hcount : r'.diagnostics.countP (·.severity == .error) = 0 := by
      simpa [Report.hasErrors, Report.errorCount, Report.count] using he
    rw [← Array.countP_toList, List.countP_eq_zero] at hcount
    intro d hmem
    simpa using hcount d hmem
  have hnil : errors = [] := by
    refine List.eq_nil_iff_forall_not_mem.mpr fun d hmem => ?_
    exact hnone d (by rw [hd]; exact List.mem_append_right _ hmem) (hall d hmem).severity
  have hsize := congrArg List.length hd
  rw [hnil, List.append_nil, Array.length_toList, Array.length_toList] at hsize
  omega

/-- What goes on from a report, and then has one more message, is another report. -/
theorem add_ne {r r' : Report} (h : r.Extends r') (d : Diagnostic) : r'.add d ≠ r := by
  intro heq
  have hsize := congrArg (fun r' : Report => r'.diagnostics.size) heq
  have hle := h.size_le
  simp only [Report.add, Array.size_push] at hsize
  omega

end Report.Extends

theorem Report.add_ne (r : Report) (d : Diagnostic) : r.add d ≠ r :=
  (Extends.refl r).add_ne d

/-! ### Steps of a computation -/

theorem bind_ok {ε σ α β : Type} {p : EStateM ε σ α} {f : α → EStateM ε σ β} {s s' : σ} {a : α}
    (h : p s = .ok a s') : (p >>= f) s = f a s' := by
  change EStateM.bind p f s = _
  rw [EStateM.bind, h]

theorem bind_error {ε σ α β : Type} {p : EStateM ε σ α} {f : α → EStateM ε σ β} {s s' : σ} {e : ε}
    (h : p s = .error e s') : (p >>= f) s = .error e s' := by
  change EStateM.bind p f s = _
  rw [EStateM.bind, h]

/-! ### Computations on a state with a report -/

/-- A kind of state that holds a report. -/
class Reporting (σ : Type) where
  report : σ → Report

instance : Reporting Tree.Cursor := ⟨Tree.Cursor.report⟩
instance : Reporting Scope.Context := ⟨Scope.Context.report⟩

/-- The state in which a computation ended. -/
def EStateM.Result.final {ε σ α : Type} : EStateM.Result ε σ α → σ
  | .ok _ s => s
  | .error _ s => s

open Reporting

variable {ε σ α β : Type} [Reporting σ]

/-! ### Quiet runs -/

/-- A run that gives a result and leaves the report as it was. -/
def Quiet (p : EStateM ε σ α) (s : σ) (a : α) (s' : σ) : Prop :=
  p s = .ok a s' ∧ report s' = report s

theorem Quiet.pure (a : α) (s : σ) : Quiet (pure a : EStateM ε σ α) s a s :=
  ⟨rfl, rfl⟩

theorem Quiet.get (s : σ) : Quiet (get : EStateM ε σ σ) s s s :=
  ⟨rfl, rfl⟩

theorem Quiet.bind {x : EStateM ε σ α} {f : α → EStateM ε σ β} {s t s' : σ} {a : α} {b : β}
    (hx : Quiet x s a t) (hf : Quiet (f a) t b s') : Quiet (x >>= f) s b s' := by
  refine ⟨?_, hf.2.trans hx.2⟩
  rw [bind_ok hx.1]
  exact hf.1

theorem Quiet.map {x : EStateM ε σ α} {s s' : σ} {a : α} (f : α → β)
    (hx : Quiet x s a s') : Quiet (f <$> x) s (f a) s' := by
  refine ⟨?_, hx.2⟩
  change EStateM.map f x s = _
  rw [EStateM.map, hx.1]

/-- A computation has at most one quiet run from a state. -/
theorem Quiet.unique {x : EStateM ε σ α} {s t t' : σ} {a b : α} (h : Quiet x s a t)
    (h' : Quiet x s b t') : a = b ∧ t = t' := by
  have he := h.1.symm.trans h'.1
  cases he
  exact ⟨rfl, rfl⟩

/-! ### What quiet runs do -/

/-- A computation that keeps every message of the report, whether it gives a
result or stops, and whose quiet runs are described by `R`. -/
structure Sound (p : EStateM ε σ α) (R : σ → α → σ → Prop) : Prop where
  grows : ∀ s, (report s).Extends (report (EStateM.Result.final (p s)))
  quiet : ∀ {s a s'}, Quiet p s a s' → R s a s'

namespace Sound

variable {R R' : σ → α → σ → Prop}

theorem imp {p : EStateM ε σ α} (h : Sound p R) (hR : ∀ {s a s'}, R s a s' → R' s a s') :
    Sound p R' :=
  ⟨h.grows, fun hq => hR (h.quiet hq)⟩

theorem pure (a : α) : Sound (pure a : EStateM ε σ α) fun s b s' => b = a ∧ s' = s := by
  refine ⟨fun s => .refl (report s), ?_⟩
  rintro s b s' ⟨h, -⟩
  cases h
  exact ⟨rfl, rfl⟩

theorem throw (e : ε) : Sound (throw e : EStateM ε σ α) fun _ _ _ => False := by
  refine ⟨fun s => .refl (report s), ?_⟩
  rintro s b s' ⟨h, -⟩
  cases h

theorem get : Sound (get : EStateM ε σ σ) fun s t s' => t = s ∧ s' = s := by
  refine ⟨fun s => .refl (report s), ?_⟩
  rintro s b s' ⟨h, -⟩
  cases h
  exact ⟨rfl, rfl⟩

/-- A change of the state that does not touch the report. -/
theorem modify {f : σ → σ} (hf : ∀ s, report (f s) = report s) :
    Sound (modify f : EStateM ε σ PUnit) fun s _ s' => s' = f s := by
  refine ⟨fun s => ?_, ?_⟩
  · change (report s).Extends (report (f s))
    rw [hf s]
    exact .refl _
  · rintro s b s' ⟨h, -⟩
    cases h
    rfl

theorem bind {x : EStateM ε σ α} {f : α → EStateM ε σ β} {Q : α → σ → β → σ → Prop}
    (hx : Sound x R) (hf : ∀ a, Sound (f a) (Q a)) :
    Sound (x >>= f) fun s b s' => ∃ a t, R s a t ∧ Q a t b s' := by
  refine ⟨fun s => ?_, ?_⟩
  · change (report s).Extends (report (EStateM.Result.final (EStateM.bind x f s)))
    have hs := hx.grows s
    unfold EStateM.bind
    cases h : x s with
    | ok a t =>
      rw [h] at hs
      exact hs.trans ((hf a).grows t)
    | error e t =>
      rw [h] at hs
      exact hs
  · rintro s b s' ⟨h, hr⟩
    change EStateM.bind x f s = _ at h
    unfold EStateM.bind at h
    have hs := hx.grows s
    cases hxs : x s with
    | ok a t =>
      rw [hxs] at h hs
      have ht := (hf a).grows t
      rw [show f a t = .ok b s' from h] at ht
      -- The report grows in both steps, and at the end it is the first one.
      have hrt : report t = report s := (hs.antisymm (by rw [← hr]; exact ht)).symm
      exact ⟨a, t, hx.quiet ⟨hxs, hrt⟩, (hf a).quiet ⟨h, hr.trans hrt.symm⟩⟩
    | error e t =>
      rw [hxs] at h
      cases h

theorem map {x : EStateM ε σ α} (f : α → β) (hx : Sound x R) :
    Sound (f <$> x) fun s b s' => ∃ a, R s a s' ∧ b = f a := by
  refine ⟨fun s => ?_, ?_⟩
  · change (report s).Extends (report (EStateM.Result.final (EStateM.map f x s)))
    have hs := hx.grows s
    unfold EStateM.map
    cases h : x s with
    | ok a t =>
      rw [h] at hs
      exact hs
    | error e t =>
      rw [h] at hs
      exact hs
  · rintro s b s' ⟨h, hr⟩
    change EStateM.map f x s = _ at h
    unfold EStateM.map at h
    cases hxs : x s with
    | ok a t =>
      rw [hxs] at h
      cases h
      exact ⟨a, hx.quiet ⟨hxs, hr⟩, rfl⟩
    | error e t =>
      rw [hxs] at h
      cases h

theorem ite {c : Prop} [Decidable c] {x y : EStateM ε σ α} (hx : Sound x R)
    (hy : Sound y R') :
    Sound (if c then x else y) fun s a s' => c ∧ R s a s' ∨ ¬c ∧ R' s a s' := by
  by_cases hc : c
  · rw [if_pos hc]
    exact hx.imp fun h => .inl ⟨hc, h⟩
  · rw [if_neg hc]
    exact hy.imp fun h => .inr ⟨hc, h⟩

end Sound

end Lox
