/-
A value has a text if and only if it leads to no array that leads back to itself.

The text of an array holds the texts of its elements, and so on from array to element.
Arrays are changed and shared, so this may follow any graph.  There are only so many
arrays, so it ends if none of those on the way leads back to itself; what stands in the
fields of an instance, in a closure or in a class has no part in it.

* `Heap.Contains`, `Heap.Reaches`, `Heap.Acyclic` — the steps from array to element;
* `Heap.HasText` — a text that is found with enough frames;
* `hasText_array_iff` — the text of an array;
* `acyclic_of_hasText`, `exists_hasText_of_acyclic` — the two directions;
* `ComesTo` — a computation comes to another one;
* `Displays` — a run of statements comes to ask for the text of a value;
* `text_iff_acyclic` — when there is a text, and what a program does without one.
-/
import Lox.Proofs.Recording
import Mathlib.Data.Fintype.EquivFin
import Mathlib.Logic.Relation

namespace Lox

open Eval

namespace Heap

/-- An array is an element of another one, or of itself. -/
def Contains (h : Heap) (a b : Nat) : Prop :=
  .array b ∈ (h.elements a).toList

/-- A value leads to an array: it is the array, or an array from which elements lead
there. -/
def Reaches (h : Heap) (v : Value) (id : Nat) : Prop :=
  ∃ a, v = .array a ∧ Relation.ReflTransGen h.Contains a id

/-- No array that a value leads to leads back to itself. -/
def Acyclic (h : Heap) (v : Value) : Prop :=
  ∀ id, h.Reaches v id → ¬Relation.TransGen h.Contains id id

/-- A value has a text: one that is found within some number of frames. -/
def HasText (h : Heap) (v : Value) (text : String) : Prop :=
  ∃ frames, h.display? frames v = some text

variable {h : Heap}

/-! ### The text of an array -/

theorem mapM_eq_some_iff {α β : Type} {f : α → Option β} : ∀ {as : List α} {bs : List β},
    as.mapM f = some bs ↔ List.Forall₂ (fun a b => f a = some b) as bs := by
  intro as
  induction as with
  | nil =>
    intro bs
    rw [List.mapM_nil, List.forall₂_nil_left_iff]
    exact ⟨fun h => (Option.some.inj h).symm, fun h => h ▸ rfl⟩
  | cons a as ih =>
    intro bs
    simp only [List.mapM_cons, Option.bind_eq_bind, Option.pure_def, Option.bind_eq_some_iff,
      Option.some.injEq, List.forall₂_cons_left_iff, ih]
    constructor
    · rintro ⟨b, hb, bs, hbs, rfl⟩
      exact ⟨b, bs, hb, hbs, rfl⟩
    · rintro ⟨b, bs, hb, hbs, rfl⟩
      exact ⟨b, hb, bs, hbs, rfl⟩

/-- The text of an array within so many frames: those of its elements within one frame
less. -/
theorem display?_array_iff {n id : Nat} {text : String} :
    h.display? (n + 1) (.array id) = some text ↔ ∃ texts,
      List.Forall₂ (fun v t => h.display? n v = some t) (h.elements id).toList texts ∧
        text = "[" ++ ", ".intercalate texts ++ "]" := by
  simp only [Heap.display?, Option.bind_eq_bind, Option.pure_def, Option.bind_eq_some_iff,
    Option.some.injEq, mapM_eq_some_iff]
  exact exists_congr fun texts => and_congr_right fun _ => eq_comm

/-- A value has one text at most. -/
theorem HasText.unique {v : Value} {text text' : String} (ht : h.HasText v text)
    (ht' : h.HasText v text') : text = text' := by
  obtain ⟨n, hn⟩ := ht
  obtain ⟨n', hn'⟩ := ht'
  have hmore := display?_mono n' n hn
  rw [Nat.add_comm, display?_mono n n' hn'] at hmore
  exact (Option.some.inj hmore).symm

/-- Texts that are found are found within one number of frames. -/
theorem exists_frames {vs : List Value} {texts : List String}
    (ht : List.Forall₂ h.HasText vs texts) :
    ∃ n, List.Forall₂ (fun v t => h.display? n v = some t) vs texts := by
  induction ht with
  | nil => exact ⟨0, .nil⟩
  | cons hv _ ih =>
    obtain ⟨n, hn⟩ := hv
    obtain ⟨n', hn'⟩ := ih
    refine ⟨n + n', .cons (display?_mono n' n hn) (hn'.imp fun v t hvt => ?_)⟩
    rw [Nat.add_comm]
    exact display?_mono n n' hvt

/-- The text of an array is a bracket, the texts of its elements in their order with
commas between them, and a bracket. -/
theorem hasText_array_iff {id : Nat} {text : String} :
    h.HasText (.array id) text ↔ ∃ texts, List.Forall₂ h.HasText (h.elements id).toList texts ∧
      text = "[" ++ ", ".intercalate texts ++ "]" := by
  constructor
  · rintro ⟨n, hn⟩
    cases n with
    | zero => cases hn
    | succ n =>
      obtain ⟨texts, htexts, rfl⟩ := display?_array_iff.mp hn
      exact ⟨texts, htexts.imp fun v t hvt => ⟨n, hvt⟩, rfl⟩
  · rintro ⟨texts, htexts, rfl⟩
    obtain ⟨n, hn⟩ := exists_frames htexts
    exact ⟨n + 1, display?_array_iff.mpr ⟨texts, hn, rfl⟩⟩

/-! ### Without a cycle -/

/-- Any value but an array has a text at once. -/
theorem exists_hasText_of_ne_array {v : Value} (hv : ∀ id, v ≠ .array id) :
    ∃ text, h.HasText v text := by
  cases v with
  | array id => exact absurd rfl (hv id)
  | _ => exact ⟨_, 1, rfl⟩

/-- An array has a text if those among its elements have. -/
theorem exists_hasText_array {id : Nat}
    (he : ∀ b, h.Contains id b → ∃ text, h.HasText (.array b) text) :
    ∃ text, h.HasText (.array id) text := by
  have helements : ∀ vs : List Value, (∀ v ∈ vs, ∃ text, h.HasText v text) →
      ∃ texts, List.Forall₂ h.HasText vs texts := by
    intro vs
    induction vs with
    | nil => exact fun _ => ⟨[], .nil⟩
    | cons v vs ih =>
      intro hvs
      rw [List.forall_mem_cons] at hvs
      obtain ⟨text, hv⟩ := hvs.1
      obtain ⟨texts, htexts⟩ := ih hvs.2
      exact ⟨text :: texts, .cons hv htexts⟩
  obtain ⟨texts, htexts⟩ := helements (h.elements id).toList fun v hv => by
    by_cases harray : ∃ b, v = .array b
    · obtain ⟨b, rfl⟩ := harray
      exact he b hv
    · exact exists_hasText_of_ne_array fun b hb => harray ⟨b, hb⟩
  exact ⟨_, hasText_array_iff.mpr ⟨texts, htexts, rfl⟩⟩

/-- An array that was never made has no elements. -/
theorem not_contains {a b : Nat} (ha : h.arrays.size ≤ a) : ¬h.Contains a b := by
  unfold Contains
  rw [elements_of_size_le ha]
  simp

/-- The arrays that a value leads to, if none of them leads back to itself, can be taken
one after another, each after those among its elements. -/
theorem wellFounded_of_acyclic {v : Value} (hv : h.Acyclic v) :
    WellFounded fun b a : { id : Fin h.arrays.size // h.Reaches v id } =>
      h.Contains a.1 b.1 := by
  -- There are finitely many, and no way leads back.
  have hback : ∀ {a b : { id : Fin h.arrays.size // h.Reaches v id }},
      Relation.TransGen (fun b a => h.Contains a.1.1 b.1.1) b a →
        Relation.TransGen h.Contains a.1 b.1 := by
    intro a b hab
    induction hab with
    | single hstep => exact .single hstep
    | tail _ hstep ih => exact .head hstep ih
  have : Std.Irrefl (Relation.TransGen fun b a : { id : Fin h.arrays.size // h.Reaches v id } =>
      h.Contains a.1 b.1) := ⟨fun a ha => hv a.1 a.2 (hback ha)⟩
  have hwf : WellFounded (Relation.TransGen
      fun b a : { id : Fin h.arrays.size // h.Reaches v id } => h.Contains a.1 b.1) :=
    Finite.wellFounded_of_trans_of_irrefl _
  exact Subrelation.wf (fun hstep => .single hstep) hwf

theorem exists_hasText_of_acyclic {v : Value} (hv : h.Acyclic v) : ∃ text, h.HasText v text := by
  have harrays : ∀ id, h.Reaches v id → ∃ text, h.HasText (.array id) text := by
    intro id hid
    by_cases hsize : id < h.arrays.size
    · -- By induction on the arrays that have elements; the others have none.
      have hind : ∀ a : { id : Fin h.arrays.size // h.Reaches v id },
          ∃ text, h.HasText (.array a.1) text := by
        intro a
        induction a using (wellFounded_of_acyclic hv).induction with
        | _ a ih =>
          refine exists_hasText_array fun b hb => ?_
          have hreach : h.Reaches v b := by
            obtain ⟨r, hr, hpath⟩ := a.2
            exact ⟨r, hr, hpath.tail hb⟩
          by_cases hb' : b < h.arrays.size
          · exact ih ⟨⟨b, hb'⟩, hreach⟩ hb
          · exact exists_hasText_array fun c hc => absurd hc (not_contains (not_lt.mp hb'))
      exact hind ⟨⟨id, hsize⟩, hid⟩
    · exact exists_hasText_array fun c hc => absurd hc (not_contains (not_lt.mp hsize))
  by_cases harray : ∃ a, v = .array a
  · obtain ⟨a, rfl⟩ := harray
    exact harrays a ⟨a, rfl, .refl⟩
  · exact exists_hasText_of_ne_array fun a ha => harray ⟨a, ha⟩

/-! ### With a cycle -/

theorem exists_of_mem_forall₂ {R : Value → String → Prop} {vs : List Value}
    {texts : List String} (ht : List.Forall₂ R vs texts) {v : Value} (hv : v ∈ vs) :
    ∃ text, R v text := by
  induction ht with
  | nil => cases hv
  | cons hR _ ih =>
    rcases List.mem_cons.mp hv with rfl | hv
    · exact ⟨_, hR⟩
    · exact ih hv

/-- The arrays among the elements of an array have texts within fewer frames. -/
theorem display?_of_contains {n a b : Nat} {text : String}
    (ht : h.display? n (.array a) = some text) (hab : h.Contains a b) :
    ∃ k < n, ∃ text', h.display? k (.array b) = some text' := by
  cases n with
  | zero => cases ht
  | succ n =>
    obtain ⟨texts, htexts, -⟩ := display?_array_iff.mp ht
    obtain ⟨text', hb⟩ := exists_of_mem_forall₂ htexts hab
    exact ⟨n, Nat.lt_succ_self n, text', hb⟩

theorem display?_of_path {n a b : Nat} {text : String} (hab : Relation.TransGen h.Contains a b)
    (ht : h.display? n (.array a) = some text) :
    ∃ k < n, ∃ text', h.display? k (.array b) = some text' := by
  induction hab with
  | single hstep => exact display?_of_contains ht hstep
  | tail _ hstep ih =>
    obtain ⟨k, hk, text', hb⟩ := ih
    obtain ⟨k', hk', htext⟩ := display?_of_contains hb hstep
    exact ⟨k', hk'.trans hk, htext⟩

/-- An array that leads back to itself has no text, however many frames there are. -/
theorem display?_of_cycle {id : Nat} (hid : Relation.TransGen h.Contains id id) (n : Nat) :
    h.display? n (.array id) = none := by
  induction n using Nat.strongRecOn with
  | _ n ih =>
    by_contra htext
    obtain ⟨text, htext⟩ := Option.ne_none_iff_exists'.mp htext
    obtain ⟨k, hk, text', hk'⟩ := display?_of_path hid htext
    rw [ih k hk] at hk'
    cases hk'

theorem acyclic_of_hasText {v : Value} {text : String} (ht : h.HasText v text) :
    h.Acyclic v := by
  rintro id ⟨a, rfl, hpath⟩ hcycle
  obtain ⟨n, hn⟩ := ht
  -- The array with the cycle would have a text, too.
  have hend : ∃ k text', h.display? k (.array id) = some text' := by
    rcases Relation.reflTransGen_iff_eq_or_transGen.mp hpath with rfl | hpath
    · exact ⟨n, text, hn⟩
    · obtain ⟨k, -, text', hk⟩ := display?_of_path hpath hn
      exact ⟨k, text', hk⟩
  obtain ⟨k, text', hk⟩ := hend
  rw [display?_of_cycle hcycle k] at hk
  cases hk

end Heap

/-! ### Values without a text -/

/-- A computation from a state comes to `q` in the state `m'`: it is `q` itself, or it comes
to `q` in its first step, after a first step that gave a result, with nesting that is too
deep caught around it, or in another environment. -/
inductive ComesTo {β : Type} (q : Eval β) (m' : Machine) : {α : Type} → Eval α → Machine → Prop
  | here : ComesTo q m' q m'
  | first {α γ : Type} {p : Eval α} {f : α → Eval γ} {m : Machine} (h : ComesTo q m' p m) :
      ComesTo q m' (p >>= f) m
  | next {α γ : Type} {p : Eval α} {f : α → Eval γ} {a : α} {m m₁ : Machine}
      (hp : p m = .ok a m₁) (h : ComesTo q m' (f a) m₁) : ComesTo q m' (p >>= f) m
  | caught {α : Type} {p : Eval α} {t : Token} {m : Machine} (h : ComesTo q m' p m) :
      ComesTo q m' (catchExhausted t p) m
  | inside {α : Type} {p : Eval α} {env : Nat} {m : Machine}
      (h : ComesTo q m' p { m with current := env }) : ComesTo q m' (inEnvironment env p) m

/-- What runs out of frames takes everything around it along, and nothing is written on the
way out. -/
theorem ComesTo.overflows {α β : Type} {q : Eval β} {p : Eval α} {m m' m₁ : Machine} {e : Stop}
    (h : ComesTo q m' p m) (hq : q m' = .error e m₁) (he : e.Overflows) :
    ∃ e' m₂, p m = .error e' m₂ ∧ e'.Overflows ∧ m₂.output = m₁.output := by
  induction h with
  | here => exact ⟨e, m₁, hq, he, rfl⟩
  | first _ ih =>
    obtain ⟨e', m₂, hp, he', houtput⟩ := ih
    exact ⟨e', m₂, bind_error hp, he', houtput⟩
  | next hp _ ih =>
    obtain ⟨e', m₂, hf, he', houtput⟩ := ih
    exact ⟨e', m₂, (bind_ok hp).trans hf, he', houtput⟩
  | @caught _ _ t _ _ ih =>
    obtain ⟨e', m₂, hp, he', houtput⟩ := ih
    obtain ⟨t', hcaught⟩ := he'.caught t
    exact ⟨_, m₂, (catches t _).error hp, hcaught ▸ .fault t', houtput⟩
  | inside _ ih =>
    obtain ⟨e', m₂, hp, he', houtput⟩ := ih
    unfold inEnvironment
    rw [hp]
    exact ⟨e', _, rfl, he', houtput⟩

section Displays

variable {host : Host} {v : Value} {m m' : Machine}

/-- A print statement runs out of frames if its value has no text within them. -/
theorem print_exhausted {n : Nat} {e : Expr} (hv : eval host n e m = .ok v m')
    (ht : m'.heap.display? n v = none) :
    exec host (n + 1) (.print e) m = .error .exhausted m' := by
  have hask : ask (·.display? n v) m' = .ok none m' := congrArg (EStateM.Result.ok · m') ht
  exact (bind_ok hv).trans (bind_ok hask)

/-- So does the text of an expression that is recorded. -/
theorem record_exhausted {levels : Nat} {e : Expr} (hv : eval host levels e m = .ok v m')
    (ht : m'.heap.display? levels v = none) : runTopLevel host levels true (.expression e) m =
      .error (.fault .stackOverflow (Node.firstToken (.stmt (.expression e)))) m' := by
  have hask : ask (·.display? levels v) m' = .ok none m' :=
    congrArg (EStateM.Result.ok · m') ht
  exact (catches _ _).error (e := .exhausted) ((bind_ok hv).trans (bind_ok hask))

/-- A statement of the top level catches nesting that is too deep. -/
theorem runTopLevel_ne_exhausted {levels : Nat} {record : Bool} {s : Stmt} :
    runTopLevel host levels record s m ≠ .error .exhausted m' := by
  intro h
  unfold runTopLevel catchExhausted at h
  split at h
  · cases h
  · rename_i hcaught
    exact hcaught m' h

/-- Statements from the state `m` come to ask for the text of `v` in the state `m'`: to
print it, at any depth, or to record it as the value of an expression of the top level. -/
inductive Displays (host : Host) (levels : Nat) (record : Bool) (statements : List Stmt)
    (m : Machine) (v : Value) (m' : Machine) : Prop
  | print {done rest : List Stmt} {s : Stmt} {e : Expr} {n : Nat} {value : Option String}
      {m₁ m₂ : Machine} (hs : statements = done ++ s :: rest)
      (hdone : runStatements host levels record done none m = (.finished, value, m₁))
      (hcomes : ComesTo (exec host (n + 1) (.print e)) m₂ (runTopLevel host levels record s) m₁)
      (hv : eval host n e m₂ = .ok v m')
  | recorded {done rest : List Stmt} {e : Expr} {value : Option String} {m₁ : Machine}
      (hrecord : record = true) (hs : statements = done ++ .expression e :: rest)
      (hdone : runStatements host levels record done none m = (.finished, value, m₁))
      (hv : eval host levels e m₁ = .ok v m')

/-- After statements that end well, one that stops ends the run. -/
theorem runStatements_stops {levels : Nat} {record : Bool} {s : Stmt} {rest : List Stmt}
    {stop : Stop} {m₁ m₂ : Machine} (hs : runTopLevel host levels record s m₁ = .error stop m₂)
    (done : List Stmt) : ∀ {value value' : Option String} {m : Machine},
      runStatements host levels record done value m = (.finished, value', m₁) →
      runStatements host levels record (done ++ s :: rest) value m =
        (.ofStop stop, value', m₂) := by
  induction done with
  | nil =>
    rintro value value' m ⟨⟩
    rw [List.nil_append, runStatements, hs]
  | cons s' done ih =>
    intro value value' m h
    rw [runStatements] at h
    rw [List.cons_append, runStatements]
    cases hrun : runTopLevel host levels record s' m with
    | ok text m'' =>
      rw [hrun] at h
      exact ih h
    | error stop' m'' =>
      rw [hrun] at h
      -- A stop is never the ending of statements that end well.
      cases stop' with
      | _ => cases h

/-- If the value has no text, the run ends for lack of frames, and nothing of the value is
written. -/
theorem Displays.overflows {levels : Nat} {record : Bool} {statements : List Stmt}
    (h : Displays host levels record statements m v m') (ht : ¬∃ text, m'.heap.HasText v text) :
    ∃ t value m₃, runStatements host levels record statements none m =
      (.faulted .stackOverflow t, value, m₃) ∧ m₃.output = m'.output := by
  have hnone : ∀ n, m'.heap.display? n v = none := by
    intro n
    by_contra htext
    obtain ⟨text, htext⟩ := Option.ne_none_iff_exists'.mp htext
    exact ht ⟨text, n, htext⟩
  cases h with
  | @print done rest s e n value m₁ m₂ hs hdone hcomes hv =>
    obtain ⟨stop, m₃, hrun, hover, houtput⟩ :=
      hcomes.overflows (print_exhausted hv (hnone n)) .exhausted
    rw [hs]
    cases hover with
    | fault t => exact ⟨t, value, m₃, runStatements_stops hrun done hdone, houtput⟩
    | exhausted => exact absurd hrun runTopLevel_ne_exhausted
  | recorded hrecord hs hdone hv =>
    subst hrecord
    rw [hs]
    exact ⟨_, _, m', runStatements_stops (record_exhausted hv (hnone levels)) _ hdone, rfl⟩

end Displays

/-- A value has a text, for some depth of the stack, if and only if no array that it leads
to, from array to element, leads back to itself; what the fields of an instance, a closure
or a class hold does not matter.  The text of an array is a bracket, the texts of its
elements in their order with commas between them, and a bracket.  A value without a text
cannot be shown: statements that come to print it, at any depth, or to record it as the
value of an expression, end with a fault for lack of stack, and what they printed before is
all that they print. -/
theorem text_iff_acyclic (host : Host) (h : Heap) (v : Value) :
    ((∃ text, h.HasText v text) ↔ h.Acyclic v) ∧
    (∀ id text, h.HasText (.array id) text ↔ ∃ texts,
      List.Forall₂ h.HasText (h.elements id).toList texts ∧
        text = "[" ++ ", ".intercalate texts ++ "]") ∧
    (¬h.Acyclic v → ∀ (settings : Settings) (statements : List Stmt) (listing : Listing)
      (report : Report) (m m' : Machine), m'.heap = h →
      Displays host (settings.frames host / framesPerLevel) settings.replMode statements
        { m with output := "" } v m' →
      let result := (interpret host settings statements listing report m).1
      result.output = m'.output ∧ ∃ f t, result.ending = .faulted f t ∧ f.code = "E410" ∧
        result.report = report.add (f.diagnose t (listing.line? t.line))) := by
  have hiff : (∃ text, h.HasText v text) ↔ h.Acyclic v :=
    ⟨fun ⟨_, ht⟩ => Heap.acyclic_of_hasText ht, Heap.exists_hasText_of_acyclic⟩
  refine ⟨hiff, fun id text => Heap.hasText_array_iff, ?_⟩
  rintro hcycle settings statements listing report m m' rfl hdisplays
  obtain ⟨t, value, m₃, hrun, houtput⟩ := hdisplays.overflows (mt hiff.mp hcycle)
  rw [interpret_of_runStatements settings hrun]
  exact ⟨houtput, .stackOverflow, t, rfl, rfl, rfl⟩

/-- A machine whose only array is its own only element, and is called `a`. -/
def selfHolding : Machine where
  heap := { environments := #[{ values := ⟨[("a", .array 0)]⟩ }], arrays := #[#[.array 0]] }

/-- A block that prints an array which holds itself prints nothing. -/
theorem text_iff_acyclic_selfHolding :
    let a : Expr := .var { token := { kind := .identifier, lexeme := "a" } }
    let settings : Settings := { recursionLimit := 100 }
    let result := (interpret .small settings [.block [.print a]] .empty {} selfHolding).1
    result.output = "" ∧ ∃ f t, result.ending = .faulted f t ∧ f.code = "E410" := by
  intro a settings
  let inner : Machine :=
    { selfHolding with heap := (selfHolding.heap.newEnvironment (some 0)).2, current := 1 }
  have hcycle : ¬inner.heap.Acyclic (.array 0) := fun h =>
    h 0 ⟨0, rfl, .refl⟩ (.single (List.mem_cons_self ..))
  -- Seen from the block, the array is still the global.
  have hlookup : inner.heap.environments.lookup? Machine.globals "a" = some (.array 0) := by
    have hchain : inner.heap.environments.chain Machine.globals = [Machine.globals] := by
      rw [Forest.chain]
      rfl
    unfold Forest.lookup? Forest.holder?
    rw [hchain]
    rfl
  have hask : ask (·.environments.lookup? Machine.globals "a") inner =
      .ok (some (.array 0)) inner :=
    congrArg (EStateM.Result.ok · inner) hlookup
  have hv : eval .small 498 a inner = .ok (.array 0) inner := (bind_ok hask).trans rfl
  have hblock : ComesTo (exec .small 499 (.print a)) inner (exec .small 500 (.block [.print a]))
      selfHolding :=
    .next rfl (.next rfl (.inside (.first .here)))
  have hlevels : settings.frames .small / framesPerLevel = 500 := by decide
  have hdisplays : Displays .small (settings.frames .small / framesPerLevel) false
      [.block [.print a]] selfHolding (.array 0) inner := by
    rw [hlevels]
    exact .print (List.nil_append _).symm rfl (.caught (.first hblock)) hv
  obtain ⟨houtput, f, t, hending, hcode, -⟩ :=
    (text_iff_acyclic .small inner.heap (.array 0)).2.2 hcycle settings _ .empty {} selfHolding
      inner rfl hdisplays
  exact ⟨houtput, f, t, hending, hcode⟩

end Lox
