/-
Resolution reports nothing if and only if a program is well scoped.

Resolution keeps the scopes around a place and the kinds of function and class in its
state, saves them and puts them back.  What is around a node says all about them that
matters: how many scopes there are does not, only whether there is one; and of the names in
it only that they are ready, and which ones may still be declared.

* `Verdict`, `Judges` — a computation reports nothing if and only if something is so;
* `Scopes.Fresh` — names that may be declared in a scope, one after another;
* `Place.Stands` — what is around a node, and the state that resolution is in there;
* `checks_declare` — the one name that is not ready, while its initializer is resolved;
* `judges_expression`, `judges_trees` — trees, by induction on the frames;
* `resolve_clean_iff` — whole programs.
-/
import Lox.Proofs.Sequencing
import Lox.Proofs.WellScoped

namespace Lox.Scope

open Resolver

/-! ### Computations that report nothing -/

/-- What a computation may come to from a report: it adds nothing if and only if `P`, and it
only stops if not. -/
inductive Verdict {α : Type} (r : Report) (m : Place) (P : Prop) :
    EStateM.Result Halt Context α → Prop
  | ok {a : α} {c : Context} (hplace : c.place = m) (hgrows : r.Extends c.report)
      (hquiet : c.report = r ↔ P) : Verdict r m P (.ok a c)
  | error {e : Halt} {c : Context} (hgrows : r.Extends c.report) (h : ¬P) :
      Verdict r m P (.error e c)

/-- From one place to another a computation reports nothing if and only if `P`. -/
structure Judges {α : Type} (p : Resolver α) (l m : Place) (P : Prop) : Prop where
  verdict : ∀ {c}, c.place = l → Verdict c.report m P (p c)

namespace Judges

variable {α β : Type} {p : Resolver α} {l m n : Place} {P Q : Prop}

theorem congr (h : Judges p l m P) (hP : P ↔ Q) : Judges p l m Q :=
  propext hP ▸ h

theorem pure (a : α) : Judges (pure a) l l True :=
  ⟨fun hc => .ok hc (.refl _) (iff_true_intro rfl)⟩

theorem throw (e : Halt) : Judges (throw e : Resolver α) l m False :=
  ⟨fun _ => .error (.refl _) id⟩

theorem bind {f : α → Resolver β} (h : Judges p l m P) (hf : ∀ a, Judges (f a) m n Q) :
    Judges (p >>= f) l n (P ∧ Q) := by
  refine ⟨fun {c} hc => ?_⟩
  have hp := h.verdict hc
  cases hrun : p c with
  | error e t =>
    rw [hrun] at hp
    rw [bind_error hrun]
    cases hp with
    | error hgrows hP => exact .error hgrows fun h => hP h.1
  | ok a t =>
    rw [hrun] at hp
    rw [bind_ok hrun]
    obtain ⟨hplace, hgrows, hquiet⟩ := hp
    have ht := (hf a).verdict hplace
    generalize f a t = r at ht
    cases ht with
    | error hgrows' hQ => exact .error (hgrows.trans hgrows') fun h => hQ h.2
    | @ok b c' hplace' hgrows' hquiet' =>
      refine .ok hplace' (hgrows.trans hgrows') ⟨fun h => ?_, fun ⟨hP, hQ⟩ => ?_⟩
      · -- The report grows in both steps, and at the end it is the first one.
        have ht : t.report = c.report := (hgrows.antisymm (h ▸ hgrows')).symm
        exact ⟨hquiet.mp ht, hquiet'.mp (h.trans ht.symm)⟩
      · exact (hquiet'.mpr hQ).trans (hquiet.mpr hP)

theorem map (f : α → β) (h : Judges p l m P) : Judges (f <$> p) l m P := by
  rw [map_eq_pure_bind]
  exact (h.bind fun a => pure (f a)).congr (iff_of_eq (and_true P))

/-- A step that reports nothing. -/
theorem after {f : α → Resolver β} (h : Judges p l m True) (hf : ∀ a, Judges (f a) m n Q) :
    Judges (p >>= f) l n Q :=
  (h.bind hf).congr (iff_of_eq (true_and Q))

/-- A call needs a frame; only with one there is anything after it. -/
theorem call_bind (frames : Nat) {f : Unit → Resolver α}
    (h : 0 < frames → Judges (f ()) l m P) :
    Judges (Resolver.call frames >>= f) l m (0 < frames ∧ P) := by
  cases frames with
  | zero => exact (throw .tooDeep).congr (by simp)
  | succ frames => exact (h (Nat.succ_pos frames)).congr (by simp)

/-- A change of all but the report. -/
theorem move {f : Context → Context} (hr : ∀ c, (f c).report = c.report)
    (hp : ∀ c, c.place = l → (f c).place = m) : Judges (modify f : Resolver Unit) l m True :=
  ⟨fun {c} hc => .ok (hp c hc) (by rw [hr]; exact .refl _) (iff_true_intro (hr c))⟩

theorem get_bind {k : Context → Resolver α} (h : ∀ c, c.place = l → Judges (k c) l m P) :
    Judges (get >>= k) l m P :=
  ⟨fun {c} hc => (h c hc).verdict hc⟩

theorem complain (t : Token) (why : Problem) : Judges (complain t why) l l False :=
  ⟨fun {c} hc => .ok hc (.add c.report (why.static t _)) (iff_false_intro (Report.add_ne _ _))⟩

/-- A complaint that may be made first. -/
theorem guarded {c : Prop} [Decidable c] (t : Token) (why : Problem) (h : Judges p l m P) :
    Judges (do
      if c then Resolver.complain t why
      p) l m (¬c ∧ P) := by
  by_cases hc : c
  · rw [if_pos hc]
    exact ((complain t why).bind fun _ => h).congr (by simp [hc])
  · rw [if_neg hc]
    exact h.congr (by simp [hc])

theorem mapM {ι : Type} {f : ι → Resolver α} {P : ι → Prop} {is : List ι}
    (h : ∀ i ∈ is, Judges (f i) l l (P i)) : Judges (is.mapM f) l l (∀ i ∈ is, P i) := by
  induction is with
  | nil => exact (pure []).congr (by simp)
  | cons i is ih =>
    rw [List.forall_mem_cons] at h
    rw [List.mapM_cons]
    exact (h.1.bind fun _ => (ih h.2).bind fun _ => pure _).congr (by simp)

theorem optionMapM {ι : Type} {f : ι → Resolver α} {P : ι → Prop} {o : Option ι}
    (h : ∀ i ∈ o, Judges (f i) l l (P i)) : Judges (o.mapM f) l l (∀ i ∈ o, P i) := by
  cases o with
  | none => exact (pure none).congr (by simp)
  | some i => exact ((h i rfl).map some).congr (by simp)

/-- On leaving, the context is changed, but not the report. -/
theorem leaving {leave : Context → Context} (h : Judges p l m P)
    (hr : ∀ c, (leave c).report = c.report) (hp : ∀ c, c.place = m → (leave c).place = n) :
    Judges (leaving p leave) l n P := by
  refine ⟨fun {c} hc => ?_⟩
  have hverdict := h.verdict hc
  unfold Resolver.leaving
  generalize p c = r at hverdict
  cases hverdict with
  | ok hplace hgrows hquiet => exact .ok (hp _ hplace) (by rwa [hr]) (by rwa [hr])
  | error hgrows hP => exact .error (by rwa [hr]) hP

section

variable {S T : Scopes} {fk : FunctionKind} {ck : ClassKind}

theorem withScope {scope : Names} (h : Judges p ⟨scope :: S, fk, ck⟩ ⟨T, fk, ck⟩ P)
    (ht : T.tail = S) : Judges (withScope scope p) ⟨S, fk, ck⟩ ⟨S, fk, ck⟩ P := by
  refine .after (m := ⟨scope :: S, fk, ck⟩) (.move (fun _ => rfl) fun c hc => ?_) fun _ =>
    h.leaving (fun _ => rfl) fun c hc => ?_
  · obtain ⟨rfl, rfl, rfl⟩ := Context.place_eq.mp hc
    rfl
  · obtain ⟨rfl, rfl, rfl⟩ := Context.place_eq.mp hc
    exact Context.place_eq.mpr ⟨ht, rfl, rfl⟩

theorem inScope (frames : Nat) {scope : Names}
    (h : 0 < frames → Judges p ⟨scope :: S, fk, ck⟩ ⟨T, fk, ck⟩ P) (ht : T.tail = S) :
    Judges (inScope frames scope p) ⟨S, fk, ck⟩ ⟨S, fk, ck⟩ (0 < frames ∧ P) :=
  call_bind frames fun hpos => (h hpos).withScope ht

theorem inFunction (frames : Nat) {kind : FunctionKind}
    (h : 0 < frames → Judges p ⟨S, kind, ck⟩ ⟨T, kind, ck⟩ P) :
    Judges (inFunction kind (Resolver.call frames) p) ⟨S, fk, ck⟩ ⟨T, fk, ck⟩
      (0 < frames ∧ P) := by
  refine .get_bind fun c hc => .after (m := ⟨S, kind, ck⟩) (.move (fun _ => rfl) fun d hd => ?_)
    fun _ => call_bind frames fun hpos => (h hpos).leaving (fun _ => rfl) fun d hd => ?_
  · obtain ⟨rfl, rfl, rfl⟩ := Context.place_eq.mp hd
    rfl
  · obtain ⟨-, rfl, -⟩ := Context.place_eq.mp hc
    obtain ⟨rfl, -, rfl⟩ := Context.place_eq.mp hd
    rfl

theorem inClass {U : Scopes} {ck' : ClassKind} {first : Resolver Unit}
    (hfirst : Judges first ⟨S, fk, .plain⟩ ⟨T, fk, .plain⟩ P)
    (h : Judges p ⟨T, fk, .plain⟩ ⟨U, fk, ck'⟩ Q) :
    Judges (inClass first p) ⟨S, fk, ck⟩ ⟨U, fk, ck⟩ (P ∧ Q) := by
  refine .get_bind fun c hc => .after (m := ⟨S, fk, .plain⟩) (.move (fun _ => rfl) fun d hd => ?_)
    fun _ => hfirst.bind fun _ => h.leaving (fun _ => rfl) fun d hd => ?_
  · obtain ⟨rfl, rfl, rfl⟩ := Context.place_eq.mp hd
    rfl
  · obtain ⟨-, -, rfl⟩ := Context.place_eq.mp hc
    obtain ⟨rfl, rfl, -⟩ := Context.place_eq.mp hd
    rfl

theorem inherit : Judges inherit ⟨S, fk, ck⟩ ⟨S, fk, .subclass⟩ True := by
  refine .move (fun _ => rfl) fun c hc => ?_
  obtain ⟨rfl, rfl, rfl⟩ := Context.place_eq.mp hc
  rfl

end

end Judges

/-! ### Names in a scope -/

namespace Scopes

/-- Names are declared and made ready one after another. -/
def addAll (S : Scopes) (names : List String) : Scopes :=
  names.foldl add S

/-- Names that may be declared one after another: among the globals any, in a scope those
that are different from each other and from the names that are there. -/
def Fresh : Scopes → List String → Prop
  | [], _ => True
  | scope :: _, names => names.Nodup ∧ ∀ name ∈ names, scope.binds name = false

theorem fresh_cons (scope : Names) (outer : Scopes) (names : List String) :
    Fresh (scope :: outer) names ↔
      names.Nodup ∧ ∀ name ∈ names, scope.binds name = false :=
  Iff.rfl

@[simp]
theorem fresh_nil (S : Scopes) : S.Fresh [] := by
  cases S with
  | nil => trivial
  | cons scope outer => simp [Fresh]

theorem addAll_nil (names : List String) : addAll [] names = [] := by
  induction names with
  | nil => rfl
  | cons name names ih => exact ih

/-- A scope then has these names too. -/
theorem addAll_cons (names : List String) : ∀ (scope : Names) (outer : Scopes),
    ∃ scope' : Names, addAll (scope :: outer) names = scope' :: outer ∧
      ∀ other, scope'.binds other = (decide (other ∈ names) || scope.binds other) := by
  induction names with
  | nil => exact fun scope outer => ⟨scope, rfl, by simp⟩
  | cons name names ih =>
    intro scope outer
    obtain ⟨scope', hadd, hbinds⟩ := ih ((scope.set name false).set name true) outer
    refine ⟨scope', hadd, fun other => ?_⟩
    rw [hbinds, Bindings.binds_set, Bindings.binds_set]
    by_cases h : name = other
    · simp [h]
    · simp [h, Ne.symm h]

theorem fresh_append (S : Scopes) (names more : List String) :
    S.Fresh (names ++ more) ↔ S.Fresh names ∧ (S.addAll names).Fresh more := by
  cases S with
  | nil =>
    rw [addAll_nil]
    exact ⟨fun _ => ⟨trivial, trivial⟩, fun _ => trivial⟩
  | cons scope outer =>
    obtain ⟨scope', hadd, hbinds⟩ := addAll_cons names scope outer
    rw [hadd, fresh_cons, fresh_cons, fresh_cons, List.nodup_append]
    simp only [List.mem_append, hbinds, Bool.or_eq_false_iff, decide_eq_false_iff_not]
    grind

theorem fresh_single (S : Scopes) (name : String) : S.Fresh [name] ↔ S.redeclares name = false := by
  cases S with
  | nil => exact ⟨fun _ => rfl, fun _ => trivial⟩
  | cons scope outer => simp [Fresh, redeclares]

/-- In a new scope names need only be different. -/
theorem fresh_empty (S : Scopes) (names : List String) :
    Fresh (Bindings.empty :: S) names ↔ names.Nodup := by
  have hnone : ∀ name, (Bindings.empty : Names).binds name = false := fun _ => rfl
  simp [Fresh, hnone]

theorem addAll_append (S : Scopes) (names more : List String) :
    S.addAll (names ++ more) = (S.addAll names).addAll more :=
  List.foldl_append

theorem enter_eq (S : Scopes) (params : List Token) :
    S.enter params = addAll (Bindings.empty :: S) (params.map (·.lexeme)) :=
  List.foldl_map.symm

theorem tail_addAll (names : List String) : ∀ S : Scopes, (S.addAll names).tail = S.tail := by
  induction names with
  | nil => exact fun _ => rfl
  | cons name names ih => exact fun S => (ih _).trans (tail_add S name)

theorem AllReady.addAll (names : List String) : ∀ {S : Scopes}, S.AllReady →
    (S.addAll names).AllReady := by
  induction names with
  | nil => exact fun h => h
  | cons name names ih => exact fun h => ih (h.add name)

end Scopes

/-! ### Places -/

/-- The kind of class around a place, by whether the innermost one has a superclass. -/
def ClassKind.of (inherits? : Option Bool) : ClassKind :=
  inherits?.elim .none fun inherits => if inherits then .subclass else .plain

/-- The state that resolution is in where something is around it, before a statement. -/
structure Place.Stands (around : List Layer) (l : Place) : Prop where
  scopes : l.scopes = [] ↔ around = []
  ready : l.scopes.AllReady
  functionKind : l.functionKind = .none ↔
    ¬(.function ∈ around ∨ ∃ inherits, .method inherits ∈ around)
  classKind : l.classKind = .of (around.findSome? Layer.inherits?)

/-- The place after some declarations. -/
def Place.declaring (l : Place) (names : List String) : Place :=
  { l with scopes := l.scopes.addAll names }

namespace Place.Stands

variable {around : List Layer} {l : Place}

theorem outermost : Place.outermost.Stands [] where
  scopes := ⟨fun _ => rfl, fun _ => rfl⟩
  ready := fun _ h => nomatch h
  functionKind := ⟨fun _ => by simp, fun _ => rfl⟩
  classKind := rfl

theorem declaring (h : l.Stands around) (names : List String) :
    (l.declaring names).Stands around where
  scopes := by
    rw [← h.scopes]
    unfold Place.declaring
    cases l.scopes with
    | nil => rw [Scopes.addAll_nil]
    | cons scope outer =>
      obtain ⟨scope', hadd, -⟩ := Scopes.addAll_cons names scope outer
      simp [hadd]
  ready := h.ready.addAll names
  functionKind := h.functionKind
  classKind := h.classKind

theorem block (h : l.Stands around) :
    Place.Stands (.block :: around) ⟨Bindings.empty :: l.scopes, l.functionKind, l.classKind⟩ where
  scopes := by simp
  ready := h.ready.enter []
  functionKind := by simpa using h.functionKind
  classKind := h.classKind

theorem function (h : l.Stands around) (params : List Token) :
    Place.Stands (.function :: around) ⟨l.scopes.enter params, .function, l.classKind⟩ where
  scopes := by
    rw [Scopes.enter_eq]
    obtain ⟨scope', hadd, -⟩ := Scopes.addAll_cons (params.map (·.lexeme)) Bindings.empty l.scopes
    simp [hadd]
  ready := h.ready.enter params
  functionKind := by simp
  classKind := h.classKind

/-- In a method it does not matter what is around the class. -/
theorem method {S : Scopes} (hS : S.AllReady) {kind : FunctionKind} (hkind : kind ≠ .none)
    (inherits : Bool) (params : List Token) :
    Place.Stands (.method inherits :: around) ⟨S.enter params, kind, .of (some inherits)⟩ where
  scopes := by
    rw [Scopes.enter_eq]
    obtain ⟨scope', hadd, -⟩ := Scopes.addAll_cons (params.map (·.lexeme)) Bindings.empty S
    simp [hadd]
  ready := hS.enter params
  functionKind := by simp [hkind]
  classKind := rfl

end Place.Stands

/-! ### Declarations and uses -/

namespace Judges

variable {α : Type} {l m : Place} {Q : Prop}

theorem declare (frames : Nat) (name : Token) :
    Judges (declare frames name) l { l with scopes := l.scopes.declare name.lexeme }
      (0 < frames ∧ l.scopes.redeclares name.lexeme = false) := by
  refine call_bind frames fun _ => .get_bind fun c hc => ?_
  obtain rfl := hc
  have hmark : Judges
      (modify fun d => { d with scopes := d.scopes.declare name.lexeme } : Resolver Unit) c.place
      { c.place with scopes := c.scopes.declare name.lexeme } True := by
    refine .move (fun _ => rfl) fun d hd => ?_
    obtain ⟨hscopes, hfunction, hclass⟩ := Context.place_eq.mp hd
    exact Context.place_eq.mpr ⟨congrArg (Scopes.declare · name.lexeme) hscopes, hfunction, hclass⟩
  exact (hmark.guarded name .redeclared).congr (by simp [Context.place])

theorem define (frames : Nat) (name : Token) :
    Judges (define frames name) l { l with scopes := l.scopes.define name.lexeme }
      (0 < frames) := by
  refine Judges.congr (call_bind (P := True) frames fun _ => ?_) (iff_of_eq (and_true _))
  refine .move (fun _ => rfl) fun c hc => ?_
  obtain ⟨hscopes, hfunction, hclass⟩ := Context.place_eq.mp hc
  exact Context.place_eq.mpr ⟨congrArg (Scopes.define · name.lexeme) hscopes, hfunction, hclass⟩

/-- A name that is ready at once. -/
theorem add (frames : Nat) (name : Token) :
    Judges (do
      Resolver.declare frames name
      Resolver.define frames name) l (l.declaring [name.lexeme])
      (0 < frames ∧ l.scopes.Fresh [name.lexeme]) := by
  refine ((declare frames name).bind fun _ => define frames name).congr ?_
  rw [Scopes.fresh_single]
  tauto

theorem add_bind (frames : Nat) {name : Token} {q : Resolver α}
    (h : Judges q (l.declaring [name.lexeme]) m Q) :
    Judges (do
      Resolver.declare frames name
      Resolver.define frames name
      q) l m ((0 < frames ∧ l.scopes.Fresh [name.lexeme]) ∧ Q) := by
  have hbind := (add frames name).bind fun _ => h
  rwa [bind_assoc] at hbind

theorem locate (kind : UseKind) (ref : Reference) : Judges (locate kind ref) l l True := by
  refine .get_bind fun c hc => ?_
  split
  · exact .after (.move (fun _ => rfl) fun _ hd => hd) fun _ => .pure _
  · exact .pure _

theorem readVariable (ref : Reference) :
    Judges (readVariable ref) l l (l.scopes.isPending ref.name = false) := by
  refine .get_bind fun c hc => ?_
  obtain rfl := hc
  exact (Judges.guarded _ _ (.locate _ _)).congr (by simp [Context.place])

end Judges

/-! ### Expressions -/

/-- The rules for a node, and no name is read whose initializer is unfinished. -/
@[simp]
def Site.FineIn (S : Scopes) (t : Site) : Prop :=
  t.Fine ∧ ∀ ref, t.node = .expr (.var ref) → S.isPending ref.name = false

/-- The kind of class around a place tells whether there is one. -/
theorem ClassKind.of_eq_none {around : List Layer} :
    ClassKind.of (around.findSome? Layer.inherits?) = .none ↔
      ¬∃ inherits, .method inherits ∈ around := by
  induction around with
  | nil => simp [ClassKind.of]
  | cons layer around ih =>
    cases layer with
    | block => simpa [List.findSome?_cons, Layer.inherits?] using ih
    | function => simpa [List.findSome?_cons, Layer.inherits?] using ih
    | method inherits =>
      cases inherits <;> simp [List.findSome?_cons, Layer.inherits?, ClassKind.of]

theorem ClassKind.of_eq_subclass {inherits? : Option Bool} :
    ClassKind.of inherits? = .subclass ↔ inherits? = some true := by
  rcases inherits? with _ | _ | _ <;> simp [ClassKind.of]

theorem judges_expression (n : Nat) {around : List Layer} {l : Place}
    (hclass : l.classKind = .of (around.findSome? Layer.inherits?)) : ∀ {e}, ProperExpr e →
      Judges (expression n e) l l (Site.Checks (Site.FineIn l.scopes) n ⟨around, .expr e⟩) := by
  -- With no frames left the node is too deep, which the checks of no frames refuse as well.
  induction n with
  | zero => exact fun _ => (Judges.throw _).congr (by simp)
  | succ n ih =>
    intro e he
    cases he with
    | literal =>
      exact (Judges.pure _).congr (by simp)
    | grouping he =>
      exact ((ih he).map _).congr (by simp)
    | unary he =>
      exact ((ih he).map _).congr (by simp)
    | binary hl hr =>
      exact ((ih hl).bind fun _ => (ih hr).bind fun _ => .pure _).congr (by simp)
    | logical hl hr =>
      exact ((ih hl).bind fun _ => (ih hr).bind fun _ => .pure _).congr (by simp)
    | @var ref =>
      exact ((Judges.readVariable ref).map _).congr (by simp)
    | assign he =>
      exact ((ih he).bind fun _ => (Judges.locate _ _).after fun _ => .pure _).congr (by simp)
    | call hf hes =>
      exact ((ih hf).bind fun _ => (Judges.mapM fun e he => ih (hes e he)).bind fun _ =>
        .pure _).congr (by simp)
    | get ho =>
      exact ((ih ho).bind fun _ => .pure _).congr (by simp)
    | set ho he =>
      exact ((ih he).bind fun _ => (ih ho).bind fun _ => .pure _).congr (by simp)
    | @this ref =>
      -- `this` asks for a class around it, which is what the kind of class records.
      have hthis : Site.Checks (Site.FineIn l.scopes) (n + 1) ⟨around, .expr (.thisRef ref)⟩ ↔
          l.classKind ≠ .none := by
        rw [hclass, Ne, ClassKind.of_eq_none, not_not]
        simp
      refine .congr (.get_bind fun c hc => ?_) hthis.symm
      obtain rfl := hc
      by_cases hnone : c.classKind = .none
      · rw [if_pos (by simpa using hnone)]
        exact ((Judges.complain _ _).bind fun _ => .pure _).congr
          (by simpa [Context.place] using hnone)
      · rw [if_neg (by simpa using hnone)]
        exact ((Judges.locate _ _).map _).congr (by simpa [Context.place] using hnone)
    | @super ref method =>
      -- `super` asks the same of the innermost class, and that it has a superclass.
      have hsuper : Site.Checks (Site.FineIn l.scopes) (n + 1)
          ⟨around, .expr (.superRef ref method)⟩ ↔ l.classKind = .subclass := by
        rw [hclass, ClassKind.of_eq_subclass]
        simp
      have hrest : Judges (do
          let ref ← locate .super_ ref
          pure (Expr.superRef ref method)) l l True :=
        .after (.locate _ _) fun _ => .pure _
      refine .congr (.get_bind fun c hc => ?_) hsuper.symm
      obtain rfl := hc
      change Judges _ _ _ (c.classKind = .subclass)
      cases c.classKind with
      | none => exact ((Judges.complain _ _).bind fun _ => hrest).congr (by simp)
      | plain => exact ((Judges.complain _ _).bind fun _ => hrest).congr (by simp)
      | subclass => exact hrest.congr (by simp)

/-! ### Initializers -/

namespace Scopes

variable {S : Scopes}

/-- The name whose initializer has begun is the only one that is not ready. -/
theorem isPending_declare (h : S.AllReady) (name other : String) :
    (S.declare name).isPending other = true ↔ S ≠ [] ∧ name = other := by
  cases S with
  | nil => simp [Scopes.declare, mark, isPending]
  | cons scope outer =>
    have hready : (scope.get? other == some false) = false := h.isPending other
    change ((scope.set name false).get? other == some false) = true ↔ _
    rw [Bindings.get?_set]
    by_cases heq : name = other
    · simp [heq]
    · simp [heq, hready]

end Scopes

section Initializers

variable {S : Scopes} {n : Nat} {t : Site}

theorem checks_ready (h : S.AllReady) : t.Checks (Site.FineIn S) n ↔ t.Checks Site.Fine n := by
  have hsame : Site.FineIn S = Site.Fine :=
    funext fun u => propext ⟨And.left, fun hu => ⟨hu, fun ref _ => h.isPending ref.name⟩⟩
  rw [hsame]

/-- Where a name is not ready, no variable of this name may be read. -/
theorem checks_declare (h : S.AllReady) (name : String) :
    t.Checks (Site.FineIn (S.declare name)) n ↔
      t.Checks Site.Fine n ∧ (S ≠ [] → ¬t.Reads name) := by
  have hreads : (t.Everywhere fun u => ∀ ref, u.node = .expr (.var ref) →
      (S.declare name).isPending ref.name = false) ↔ (S ≠ [] → ¬t.Reads name) := by
    constructor
    · rintro heverywhere hS ⟨around, ref, hholds, rfl⟩
      have hpending := (Scopes.isPending_declare h ref.name ref.name).mpr ⟨hS, rfl⟩
      rw [heverywhere _ hholds ref rfl] at hpending
      cases hpending
    · rintro hnot ⟨around, node⟩ hholds ref rfl
      refine Bool.eq_false_iff.mpr fun hpending => ?_
      obtain ⟨hS, rfl⟩ := (Scopes.isPending_declare h name ref.name).mp hpending
      exact hnot hS ⟨around, ref, hholds, rfl⟩
  unfold Site.Checks
  rw [and_assoc, ← hreads, ← Site.everywhere_and]
  rfl

end Initializers

/-! ### Statements -/

/-- Where something is around them, statements report nothing if and only if `C` and the
names they declare are new, and they declare these. -/
abbrev JudgesStatements (body : Stmt → Resolver Stmt) (around : List Layer) (C : Stmt → Prop) :
    Prop :=
  ∀ {s l}, ProperStmt s → Place.Stands around l →
    Judges (body s) l (l.declaring s.declared) (C s ∧ l.scopes.Fresh s.declared)

theorem judges_params {n : Nat} (hn : 0 < n) (params : List Token) : ∀ {l : Place},
    Judges (forIn params PUnit.unit fun p _ => do
      declare n p
      define n p
      pure (.yield PUnit.unit) : Resolver PUnit) l (l.declaring (params.map (·.lexeme)))
      (l.scopes.Fresh (params.map (·.lexeme))) := by
  induction params with
  | nil => exact fun {l} => (Judges.pure _).congr (by simp [l.scopes.fresh_nil])
  | cons p params ih =>
    intro l
    simp only [List.forIn_cons, bind_assoc, pure_bind]
    refine (Judges.add_bind n ih).congr ((and_congr_left' (and_iff_right hn)).trans ?_)
    exact (Scopes.fresh_append l.scopes [p.lexeme] _).symm

section Bodies

variable {around : List Layer} {layer : Layer} {inherits : Bool}

theorem judges_body {body : Stmt → Resolver Stmt} {C : Stmt → Prop}
    (hb : JudgesStatements body around C) {stmts : List Stmt}
    (hs : ∀ s ∈ stmts, ProperStmt s) : ∀ {l : Place}, l.Stands around →
      Judges (stmts.mapM body) l (l.declaring (declaredIn stmts))
        ((∀ s ∈ stmts, C s) ∧ l.scopes.Fresh (declaredIn stmts)) := by
  induction stmts with
  | nil =>
    intro l _
    exact (Judges.pure []).congr (by simp [declaredIn, l.scopes.fresh_nil])
  | cons s stmts ih =>
    intro l hl
    rw [List.forall_mem_cons] at hs
    -- What a statement declares is there for those behind it.
    have hplace : (l.declaring s.declared).declaring (declaredIn stmts) =
        l.declaring (declaredIn (s :: stmts)) := by
      unfold Place.declaring declaredIn
      rw [List.flatMap_cons, Scopes.addAll_append]
    rw [List.mapM_cons, ← hplace]
    refine ((hb hs.1 hl).bind fun _ => (ih hs.2 (hl.declaring s.declared)).bind fun _ =>
      .pure _).congr ?_
    unfold declaredIn
    rw [List.flatMap_cons, Scopes.fresh_append, List.forall_mem_cons]
    unfold Place.declaring
    tauto

/-- Parameters and body of a function are one scope. -/
theorem judges_functionWith (n : Nat) {body : List Stmt → Resolver (List Stmt)}
    {kind : FunctionKind} {f : Function} {l : Place} {C : Prop}
    (hbody : Judges (body f.body) ⟨l.scopes.enter f.params, kind, l.classKind⟩
      (Place.declaring ⟨l.scopes.enter f.params, kind, l.classKind⟩ (declaredIn f.body))
      (C ∧ Scopes.Fresh (l.scopes.enter f.params) (declaredIn f.body))) :
    Judges (functionWith n body kind f) l l (0 < n ∧ C ∧ f.Distinct) := by
  obtain ⟨name, params, stmts⟩ := f
  obtain ⟨S, fk, ck⟩ := l
  unfold Function.params Function.body at hbody
  rw [Scopes.enter_eq] at hbody
  have hinner := fun hn : 0 < n =>
    (judges_params hn params (l := ⟨Bindings.empty :: S, kind, ck⟩)).bind fun _ =>
      hbody.map (Function.mk name params)
  refine (Judges.inFunction n fun hn => (hinner hn).withScope ?_).congr ?_
  · exact (Scopes.tail_addAll _ _).trans (Scopes.tail_addAll _ _)
  · unfold Function.Distinct Function.body Function.params
    rw [← Scopes.fresh_empty S, Scopes.fresh_append]
    tauto

/-- What resolution of a function reports nothing about, wherever it stands right inside of
`layer`. -/
abbrev JudgesFunctions (function : FunctionKind → Function → Resolver Function) (layer : Layer)
    (around : List Layer) (C : Function → Prop) : Prop :=
  ∀ {kind f l}, ProperFunction f →
    Place.Stands (layer :: around) ⟨l.scopes.enter f.params, kind, l.classKind⟩ →
      Judges (function kind f) l l (C f ∧ f.Distinct)

section Methods

variable (n : Nat) {function : FunctionKind → Function → Resolver Function} {C : Function → Prop}
  {methods : List Function} (hm : ∀ m ∈ methods, ProperFunction m)

include hm

theorem judges_methodsWith (hf : JudgesFunctions function (.method inherits) around C)
    {S : Scopes} (hS : S.AllReady) {fk : FunctionKind} :
    Judges (methodsWith n function methods) ⟨S, fk, .of (some inherits)⟩
      ⟨S, fk, .of (some inherits)⟩ (0 < n ∧ ∀ m ∈ methods, C m ∧ m.Distinct) := by
  refine .inScope n (fun _ => .mapM fun m hmem => hf (hm m hmem) ?_) rfl
  exact Place.Stands.method (hS.of "this") (by split <;> exact fun h => nomatch h) inherits
    m.params

/-- The name of a class is declared outside of it, and its superclass is read there. -/
theorem judges_classWith {superclass : Option Reference}
    (hf : JudgesFunctions function (.method superclass.isSome) around C) (name : Token)
    {l : Place} (hl : l.Stands around) :
    Judges (classWith n function name superclass methods) l (l.declaring [name.lexeme])
      (0 < n ∧ ((∀ ref ∈ superclass, ref.name ≠ name.lexeme) ∧
        ∀ m ∈ methods, C m ∧ m.Distinct) ∧ l.scopes.Fresh [name.lexeme]) := by
  have hS : (l.scopes.addAll [name.lexeme]).AllReady := hl.ready.addAll [name.lexeme]
  obtain ⟨S, fk, ck⟩ := l
  cases superclass with
  | none =>
    refine (Judges.inClass (.add n name) ((judges_methodsWith n hm hf hS).map _)).congr ?_
    simp only [Option.mem_def, reduceCtorEq, false_implies, implies_true, true_and]
    tauto
  | some ref =>
    -- All names are ready by then, so the superclass is no name in its own initializer.
    have hready : (S.addAll [name.lexeme]).isPending ref.name = false := hS.isPending ref.name
    have hmethods : Judges (inScope n (Names.of "super") (methodsWith n function methods))
        ⟨S.addAll [name.lexeme], fk, .subclass⟩ ⟨S.addAll [name.lexeme], fk, .subclass⟩ _ :=
      .inScope n (fun _ => judges_methodsWith n hm hf (hS.of "super")) rfl
    have hread : Judges (readVariable ref) ⟨S.addAll [name.lexeme], fk, .subclass⟩
        ⟨S.addAll [name.lexeme], fk, .subclass⟩ True :=
      (Judges.readVariable ref).congr (iff_true_intro hready)
    refine (Judges.inClass (.add n name) (.guarded _ _ (Judges.inherit.after fun _ =>
      hread.after fun _ => hmethods.bind fun _ => .pure _))).congr ?_
    simp only [Option.mem_def, Option.some.injEq, forall_eq', and_true]
    tauto

end Methods

end Bodies

/-- What resolution with so many frames reports nothing about. -/
structure JudgesTrees (n : Nat) : Prop where
  statement : ∀ {around}, JudgesStatements (statement n) around fun s =>
    Site.Checks Site.Fine n ⟨around, .stmt s⟩
  statements : ∀ {around stmts l}, (∀ s ∈ stmts, ProperStmt s) → Place.Stands around l →
    Judges (statements n stmts) l (l.declaring (declaredIn stmts))
      ((0 < n ∧ ∀ s ∈ stmts, Site.Checks Site.Fine (n - 1) ⟨around, .stmt s⟩) ∧
        l.scopes.Fresh (declaredIn stmts))
  function : ∀ {layer around}, JudgesFunctions (function n) layer around fun f =>
    1 < n ∧ ∀ s ∈ f.body, Site.Checks Site.Fine (n - 2) ⟨layer :: around, .stmt s⟩
  classDecl : ∀ {around name superclass methods l}, (∀ m ∈ methods, ProperFunction m) →
    Place.Stands around l → Judges (classDecl n name superclass methods) l
      (l.declaring [name.lexeme])
      (1 < n ∧ ((∀ ref ∈ superclass, ref.name ≠ name.lexeme) ∧ ∀ m ∈ methods,
        (2 < n ∧ ∀ s ∈ m.body,
          Site.Checks Site.Fine (n - 3) ⟨.method superclass.isSome :: around, .stmt s⟩) ∧
        m.Distinct) ∧ l.scopes.Fresh [name.lexeme])

theorem judges_trees (n : Nat) : JudgesTrees n := by
  -- By induction on the frames, all calls together; what a node calls has one frame less.
  induction n with
  | zero =>
    exact
      { statement := fun _ _ => (Judges.throw _).congr (by simp)
        statements := fun _ _ => (Judges.throw _).congr (by simp)
        function := fun _ _ => (Judges.throw _).congr (by simp)
        classDecl := fun _ _ => (Judges.throw _).congr (by simp) }
  | succ n ih =>
    refine ⟨fun {around s l} hs hl => ?_, fun hs hl => ?_, fun hf hl => ?_, fun hm hl => ?_⟩
    · have hexpression : ∀ {e}, ProperExpr e →
          Judges (expression n e) l l (Site.Checks Site.Fine n ⟨around, .expr e⟩) :=
        fun he => (judges_expression n hl.classKind he).congr (checks_ready hl.ready)
      cases hs with
      | expression he =>
        exact ((hexpression he).map _).congr (by simp)
      | print he =>
        exact ((hexpression he).map _).congr (by simp)
      | breakLoop =>
        exact (Judges.pure _).congr (by simp)
      | @block body hb =>
        refine ((Judges.inScope n (fun _ => ih.statements hb hl.block)
          (Scopes.tail_addAll _ _)).map _).congr ?_
        simp only [Scopes.fresh_empty, Site.checks_succ, Site.calls, Site.between, Site.parts,
          Site.Fine, Stmt.declared, Scopes.fresh_nil, List.forall_mem_map, and_true]
        tauto
      | @ifElse e s other he hs ho =>
        cases other with
        | none =>
          refine ((hexpression he).bind fun _ => (ih.statement hs hl).bind fun _ =>
            .pure _).congr ?_
          simp [and_assoc]
        | some t =>
          have hplace : (l.declaring s.declared).declaring t.declared =
              l.declaring (Stmt.declared (.ifElse e s (some t))) := by
            unfold Place.declaring
            rw [Stmt.declared, Scopes.addAll_append]
          rw [← hplace]
          refine ((hexpression he).bind fun _ => (ih.statement hs hl).bind fun _ =>
            ((ih.statement (ho t rfl) (hl.declaring s.declared)).map some).bind fun _ =>
              .pure _).congr ?_
          simp only [Site.checks_succ, Site.calls, Site.between, Site.parts, Site.Fine,
            Stmt.declared, Scopes.fresh_append, List.forall_mem_cons, Option.toList_some,
            List.map_cons, List.map_nil, Nat.sub_zero, Nat.zero_le, true_and]
          unfold Place.declaring
          simp only [List.not_mem_nil, false_implies, implies_true]
          tauto
      | whileLoop he hs =>
        refine ((hexpression he).bind fun _ => (ih.statement hs hl).bind fun _ => .pure _).congr ?_
        simp [and_assoc]
      | @varDecl name init hi =>
        have hinit : ∀ e ∈ init, Judges (expression n e)
            { l with scopes := l.scopes.declare name.lexeme }
            { l with scopes := l.scopes.declare name.lexeme }
            (Site.Checks Site.Fine n ⟨around, .expr e⟩ ∧
              (around ≠ [] → ¬Site.Reads ⟨around, .expr e⟩ name.lexeme)) := by
          intro e he
          rw [Ne, ← hl.scopes, ← checks_declare hl.ready]
          refine judges_expression n ?_ (hi e he)
          exact hl.classKind
        refine ((Judges.declare n name).bind fun _ => (Judges.optionMapM hinit).bind fun _ =>
          (Judges.define n name).bind fun _ => .pure _).congr ?_
        rw [← Scopes.fresh_single]
        cases init with
        | none =>
          simp only [Site.checks_succ, Site.calls, Site.parts, Site.Fine, Stmt.declared]
          simp [Nat.succ_le_iff]
          exact fun hn _ => hn
        | some e =>
          simp only [Site.checks_succ, Site.calls, Site.between, Site.parts, Site.Fine,
            Stmt.declared, Option.mem_def, Option.some.injEq, forall_eq', Option.toList_some,
            List.map_cons, List.map_nil, List.forall_mem_singleton, Nat.sub_zero]
          tauto
      | @funDecl f hf =>
        refine (Judges.add_bind n ((ih.function hf
          ((hl.declaring [f.name.lexeme]).function f.params)).map _)).congr ?_
        simp only [Site.checks_succ, Site.calls, Site.between, Site.parts, Site.Fine,
          Stmt.declared, List.forall_mem_map]
        constructor
        · rintro ⟨⟨-, hfresh⟩, ⟨hn, hbody⟩, hd⟩
          exact ⟨⟨hn, hd, hbody⟩, hfresh⟩
        · rintro ⟨⟨hn, hd, hbody⟩, hfresh⟩
          exact ⟨⟨Nat.lt_of_succ_lt hn, hfresh⟩, ⟨hn, hbody⟩, hd⟩
      | @returnWith keyword value hv =>
        have hvalue : Judges (value.mapM (expression n)) l l
            (∀ e ∈ value, Site.Checks Site.Fine n ⟨around, .expr e⟩) :=
          .optionMapM fun e he => hexpression (hv e he)
        refine .get_bind fun c hc => ?_
        obtain rfl := hc
        refine (Judges.guarded _ _ (hvalue.bind fun _ => .pure _)).congr ?_
        have hinside : ¬(c.functionKind == .none) = true ↔
            .function ∈ around ∨ ∃ inherits, .method inherits ∈ around := by
          rw [beq_iff_eq, ← not_iff_not, not_not]
          exact hl.functionKind
        rw [hinside]
        cases value <;> simp
      | @classDecl name superclass methods hm =>
        refine (ih.classDecl hm hl).congr ?_
        simp only [Site.checks_succ, Site.calls_classDecl_le, Site.between, Site.parts, Site.Fine,
          Stmt.declared, List.forall_mem_flatMap, List.forall_mem_map, forall₂_and]
        tauto
    · exact (judges_body ih.statement hs hl).congr (by simp)
    · obtain @⟨name, params, stmts, hproper⟩ := hf
      refine (judges_functionWith n (f := .mk name params stmts)
        (ih.statements hproper hl)).congr ?_
      simp only [Nat.lt_add_left_iff_pos, Nat.reduceSubDiff]
      tauto
    · refine (judges_classWith n hm ih.function _ hl).congr ?_
      simp only [Nat.reduceSubDiff]
      have hone : 1 < n + 1 ↔ 0 < n := by omega
      have htwo : 2 < n + 1 ↔ 1 < n := by omega
      rw [hone]
      simp only [htwo]

/-! ### Programs -/

/-- Outside of everything, statements that are given up are reported. -/
theorem clean_topLevel (frames : Nat) {s : Stmt} (hs : ProperStmt s) {c : Context}
    (hc : c.place = .outermost) : ∃ a d, topLevel frames s c = .ok a d ∧
      c.report.Extends d.report ∧
      (d.report = c.report ↔ Site.Checks Site.Fine frames ⟨[], .stmt s⟩) ∧
      (d.report = c.report → d.place = .outermost) := by
  have hplace : Place.outermost.declaring s.declared = .outermost := by
    unfold Place.declaring Place.outermost
    rw [Scopes.addAll_nil]
  have hverdict := ((judges_trees frames).statement hs .outermost).verdict hc
  rw [hplace] at hverdict
  unfold topLevel
  cases hrun : statement frames s c with
  | ok a d =>
    rw [hrun] at hverdict
    obtain ⟨hplace, hgrows, hquiet⟩ := hverdict
    exact ⟨a, d, rfl, hgrows, hquiet.trans ⟨And.left, fun h => ⟨h, trivial⟩⟩, fun _ => hplace⟩
  | error e d =>
    rw [hrun] at hverdict
    -- A proper statement is given up only when the frames run out.
    obtain rfl := (tame_statement frames hs).stops hrun
    cases hverdict with
    | error hgrows hnot =>
      let given := d.report.add (Problem.tooDeep.diagnose (Node.firstToken (.stmt s)) d.listing)
      have hgiven : d.report.Extends given := .add _ (Problem.static _ _ _)
      -- The message for it makes the report longer than it was.
      have hne : given ≠ c.report := fun h =>
        Report.add_ne _ _ (hgiven.antisymm (h ▸ hgrows)).symm
      exact ⟨s, _, rfl, hgrows.trans hgiven, iff_of_false hne fun h => hnot ⟨h, trivial⟩,
        fun h => absurd h hne⟩

/-- A statement that is given up may leave a kind behind, but then the report is not what it
was. -/
theorem clean_program (frames : Nat) {program : List Stmt} : ∀ {c : Context},
    (∀ s ∈ program, ProperStmt s) → c.place = .outermost →
      ((EStateM.Result.final (program.mapM (topLevel frames) c)).report = c.report ↔
        ∀ s ∈ program, Site.Checks Site.Fine frames ⟨[], .stmt s⟩) := by
  induction program with
  | nil => exact fun _ _ => iff_of_true rfl fun _ h => nomatch h
  | cons s program ih =>
    intro c hproper hc
    rw [List.forall_mem_cons] at hproper ⊢
    obtain ⟨a, d, hrun, hgrows, hquiet, hplace⟩ := clean_topLevel frames hproper.1 hc
    have hrest : d.Around (EStateM.Result.final (program.mapM (topLevel frames) d)) :=
      leaves_program program
    rw [final_mapM_cons hrun, ← hquiet]
    constructor
    · intro h
      have hd : d.report = c.report := (hgrows.antisymm (h ▸ hrest.grows)).symm
      exact ⟨hd, (ih hproper.2 (hplace hd)).mp (h.trans hd.symm)⟩
    · rintro ⟨hd, hall⟩
      exact ((ih hproper.2 (hplace hd)).mpr hall).trans hd

/-- Resolution accepts the well scoped programs.  For statements without misplaced nodes it
reports nothing if and only if it takes no more calls inside of each other than there are
frames, and the program is well scoped. -/
theorem resolve_clean_iff (frames : Nat) {program : List Stmt}
    (hproper : ∀ s ∈ program, ProperStmt s) (listing : Listing) (report : Report) :
    ∃ r, resolve frames program listing report = .ok r ∧
      (r.report = report ↔
        (∀ s ∈ program, Site.Within frames ⟨[], .stmt s⟩) ∧ WellScoped program) := by
  obtain ⟨ss, c, hrun, hresolve⟩ := resolve_proper frames listing report hproper
  refine ⟨_, hresolve, ?_⟩
  have hclean := clean_program frames (c := { listing, report }) hproper rfl
  rw [hrun] at hclean
  refine hclean.trans ?_
  simp only [wellScoped_iff, Site.Checks, forall₂_and]

/-- In a method of a class with a superclass, a class whose method uses `super`. -/
def innerSuper (superclass : Option String) : List Stmt :=
  let word (name : String) : Token := { kind := .identifier, lexeme := name }
  let use : Stmt := .expression (.superRef { token := { kind := .superKeyword } } default)
  let inner : Stmt := .classDecl (word "Inner") (superclass.map fun name => { token := word name })
    [.mk default [] [use]]
  [.classDecl (word "Outer") (some { token := word "Base" }) [.mk default [] [inner]]]

/-- It does not help that the class around has a superclass. -/
theorem resolve_clean_iff_innerSuper :
    (∃ r, resolve 10 (innerSuper (some "Outer")) default {} = .ok r ∧ r.report = {} ∧
      WellScoped (innerSuper (some "Outer"))) ∧
    ∃ r, resolve 10 (innerSuper none) default {} = .ok r ∧ r.report.diagnostics.size = 1 ∧
      ¬WellScoped (innerSuper none) := by
  have hproper : ∀ superclass, ∀ s ∈ innerSuper superclass, ProperStmt s := by
    intro superclass
    have hmethod : ∀ {name s}, ProperStmt s → ∀ m ∈ [Function.mk name [] [s]], ProperFunction m :=
      fun hs => List.forall_mem_singleton.mpr (.mk (List.forall_mem_singleton.mpr hs))
    exact List.forall_mem_singleton.mpr
      (.classDecl (hmethod (.classDecl (hmethod (.expression .super)))))
  constructor
  · obtain ⟨r, hr, hiff⟩ := resolve_clean_iff 10 (hproper (some "Outer")) default {}
    have hreport : (resolve 10 (innerSuper (some "Outer")) default {}).toOption.map (·.report) =
        some {} := by
      rfl
    rw [hr] at hreport
    have hclean : r.report = {} := Option.some.inj hreport
    exact ⟨r, hr, hclean, (hiff.mp hclean).2⟩
  -- There are frames enough, so the complaint can only come from a rule that is broken.
  · obtain ⟨r, hr, hiff⟩ := resolve_clean_iff 10 (hproper none) default {}
    have hsize : (resolve 10 (innerSuper none) default {}).toOption.map
        (·.report.diagnostics.size) = some 1 := by
      decide +kernel
    rw [hr] at hsize
    have hone : r.report.diagnostics.size = 1 := Option.some.inj hsize
    have hwithin : ∀ s ∈ innerSuper none, Site.Within 10 ⟨[], .stmt s⟩ := by
      simp [innerSuper, Site.within_succ, Function.body]
    refine ⟨r, hr, hone, fun hscoped => ?_⟩
    rw [hiff.mpr ⟨hwithin, hscoped⟩] at hone
    cases hone

end Lox.Scope
