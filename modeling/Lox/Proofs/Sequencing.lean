/-
Resolving statements one after another.

Resolution looks at the scopes around a place and at the kinds of function and class, but
never at what it has found before.  A statement closes its scopes however it ends: with a
result, because it is too deep, or at a misfit.  The kinds it puts back too, unless it is too
deep: where the frames end at the call that opens the scope of a function, or declares the
name of a class, the kind stays.  So a program is resolved part by part, and a part sees no
more of what came before it than the kinds that were left behind.

* `Context.Around` — what a computation leaves as it was, however it ends;
* `Context.Leaves` — and what else, unless it was too deep;
* `Context.laid` — uses and messages that were there before;
* `tidy_expression`, `tidy_trees`, `tidy_topLevel` — resolution does not see the last and
  keeps the first two;
* `resolveIn` — a program, where kinds were left behind;
* `Resolved.append`, `resolve_append` — a program in two parts;
* `resolve_append_leaks` — two parts, the first of which leaves a kind behind.
-/
import Lox.Proofs.Oblivious
import Lox.Proofs.Resolution

namespace Lox

/-! ### Statements that are given up -/

namespace Report

/-- How many messages say that a statement was given up. -/
def givenUp (r : Report) : Nat :=
  r.diagnostics.countP (·.code == Scope.Problem.tooDeep.code)

theorem Extends.givenUp_le {r r' : Report} (h : r.Extends r') : r.givenUp ≤ r'.givenUp := by
  obtain ⟨-, errors, hd, -⟩ := h
  unfold givenUp
  rw [← Array.countP_toList, ← Array.countP_toList, hd, List.countP_append]
  exact Nat.le_add_right _ _

theorem givenUp_add_tooDeep (r : Report) (t : Token) (listing : Listing) :
    (r.add (Scope.Problem.tooDeep.diagnose t listing)).givenUp = r.givenUp + 1 :=
  Array.countP_push_of_pos rfl

end Report

namespace Scope

open Resolver

/-! ### What is left as it was -/

/-- The same scopes but for the names of the innermost, the same source, and a report that
goes on. -/
structure Context.Around (c c' : Context) : Prop where
  depth : c'.scopes.length = c.scopes.length
  outer : c'.scopes.tail = c.scopes.tail
  listing : c'.listing = c.listing
  grows : c.report.Extends c'.report

theorem Context.Around.trans {c c' c'' : Context} (h : c.Around c') (h' : c'.Around c'') :
    c.Around c'' :=
  ⟨h'.depth.trans h.depth, h'.outer.trans h.outer, h'.listing.trans h.listing,
    h.grows.trans h'.grows⟩

/-- Outside of all scopes there is none to be left open. -/
theorem Context.Around.nil {c c' : Context} (h : c.Around c') (hc : c.scopes = []) :
    c'.scopes = [] :=
  List.length_eq_zero_iff.mp (h.depth.trans (by rw [hc]; rfl))

/-- What a run leaves as it was, and what of the kinds if it was not too deep. -/
structure Context.Leaves {κ : Type} (kinds : Context → κ) (why : Option Halt) (c c' : Context) :
    Prop where
  around : c.Around c'
  same : why ≠ some .tooDeep → kinds c' = kinds c

/-- The kinds of function and class around a place. -/
def Context.kinds (c : Context) : FunctionKind × ClassKind :=
  (c.functionKind, c.classKind)

namespace Context.Leaves

variable {κ : Type} {kinds : Context → κ}

instance : Along (Context.Leaves kinds) where
  refl _ c := ⟨⟨rfl, rfl, rfl, .refl c.report⟩, fun _ => rfl⟩
  trans h h' := ⟨h.around.trans h'.around,
    fun hwhy => (h'.same hwhy).trans (h.same fun hnone => nomatch hnone)⟩

/-- A change that leaves alone all that is around. -/
theorem of_eq {why : Option Halt} {c c' : Context} (hscopes : c'.scopes = c.scopes)
    (hlisting : c'.listing = c.listing) (hgrows : c.report.Extends c'.report)
    (hkinds : kinds c' = kinds c) : Context.Leaves kinds why c c' :=
  ⟨⟨congrArg List.length hscopes, congrArg List.tail hscopes, hlisting, hgrows⟩, fun _ => hkinds⟩

end Context.Leaves

/-- A context with uses before its own, and with a change of the report. -/
def Context.laid (uses : Array Use) (f : Report → Report) (c : Context) : Context :=
  { c with uses := uses ++ c.uses, report := f c.report }

/-! ### Steps -/

section Steps

variable {α κ : Type} {kinds : Context → κ} {uses : Array Use} {f : Report → Report}
  (hf : Report.Unseen f)

/-- Resolution that does not see what was found before, and leaves as it was what is
around it, the kinds if it is not too deep. -/
abbrev Tidy {α κ : Type} (kinds : Context → κ) (uses : Array Use) (f : Report → Report)
    (p : Resolver α) : Prop :=
  Oblivious (Context.laid uses f) (Context.Leaves kinds) p

/-- What leaves both kinds as they were leaves anything that depends on them. -/
theorem Tidy.of_kinds {p : Resolver α} (h : Tidy Context.kinds uses f p)
    (hk : ∀ {c c' : Context}, c'.kinds = c.kinds → kinds c' = kinds c) : Tidy kinds uses f p :=
  h.imp fun hleaves => ⟨hleaves.around, fun hwhy => hk (hleaves.same hwhy)⟩

theorem tidy_call (n : Nat) : Tidy kinds uses f (call n) := by
  cases n with
  | zero => exact .throw _
  | succ n => exact .pure ()

include hf in
theorem tidy_complain (t : Token) (p : Problem) : Tidy Context.kinds uses f (complain t p) := by
  refine .modify (fun c => ?_) fun c => .of_eq rfl rfl (.add c.report (p.static t c.listing)) rfl
  unfold Context.laid
  rw [hf]

include hf in
/-- A complaint that may be made first. -/
theorem tidy_complainIf {c : Prop} [Decidable c] (t : Token) (p : Problem) {q : Resolver α}
    (hk : ∀ {c c' : Context}, c'.kinds = c.kinds → kinds c' = kinds c) (hq : Tidy kinds uses f q) :
    Tidy kinds uses f (do
      if c then complain t p
      q) :=
  .ite (.bind ((tidy_complain hf t p).of_kinds hk) fun _ => hq) hq

/-- Names are marked in the innermost scope only. -/
theorem Context.Leaves.mark (c : Context) (name : String) (ready : Bool) :
    Context.Leaves Context.kinds none c { c with scopes := c.scopes.mark name ready } := by
  refine ⟨⟨?_, Scopes.tail_mark c.scopes name ready, rfl, .refl c.report⟩, fun _ => rfl⟩
  cases c.scopes with
  | nil => rfl
  | cons scope outer => rfl

include hf in
theorem tidy_declare (n : Nat) (name : Token) : Tidy Context.kinds uses f (declare n name) :=
  .bind (tidy_call n) fun _ => .getBind (fun _ => rfl) fun _ => tidy_complainIf hf _ _ id
    (.modify (fun _ => rfl) fun c => .mark c _ _)

theorem tidy_define (n : Nat) (name : Token) : Tidy Context.kinds uses f (define n name) :=
  .bind (tidy_call n) fun _ => .modify (fun _ => rfl) fun c => .mark c _ _

theorem tidy_locate (kind : UseKind) (ref : Reference) :
    Tidy Context.kinds uses f (locate kind ref) := by
  refine .getBind (fun _ => rfl) fun c => ?_
  split
  · refine .bind (.modify (fun c => ?_) fun c => .of_eq rfl rfl (.refl c.report) rfl) fun _ =>
      .pure _
    unfold Context.laid
    rw [Array.append_push]
  · exact .pure _

include hf in
theorem tidy_readVariable (ref : Reference) : Tidy Context.kinds uses f (readVariable ref) :=
  .getBind (fun _ => rfl) fun _ => tidy_complainIf hf _ _ id (tidy_locate _ _)

/-- What is changed for a computation is put back after it, if the computation is reached. -/
theorem tidy_around {κ₁ κ₂ : Type} {kinds₁ : Context → κ₁} {kinds₂ : Context → κ₂}
    (enter : Context → Context) (leave : Context → Context → Context) {first : Resolver Unit}
    {p : Resolver α} (hfirst : Tidy kinds₁ uses f first) (hp : Tidy kinds₂ uses f p)
    (henter : ∀ c, enter (c.laid uses f) = (enter c).laid uses f)
    (hleave : ∀ c c', leave (c.laid uses f) (c'.laid uses f) = (leave c c').laid uses f)
    (hfail : ∀ {c e c'}, first (enter c) = .error e c' → e = .tooDeep ∧ c.Around c')
    (hback : ∀ {why c t c'}, Context.Leaves kinds₁ none (enter c) t →
      Context.Leaves kinds₂ why t c' → Context.Leaves kinds why c (leave c c')) :
    Tidy kinds uses f (do
      let c ← get
      modify enter
      first
      leaving p (leave c)) := by
  -- Past the first two steps, which always give a result, there are three ways to end.
  have hrun : ∀ c, (do
      let c ← get
      modify enter
      first
      leaving p (leave c) : Resolver α) c = (first >>= fun _ => leaving p (leave c)) (enter c) :=
    fun _ => rfl
  refine ⟨fun c => ?_, fun c => ?_⟩
  · have hcommutes := hfirst.commutes (enter c)
    rw [hrun, hrun, henter]
    cases hopen : first (enter c) with
    | error e t =>
      rw [hopen] at hcommutes
      rw [bind_error hopen, bind_error hcommutes]
      rfl
    | ok u t =>
      rw [hopen] at hcommutes
      rw [bind_ok hopen, bind_ok hcommutes]
      unfold leaving
      rw [hp.commutes]
      cases p t with
      | ok a c' => exact congrArg (EStateM.Result.ok a) (hleave c c')
      | error e c' => exact congrArg (EStateM.Result.error e) (hleave c c')
  · rw [hrun]
    cases hopen : first (enter c) with
    | error e t =>
      obtain ⟨rfl, haround⟩ := hfail hopen
      rw [bind_error hopen]
      exact ⟨haround, fun hwhy => absurd rfl hwhy⟩
    | ok u t =>
      have hbefore := hfirst.keeps (enter c)
      rw [hopen] at hbefore
      have hkeeps := hp.keeps t
      rw [bind_ok hopen]
      unfold leaving
      generalize p t = r at hkeeps
      cases r with
      | ok a c' => exact hback hbefore hkeeps
      | error e c' => exact hback hbefore hkeeps

theorem tidy_withScope (scope : Names) {p : Resolver α} (hp : Tidy Context.kinds uses f p) :
    Tidy Context.kinds uses f (withScope scope p) := by
  have hopen : Tidy Context.kinds uses f (pure () : Resolver Unit) := .pure ()
  refine tidy_around (fun c => { c with scopes := scope :: c.scopes })
    (fun _ c' => { c' with scopes := c'.scopes.tail }) hopen hp (fun _ => rfl)
    (fun _ _ => rfl) (fun h => nomatch h) fun h h' => ?_
  have hall := Along.trans h h'
  exact ⟨⟨congrArg List.length hall.around.outer, congrArg List.tail hall.around.outer,
    hall.around.listing, hall.around.grows⟩, hall.same⟩

theorem tidy_inScope (n : Nat) (scope : Names) {p : Resolver α}
    (hp : Tidy Context.kinds uses f p) : Tidy Context.kinds uses f (inScope n scope p) :=
  .bind (tidy_call n) fun _ => tidy_withScope scope hp

/-- The kind is put back, unless the frames end before the scope is opened. -/
theorem tidy_inFunction (n : Nat) (kind : FunctionKind) {p : Resolver α}
    (hp : Tidy Context.kinds uses f p) :
    Tidy Context.kinds uses f (inFunction kind (call n) p) := by
  have hopen : Tidy Context.kinds uses f (call n) := tidy_call n
  refine tidy_around (fun c => { c with functionKind := kind })
    (fun c c' => { c' with functionKind := c.functionKind }) hopen hp
    (fun _ => rfl) (fun _ _ => rfl) ?_ fun {_ c t c'} h h' => ?_
  · intro c e c' hfail
    cases n with
    | zero =>
      cases hfail
      exact ⟨rfl, rfl, rfl, rfl, .refl c.report⟩
    | succ n => cases hfail
  · have hall := Along.trans h h'
    refine ⟨⟨hall.around.depth, hall.around.outer, hall.around.listing, hall.around.grows⟩,
      fun hwhy => ?_⟩
    have hclass : c'.classKind = c.classKind := congrArg Prod.snd (hall.same hwhy)
    exact Prod.ext rfl hclass

/-- So is the kind of class, which may have changed once more inside. -/
theorem tidy_inClass {first : Resolver Unit} {p : Resolver α}
    (hfirst : Tidy Context.kinds uses f first) (htame : Tame first)
    (hp : Tidy Context.functionKind uses f p) :
    Tidy Context.kinds uses f (inClass first p) := by
  refine tidy_around (fun c => { c with classKind := .plain })
    (fun c c' => { c' with classKind := c.classKind }) hfirst hp (fun _ => rfl) (fun _ _ => rfl)
    (fun {c e c'} hfail => ?_) fun {_ c t c'} h h' => ?_
  · have hkeeps := hfirst.keeps { c with classKind := .plain }
    rw [hfail] at hkeeps
    obtain ⟨⟨hdepth, houter, hlisting, hgrows⟩, -⟩ := hkeeps
    exact ⟨htame.stops hfail, hdepth, houter, hlisting, hgrows⟩
  · have hall := h.around.trans h'.around
    refine ⟨⟨hall.depth, hall.outer, hall.listing, hall.grows⟩, fun hwhy => ?_⟩
    have hbefore : t.kinds = (c.functionKind, .plain) := h.same fun hnone => nomatch hnone
    exact Prod.ext ((h'.same hwhy).trans (congrArg Prod.fst hbefore)) rfl

end Steps

/-! ### Trees -/

section Trees

variable {uses : Array Use} {f : Report → Report} (hf : Report.Unseen f)

include hf in
theorem tidy_expression (n : Nat) : ∀ e, Tidy Context.kinds uses f (expression n e) := by
  induction n with
  | zero => exact fun _ => .throw _
  | succ n ih =>
    intro e
    cases e with
    | literal => exact .pure _
    | grouping inner => exact .map _ (ih inner)
    | unary op right => exact .map _ (ih right)
    | binary left op right =>
      exact .bind (ih left) fun _ => .bind (ih right) fun _ => .pure _
    | logical left op right =>
      exact .bind (ih left) fun _ => .bind (ih right) fun _ => .pure _
    | var ref => exact .map _ (tidy_readVariable hf ref)
    | assign target value =>
      exact .bind (ih value) fun _ => .bind (tidy_locate _ _) fun _ => .pure _
    | call callee paren arguments =>
      exact .bind (ih callee) fun _ => .bind (.mapM ih arguments) fun _ => .pure _
    | get object name => exact .bind (ih object) fun _ => .pure _
    | set object name value =>
      exact .bind (ih value) fun _ => .bind (ih object) fun _ => .pure _
    | thisRef ref =>
      exact .getBind (fun _ => rfl) fun _ => .ite
        (.bind (tidy_complain hf _ _) fun _ => .pure _) (.map _ (tidy_locate _ _))
    | superRef ref method =>
      -- The rest is the same whether there was a complaint or not.
      have hrest : Tidy Context.kinds uses f (do
          let ref ← locate .super_ ref
          pure (Expr.superRef ref method)) :=
        .bind (tidy_locate _ _) fun _ => .pure _
      refine .getBind (fun _ => rfl) fun c => ?_
      split
      · exact .bind (tidy_complain hf _ _) fun _ => hrest
      · exact .bind (tidy_complain hf _ _) fun _ => hrest
      · exact hrest
    | blank | bare | misplaced => exact .throw _

section Bodies

variable (n : Nat)

include hf in
theorem tidy_functionWith {body : List Stmt → Resolver (List Stmt)}
    (hb : ∀ stmts, Tidy Context.kinds uses f (body stmts)) (kind : FunctionKind) (g : Function) :
    Tidy Context.kinds uses f (functionWith n body kind g) := by
  obtain ⟨name, params, stmts⟩ := g
  have hparams : Tidy Context.kinds uses f (forIn params PUnit.unit fun p _ => do
      declare n p
      define n p
      pure (.yield PUnit.unit) : Resolver PUnit) := by
    induction params with
    | nil => exact .pure _
    | cons p params ih =>
      rw [List.forIn_cons]
      refine .bind (.bind (tidy_declare hf n p) fun _ => .bind (tidy_define n p) fun _ =>
        .pure _) fun r => ?_
      cases r with
      | done _ => exact .pure _
      | yield _ => exact ih
  exact tidy_inFunction n _ (tidy_withScope _ (.bind hparams fun _ => .map _ (hb stmts)))

variable {method : FunctionKind → Function → Resolver Function}
  (hm : ∀ kind g, Tidy Context.kinds uses f (method kind g))

include hm in
theorem tidy_methodsWith (methods : List Function) :
    Tidy Context.kinds uses f (methodsWith n method methods) :=
  tidy_inScope n _ (.mapM (fun m => hm _ m) methods)

include hf hm in
theorem tidy_classWith (name : Token) (superclass : Option Reference) (methods : List Function) :
    Tidy Context.kinds uses f (classWith n method name superclass methods) := by
  have hfunction : ∀ {c c' : Context}, c'.kinds = c.kinds → c'.functionKind = c.functionKind :=
    congrArg Prod.fst
  have hmethods : Tidy Context.kinds uses f (methodsWith n method methods) :=
    tidy_methodsWith n hm methods
  refine tidy_inClass (.bind (tidy_declare hf n name) fun _ => tidy_define n name)
    (.bind (.declare n name) fun _ => .define n name) ?_
  cases superclass with
  | none => exact Tidy.of_kinds (.map _ hmethods) hfunction
  | some ref =>
    -- That there is a superclass changes the kind of class, not the kind of function.
    refine tidy_complainIf hf _ _ hfunction (.bind (.modify (fun _ => rfl) fun c =>
      .of_eq rfl rfl (.refl c.report) rfl) fun _ => Tidy.of_kinds ?_ hfunction)
    exact .bind (tidy_readVariable hf ref) fun _ => .bind (tidy_inScope n _ hmethods) fun _ =>
      .pure _

end Bodies

include hf in
theorem tidy_trees (n : Nat) :
    (∀ s, Tidy Context.kinds uses f (statement n s)) ∧
    (∀ stmts, Tidy Context.kinds uses f (statements n stmts)) ∧
    (∀ kind g, Tidy Context.kinds uses f (function n kind g)) ∧
    ∀ name superclass ms, Tidy Context.kinds uses f (classDecl n name superclass ms) := by
  -- By induction on the frames, all calls together.
  induction n with
  | zero => exact ⟨fun _ => .throw _, fun _ => .throw _, fun _ _ => .throw _,
      fun _ _ _ => .throw _⟩
  | succ n ih =>
    obtain ⟨hs, hb, hg, hc⟩ := ih
    have he : ∀ e, Tidy Context.kinds uses f (expression n e) := tidy_expression hf n
    refine ⟨fun s => ?_, .mapM hs, tidy_functionWith hf n hb, tidy_classWith hf n hg⟩
    cases s with
    | expression e => exact .map _ (he e)
    | print e => exact .map _ (he e)
    | varDecl name init =>
      exact .bind (tidy_declare hf n name) fun _ => .bind (.optionMapM he init) fun _ =>
        .bind (tidy_define n name) fun _ => .pure _
    | block body => exact .map _ (tidy_inScope n _ (hb body))
    | ifElse condition thenBranch elseBranch =>
      exact .bind (he condition) fun _ => .bind (hs thenBranch) fun _ =>
        .bind (.optionMapM hs elseBranch) fun _ => .pure _
    | whileLoop condition body =>
      exact .bind (he condition) fun _ => .bind (hs body) fun _ => .pure _
    | breakLoop keyword => exact .pure _
    | funDecl g =>
      exact .bind (tidy_declare hf n g.name) fun _ => .bind (tidy_define n g.name) fun _ =>
        .map _ (hg _ g)
    | returnWith keyword value =>
      exact .getBind (fun _ => rfl) fun _ => tidy_complainIf hf _ _ id
        (.bind (.optionMapM he value) fun _ => .pure _)
    | classDecl name superclass methods => exact hc name superclass methods
    | misplaced => exact .throw _

include hf in
theorem tidy_statement (n : Nat) (s : Stmt) : Tidy Context.kinds uses f (statement n s) :=
  (tidy_trees hf n).1 s

include hf in
/-- A statement of the top level gives a result also where it is given up, but then the kinds
may be other ones. -/
theorem tidy_topLevel (frames : Nat) (s : Stmt) :
    Tidy (fun _ => ()) uses f (topLevel frames s) := by
  have hs : Tidy Context.kinds uses f (statement frames s) := tidy_statement hf frames s
  have hgiven : Tidy Context.kinds uses f (do
      complain (Node.firstToken (.stmt s)) .tooDeep
      pure s) :=
    .bind (tidy_complain hf _ _) fun _ => .pure s
  refine ⟨fun c => ?_, fun c => ⟨?_, fun _ => rfl⟩⟩
  · unfold topLevel
    rw [hs.commutes]
    cases statement frames s c with
    | ok a c' => rfl
    | error e c' =>
      -- Only running out of frames is caught and reported here.
      cases e with
      | tooDeep => exact hgiven.commutes c'
      | noStatement kind => rfl
      | noExpression kind => rfl
  · have hkeeps := (hs.keeps c).around
    unfold topLevel
    generalize statement frames s c = r at hkeeps ⊢
    cases r with
    | ok a c' => exact hkeeps
    | error e c' =>
      cases e with
      | tooDeep => exact hkeeps.trans (hgiven.keeps c').around
      | noStatement kind => exact hkeeps
      | noExpression kind => exact hkeeps

end Trees

/-! ### Programs -/

/-- Resolution of a program where kinds of function and class are around it that were left
behind. -/
def resolveIn (functionKind : FunctionKind) (classKind : ClassKind) (frames : Nat)
    (program : List Stmt) (listing : Listing) (report : Report) : Except Misfit Resolved :=
  match program.mapM (topLevel frames) { functionKind, classKind, listing, report } with
  | .ok statements c => .ok ⟨statements, c.uses, c.report, c.scopes.length⟩
  | .error (.noStatement kind) _ => .error (.statement kind)
  | .error (.noExpression kind) _ => .error (.expression kind)
  | .error .tooDeep c => .ok ⟨program, c.uses, c.report, c.scopes.length⟩

theorem resolveIn_none : resolveIn .none .none = resolve :=
  rfl

/-- Two programs that were resolved, one after the other. -/
def Resolved.append (a b : Resolved) : Resolved where
  statements := a.statements ++ b.statements
  uses := a.uses ++ b.uses
  report := a.report.append b.report
  openScopes := b.openScopes

section Programs

variable {frames : Nat} {c : Context}

theorem leaves_topLevel (s : Stmt) :
    c.Around (EStateM.Result.final (topLevel frames s c)) :=
  have htidy : Tidy (fun _ => ()) #[] (fun r => r) (topLevel frames s) :=
    tidy_topLevel (fun _ _ => rfl) frames s
  (htidy.keeps c).around

theorem leaves_program (program : List Stmt) :
    c.Around (EStateM.Result.final (program.mapM (topLevel frames) c)) :=
  have htidy : Tidy (fun _ => ()) #[] (fun r => r) (program.mapM (topLevel frames)) :=
    .mapM (tidy_topLevel (fun _ _ => rfl) frames) program
  (htidy.keeps c).around

/-- A statement that is not given up leaves the kinds as they were. -/
theorem kinds_topLevel (s : Stmt)
    (h : (EStateM.Result.final (topLevel frames s c)).report.givenUp = c.report.givenUp) :
    (EStateM.Result.final (topLevel frames s c)).kinds = c.kinds := by
  have htidy : Tidy Context.kinds #[] (fun r => r) (statement frames s) :=
    tidy_statement (fun _ _ => rfl) frames s
  have hkeeps := htidy.keeps c
  unfold topLevel at h ⊢
  cases hrun : statement frames s c with
  | ok a c' =>
    rw [hrun] at hkeeps
    exact hkeeps.same fun hnone => nomatch hnone
  | error e c' =>
    rw [hrun] at hkeeps h
    cases e with
    | tooDeep =>
      -- Giving up is counted, so the count would have grown.
      have hle := hkeeps.around.grows.givenUp_le
      have hadd : (c'.report.add (Problem.tooDeep.diagnose (Node.firstToken (.stmt s))
          c'.listing)).givenUp = c.report.givenUp := h
      rw [Report.givenUp_add_tooDeep] at hadd
      change c.report.givenUp ≤ c'.report.givenUp at hle
      omega
    | noStatement kind => exact hkeeps.same fun hwhy => nomatch hwhy
    | noExpression kind => exact hkeeps.same fun hwhy => nomatch hwhy

/-- The rest of a program ends where the program ends. -/
theorem final_mapM_cons {f : Stmt → Resolver Stmt} {s a : Stmt} {d : Context}
    (hrun : f s c = .ok a d) (program : List Stmt) :
    EStateM.Result.final ((s :: program).mapM f c) =
      EStateM.Result.final (program.mapM f d) := by
  rw [List.mapM_cons, bind_ok hrun]
  cases hrest : program.mapM f d with
  | ok as t =>
    rw [bind_ok hrest]
    rfl
  | error e t => rw [bind_error hrest]

theorem kinds_program (program : List Stmt) : ∀ {c : Context},
    (EStateM.Result.final (program.mapM (topLevel frames) c)).report.givenUp = c.report.givenUp →
      (EStateM.Result.final (program.mapM (topLevel frames) c)).kinds = c.kinds := by
  induction program with
  | nil => exact fun _ => rfl
  | cons s program ih =>
    intro c h
    have hfirst : c.Around (EStateM.Result.final (topLevel frames s c)) := leaves_topLevel s
    have hsame : (EStateM.Result.final (topLevel frames s c)).report.givenUp = c.report.givenUp →
        (EStateM.Result.final (topLevel frames s c)).kinds = c.kinds := kinds_topLevel s
    cases hrun : topLevel frames s c with
    | error e d =>
      rw [hrun] at hsame
      rw [List.mapM_cons, bind_error hrun] at h ⊢
      exact hsame h
    | ok a d =>
      rw [hrun] at hfirst hsame
      rw [final_mapM_cons hrun] at h ⊢
      have hrest : d.Around (EStateM.Result.final (program.mapM (topLevel frames) d)) :=
        leaves_program program
      have hle : c.report.givenUp ≤ d.report.givenUp := hfirst.grows.givenUp_le
      have hle' := hrest.grows.givenUp_le
      -- The number only grows, so if it is the same at the end it was the same in between.
      have hd : d.report.givenUp = c.report.givenUp := by omega
      exact (ih (h.trans hd.symm)).trans (hsame hd)

/-- The second part of a program is resolved like a program of its own, but for the kinds. -/
theorem mapM_topLevel_after (frames : Nat) (back : List Stmt) {report : Report}
    (hscopes : c.scopes = [])
    (hlimit : c.report.limit = report.limit) :
    back.mapM (topLevel frames) c =
      EStateM.Result.onState (Context.laid c.uses (Report.behind c.report.diagnostics))
        (back.mapM (topLevel frames)
          { functionKind := c.functionKind, classKind := c.classKind, listing := c.listing,
            report := { report with diagnostics := #[] } }) := by
  have htidy : Tidy (fun _ => ()) c.uses (Report.behind c.report.diagnostics)
      (back.mapM (topLevel frames)) :=
    .mapM (tidy_topLevel (Report.unseen_behind _) frames) back
  rw [← htidy.commutes]
  obtain ⟨scopes, functionKind, classKind, uses, listing, limit, diagnostics⟩ := c
  obtain rfl : scopes = [] := hscopes
  obtain rfl : limit = report.limit := hlimit
  unfold Context.laid Report.behind
  rw [Array.append_empty, Array.append_empty]

/-- A program is resolved like its first part, and then the second from the kinds that the
first left behind. -/
theorem resolve_parts (front back : List Stmt) (listing : Listing) (report : Report)
    (hc : EStateM.Result.final (front.mapM (topLevel frames) { listing, report }) = c) :
    resolve frames (front ++ back) listing report = (do
      let a ← resolve frames front listing report
      let b ← resolveIn c.functionKind c.classKind frames back listing
        { report with diagnostics := #[] }
      pure (a.append b)) := by
  have haround : Context.Around { listing, report } c := hc ▸ leaves_program front
  have hback := mapM_topLevel_after frames back (haround.nil rfl) haround.grows.1.symm
  rw [haround.listing] at hback
  unfold resolve resolveIn
  rw [List.mapM_append]
  cases hrun : front.mapM (topLevel frames) { listing, report } with
  | error e d =>
    rw [bind_error hrun]
    cases e with
    | tooDeep => exact absurd hrun (mapM_topLevel_ne_tooDeep frames front _ d)
    | noStatement kind => rfl
    | noExpression kind => rfl
  | ok ss d =>
    rw [hrun] at hc
    obtain rfl : d = c := hc
    rw [bind_ok hrun]
    let alone : Context :=
      { functionKind := d.functionKind, classKind := d.classKind, listing,
        report := { report with diagnostics := #[] } }
    have hbeyond :
        Context.Around alone (EStateM.Result.final (back.mapM (topLevel frames) alone)) :=
      leaves_program back
    cases hrest : back.mapM (topLevel frames) alone with
    | error e t =>
      rw [hrest] at hback
      rw [bind_error hback]
      cases e with
      | tooDeep => exact absurd hrest (mapM_topLevel_ne_tooDeep frames back _ t)
      | noStatement kind => rfl
      | noExpression kind => rfl
    | ok ss' t =>
      rw [hrest] at hback hbeyond
      have hlimit := hbeyond.grows.1
      rw [bind_ok hback]
      -- What the second part reports stands behind the messages of the first.
      have hreport := Report.behind_append d.report t.report (hlimit.symm.trans haround.grows.1)
      exact congrArg (fun r => Except.ok (Resolved.mk (ss ++ ss') (d.uses ++ t.uses) r
        t.scopes.length)) hreport

end Programs

/-- Resolution in two parts.  A program is resolved like its first part, and then the second
like a program of its own: no distance and no message of it depends on the first, but for the
kinds of function and class that the first leaves behind.  Where no statement of the first is
given up there are none, and the second part is resolved as it would be alone.  Before every
statement of the top level no scope is open, and so it is when the statement ends, also if it
is given up in the middle of whatever it holds because it is too deep, or if it holds a
misfit; the kinds are what they were unless it is given up. -/
theorem resolve_append (frames : Nat) (front back : List Stmt) (listing : Listing)
    (report : Report) :
    let c := EStateM.Result.final (front.mapM (topLevel frames) { listing, report })
    (resolve frames (front ++ back) listing report = do
      let a ← resolve frames front listing report
      let b ← resolveIn c.functionKind c.classKind frames back listing
        { report with diagnostics := #[] }
      pure (a.append b)) ∧
    (c.report.givenUp = report.givenUp →
      c.functionKind = .none ∧ c.classKind = .none ∧
      resolve frames (front ++ back) listing report = do
        let a ← resolve frames front listing report
        let b ← resolve frames back listing { report with diagnostics := #[] }
        pure (a.append b)) ∧
    c.scopes = [] ∧ ∀ s,
      (EStateM.Result.final (statement frames s c)).scopes = [] ∧
      (EStateM.Result.final (topLevel frames s c)).scopes = [] ∧
      ((EStateM.Result.final (topLevel frames s c)).report.givenUp = c.report.givenUp →
        (EStateM.Result.final (topLevel frames s c)).functionKind = c.functionKind ∧
        (EStateM.Result.final (topLevel frames s c)).classKind = c.classKind) := by
  intro c
  have hscopes : c.scopes = [] := Context.Around.nil (leaves_program front) rfl
  have hparts := resolve_parts (c := c) front back listing report rfl
  refine ⟨hparts, fun hnone => ?_, hscopes, fun s => ⟨?_, (leaves_topLevel s).nil hscopes,
    fun hsame => Prod.mk.inj (kinds_topLevel s hsame)⟩⟩
  -- No statement was given up, so the kinds are still those of the beginning.
  · obtain ⟨hfunction, hclass⟩ := Prod.mk.inj (kinds_program front hnone)
    change c.functionKind = .none at hfunction
    change c.classKind = .none at hclass
    refine ⟨hfunction, hclass, ?_⟩
    rw [hfunction, hclass, resolveIn_none] at hparts
    exact hparts
  · have hs : Tidy Context.kinds #[] (fun r => r) (statement frames s) :=
      tidy_statement (fun _ _ => rfl) frames s
    exact (hs.keeps c).around.nil hscopes

/-- A function in a block. -/
def innerFunction : Stmt :=
  .block [.funDecl (.mk { kind := .identifier, lexeme := "f" } [] [])]

/-- A class in a block. -/
def innerClass : Stmt :=
  .block [.classDecl { kind := .identifier, lexeme := "C" } none []]

/-- A `return`. -/
def loneReturn : Stmt :=
  .returnWith { kind := .returnKeyword, lexeme := "return" } none

/-- Five frames are enough for a function in a block, so a `return` after it is reported. -/
theorem resolve_append_enough :
    let c := EStateM.Result.final
      ([innerFunction].mapM (topLevel 5) { listing := default, report := {} })
    c.functionKind = .none ∧ c.classKind = .none ∧
    resolve 5 ([innerFunction] ++ [loneReturn]) default {} = (do
      let a ← resolve 5 [innerFunction] default {}
      let b ← resolve 5 [loneReturn] default {}
      pure (a.append b)) :=
  (resolve_append 5 [innerFunction] [loneReturn] default {}).2.1 rfl

/-- With four the frames end at the scope of the function, or at the name of the class, and
the kind is left behind: a `return` or a `this` at the top level is then accepted. -/
theorem resolve_append_leaks :
    let codes (program : List Stmt) : Option (List String) :=
      (resolve 4 program default {}).toOption.map fun r => r.report.diagnostics.toList.map (·.code)
    let this : Stmt := .print (.thisRef { token := { kind := .thisKeyword, lexeme := "this" } })
    (codes [innerFunction] = some ["E307"] ∧ codes [loneReturn] = some ["E303"] ∧
      codes ([innerFunction] ++ [loneReturn]) = some ["E307"]) ∧
    codes [innerClass] = some ["E307"] ∧ codes [this] = some ["E304"] ∧
      codes ([innerClass] ++ [this]) = some ["E307"] := by
  decide +kernel

end Scope

end Lox
