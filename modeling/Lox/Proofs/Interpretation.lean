/-
Whole programs side by side.

The statements of a unit are run one after another among the globals, and what
stops one of them ends the unit.  A unit that was resolved, run on environments,
has the output and the ending of the same unit as it was read, run on cells.

* `firstToken_rel`, `firstToken_shape` — related trees, such as those of one shape, are
  reported at related tokens;
* `interpret_of_runStatements` — the statements of a unit and its result;
* `Ending.Matches` — the same ending, which is no defect;
* `Abreast` — the two states between two statements of the top level;
* `runTopLevel_alongside`, `runStatements_abreast` — statements of the top level.
-/
import Lox.Proofs.Evaluation
import Lox.Proofs.Holding

namespace Lox

open Scope

/-! ### Where a tree is reported -/

/-- Tokens that two trees are reported at: related tokens, or the one token for all
trees that hold none. -/
def Shown (R : Token → Token → Prop) (t t' : Token) : Prop :=
  R t t' ∨ t = t'

section FirstTokens

variable {R : Token → Token → Prop} {N : Node → Node → Prop}

/-- The first tokens of two levels whose nodes hold related tokens. -/
theorem findSome?_rel {level level' : List Node}
    (h : List.Forall₂ (fun n n' : Node => Option.Rel R n.token? n'.token?) level level') :
    Option.Rel R (level.findSome? Node.token?) (level'.findSome? Node.token?) := by
  induction h with
  | nil => exact .none
  | @cons n n' _ _ ht _ ih =>
    rw [List.findSome?_cons, List.findSome?_cons]
    revert ht
    cases n.token? with
    | none =>
      cases n'.token? with
      | none => exact fun _ => ih
      | some t' => exact fun ht => nomatch ht
    | some t =>
      cases n'.token? with
      | none => exact fun ht => nomatch ht
      | some t' => exact id

variable (htoken : ∀ {n n'}, N n n' → Option.Rel R n.token? n'.token?)
  (hchildren : ∀ {n n'}, N n n' → List.Forall₂ N n.children n'.children)

include htoken hchildren

/-- The first tokens of related levels are related, down to the leaves, if related
nodes hold related tokens and have related nodes below them. -/
theorem firstTokenFrom_rel (level : List Node) :
    ∀ {level' : List Node}, List.Forall₂ N level level' →
      Option.Rel R (Node.firstTokenFrom level) (Node.firstTokenFrom level') := by
  -- By the levels of the tree: one that has a token ends the search on both sides.
  induction level using Node.firstTokenFrom.induct with
  | case1 =>
    rintro _ ⟨⟩
    rw [Node.firstTokenFrom]
    exact .none
  | case2 n rest t hfind =>
    rintro _ (_ | ⟨hn, hrest⟩)
    have hlevel := findSome?_rel (.cons (htoken hn) (hrest.imp fun _ _ => htoken))
    rw [hfind] at hlevel
    rw [Node.firstTokenFrom, hfind, Node.firstTokenFrom]
    cases hfind' : List.findSome? Node.token? _ with
    | none =>
      rw [hfind'] at hlevel
      cases hlevel
    | some t' =>
      rw [hfind'] at hlevel
      exact hlevel
  | case3 n rest hfind ih =>
    rintro _ (_ | ⟨hn, hrest⟩)
    have hlevel := findSome?_rel (.cons (htoken hn) (hrest.imp fun _ _ => htoken))
    rw [hfind] at hlevel
    rw [Node.firstTokenFrom, hfind, Node.firstTokenFrom]
    cases hfind' : List.findSome? Node.token? _ with
    | none => exact ih (List.rel_flatMap (.cons hn hrest) fun _ _ => hchildren)
    | some t' =>
      rw [hfind'] at hlevel
      cases hlevel

theorem firstToken_rel {n n' : Node} (h : N n n') : Shown R n.firstToken n'.firstToken := by
  have hrel := firstTokenFrom_rel htoken hchildren [n] (.cons h .nil)
  unfold Node.firstToken
  revert hrel
  cases Node.firstTokenFrom [n] with
  | none =>
    cases Node.firstTokenFrom [n'] with
    | none => exact fun _ => .inr rfl
    | some t' => exact fun hrel => nomatch hrel
  | some t =>
    cases Node.firstTokenFrom [n'] with
    | none => exact fun hrel => nomatch hrel
    | some t' =>
      intro hrel
      cases hrel with
      | some h => exact .inl h

end FirstTokens

/-- Nodes of the same shape. -/
inductive NodeShape (R : Token → Token → Prop) : Node → Node → Prop
  | expr {uses : UseKind → String → Option Nat → Prop} {e e' : Expr} (h : ExprShape R uses e e') :
      NodeShape R (.expr e) (.expr e')
  | stmt {rules : Rules} {S T : Scopes} {s s' : Stmt} (h : StmtShape R rules S s s' T) :
      NodeShape R (.stmt s) (.stmt s')

namespace NodeShape

variable {R : Token → Token → Prop}

/-- Nodes of the same shape hold related tokens. -/
theorem token? {n n' : Node} (h : NodeShape R n n') : Option.Rel R n.token? n'.token? := by
  cases h with
  | expr h =>
    cases h with
    | literal => exact .none
    | grouping _ => exact .none
    | unary hop _ _ => exact .some hop
    | binary _ hop _ _ => exact .some hop
    | logical _ hop _ => exact .some hop
    | var ht _ _ => exact .some ht
    | assign ht _ _ _ => exact .some ht
    | call _ hp _ => exact .some hp
    | get _ hn => exact .some hn
    | set _ hn _ => exact .some hn
    | this ht _ _ => exact .some ht
    | super ht _ _ _ => exact .some ht
  | stmt h =>
    cases h with
    | plain hn _ _ => exact .some hn
    | initialized hn _ _ _ => exact .some hn
    | breakLoop hk => exact .some hk
    | funDecl _ hf => exact .some hf.name.1
    | returned hk => exact .some hk
    | returnedWith hk _ => exact .some hk
    | classDecl hn _ _ _ => exact .some hn
    | subclass hn _ _ _ _ _ _ => exact .some hn
    | _ => exact .none

theorem stmts {rules : Rules} {body body' : List Stmt} : ∀ {S T : Scopes},
    BodyShape R rules S body body' T →
      List.Forall₂ (NodeShape R) (body.map .stmt) (body'.map .stmt) := by
  induction body generalizing body' with
  | nil =>
    rintro S _ ⟨⟩
    exact .nil
  | cons s body ih =>
    rintro S _ (_ | ⟨hs, hb⟩)
    exact .cons (.stmt hs) (ih hb)

/-- The nodes below nodes of the same shape have the same shape. -/
theorem children {n n' : Node} (h : NodeShape R n n') :
    List.Forall₂ (NodeShape R) n.children n'.children := by
  cases h with
  | expr h =>
    cases h with
    | grouping he => exact .cons (.expr he) .nil
    | _ => exact .nil
  | stmt h =>
    cases h with
    | expression he => exact .cons (.expr he) .nil
    | print he => exact .cons (.expr he) .nil
    | block hb => exact stmts hb
    | ifAlone he hs => exact .cons (.expr he) (.cons (.stmt hs) .nil)
    | ifElse he hs ht => exact .cons (.expr he) (.cons (.stmt hs) (.cons (.stmt ht) .nil))
    | whileLoop he hs => exact .cons (.expr he) (.cons (.stmt hs) .nil)
    | _ => exact .nil

end NodeShape

variable {R : Token → Token → Prop}

theorem firstToken_shape {n n' : Node} (h : NodeShape R n n') :
    Shown R n.firstToken n'.firstToken :=
  firstToken_rel NodeShape.token? NodeShape.children h

/-- The report after a unit has ended: a fault is added to it. -/
def Ending.record (listing : Listing) (report : Report) : Ending → Report
  | .faulted f t => report.add (f.diagnose t (listing.line? t.line))
  | _ => report

/-- What the statements of a unit come to is what its run comes to. -/
theorem interpret_of_runStatements {host : Host} (settings : Settings) {statements : List Stmt}
    {listing : Listing} {report : Report} {m m' : Machine} {ending : Ending}
    {value : Option String}
    (h : runStatements host (settings.frames host / framesPerLevel) settings.replMode statements
      none { m with output := "" } = (ending, value, m')) :
    interpret host settings statements listing report m =
      ({ output := m'.output, ending, value, report := ending.record listing report }, m') := by
  unfold interpret
  dsimp only
  rw [h]
  cases ending with
  | _ => rfl

/-- Two endings that are the same, up to the places of their faults.  A defect
matches nothing. -/
inductive Ending.Matches (R : Token → Token → Prop) : Ending → Ending → Prop
  | finished : Matches R .finished .finished
  | faulted {f : Fault} {t t' : Token} (ht : Shown R t t') :
      Matches R (.faulted f t') (.faulted f t)
  | unfinished : Matches R .unfinished .unfinished

namespace Lexical

variable {before : String} {x : Snapshot}

/-! ### Statements of the top level -/

/-- The two states between two statements of the top level. -/
structure Abreast (R : Token → Token → Prop) (before : String) (x : Snapshot) : Prop where
  mirrors : Mirrors R before x
  atGlobals : x.machine.current = 0

namespace Abreast

theorem stands (h : Abreast R before x) : Stands [] {} x := by
  refine ⟨?_, fun name hn => ?_⟩
  · rw [h.atGlobals]
    exact .globals
  · -- The globals have no cells.
    obtain ⟨c, hc⟩ := Option.isSome_iff_exists.mp hn
    rw [h.atGlobals] at hc
    exact absurd (h.mirrors.stores.cell hc).1 (Nat.lt_irrefl 0)

theorem grows {k : Extent} {y : Snapshot} (h : Abreast R before x) (hm : Mirrors R before y)
    (hg : Grows k x y) : Abreast R before y :=
  ⟨hm, hg.current.trans h.atGlobals⟩

end Abreast

section

variable (hR : ∀ {t t'}, R t t' → t.Alike t')

include hR in
theorem scopes_topLevel {rules : Rules} {T : Scopes} {s s' : Stmt}
    (h : StmtShape R rules [] s s' T) : T = [] := by
  rcases h.scopes hR with rfl | ⟨name, -, rfl⟩
  · rfl
  · rfl

include hR in
/-- What a statement of the top level does, before nesting that is too deep is
made a fault. -/
theorem beside_topLevel (host : Host) (levels : Nat) (record : Bool) {s s' : Stmt}
    (h : Abreast R before x) (hs : StmtShape R .lexical [] s s' []) :
    Beside R before .here x
      (match record, s' with
        | true, .expression e => do
          let v ← Lox.eval host levels e
          match ← Eval.ask (·.display? levels v) with
          | some text => pure (some text)
          | none => throw .exhausted
        | _, _ => do
          let _ ← Lox.exec host levels s'
          pure none)
      (match record, s with
        | true, .expression e => do
          let v ← eval host levels {} e
          match ← lift (Eval.ask (·.display? levels v)) with
          | some text => pure (some text)
          | none => throw .exhausted
        | _, _ => do
          let _ ← exec host levels {} s
          pure none)
      fun text text' _ => text = text' := by
  obtain ⟨hf, hfull⟩ := h.stands
  obtain ⟨he, hr⟩ : Evaluates R before (Lox.eval host levels) (eval host levels) ∧
      Runs R before (Lox.exec host levels) (exec host levels) := evaluates_and_runs hR host levels
  have hexec : Beside R before .here x
      (do
        let _ ← Lox.exec host levels s'
        pure none)
      (do
        let _ ← exec host levels {} s
        pure none)
      fun text text' _ => (text : Option String) = text' :=
    (hr.beside h.mirrors hf hfull hs).bind fun _ _ y hm _ _ => .pure hm rfl
  -- Only an expression that is recorded is not executed but evaluated.
  cases record with
  | false => exact hexec
  | true =>
    cases hs with
    | expression h' =>
      refine Beside.here (.bind (he.beside h.mirrors hf h') fun v v' y hm _ ⟨hsame, _⟩ => ?_)
      subst hsame
      refine .ask_left (.ask_right ?_)
      rw [hm.display?_eq hR]
      cases y.machine.heap.display? levels v with
      | none => exact .throw hm .exhausted
      | some text => exact .pure hm rfl
    | _ => exact hexec

/-- Two computations at the top level both give the same result, or both end the
unit in the same way. -/
def Alongside (R : Token → Token → Prop) (before : String) (x : Snapshot) {α : Type} (p : Eval α)
    (q : Run α) : Prop :=
  (∃ a y, p x.machine = .ok a y.machine ∧ q x.world = .ok a y.world ∧ Abreast R before y) ∨
  ∃ e e' y, p x.machine = .error e y.machine ∧ q x.world = .error e' y.world ∧
    Abreast R before y ∧ (Ending.ofStop e).Matches R (Ending.ofStop e')

/-- At the top level, nesting that is too deep is a fault at the whole statement. -/
theorem Alongside.catchExhausted {α : Type} {p : Eval α} {q : Run α} {t t' : Token}
    (hx : Abreast R before x) (ht : Shown R t t')
    (h : Beside R before .here x p q fun a b _ => a = b) :
    Alongside R before x (Eval.catchExhausted t' p) (catchExhausted t q) := by
  have hleft := Eval.catches t' p
  have hright := catches t q
  rcases h with ⟨a, b, y, hp, hq, hm, hg, hsame⟩ | ⟨e, e', y, hp, hq, hm, hg, he⟩
  · subst hsame
    exact .inl ⟨a, y, hleft.ok hp, hright.ok hq, hx.grows hm hg⟩
  · refine .inr ⟨_, _, y, hleft.error hp, hright.error hq, hx.grows hm hg, ?_⟩
    cases he with
    | fault ht' => exact .faulted (.inl ht')
    | exhausted => exact .faulted ht
    | unfinished => exact .unfinished

include hR in
/-- A statement of the top level gives the same text, or ends the unit alike. -/
theorem runTopLevel_alongside (host : Host) (levels : Nat) (record : Bool) {s s' : Stmt}
    (h : Abreast R before x) (hs : StmtShape R .lexical [] s s' []) :
    Alongside R before x (Lox.runTopLevel host levels record s')
      (runTopLevel host levels record s) :=
  .catchExhausted h (firstToken_shape (.stmt hs)) (beside_topLevel hR host levels record h hs)

include hR in
/-- The statements of a unit end alike, and the text of the last expression is
the same if it was before. -/
theorem runStatements_abreast (host : Host) (levels : Nat) (record : Bool)
    {program program' : List Stmt} : ∀ {x : Snapshot} (u v : Option String),
    Abreast R before x → BodyShape R .lexical [] program program' [] →
    ∃ ending ending' u' v' y,
      Lox.runStatements host levels record program' u x.machine = (ending', u', y.machine) ∧
      runStatements host levels record program v x.world = (ending, v', y.world) ∧
      Abreast R before y ∧ ending'.Matches R ending ∧ (u = v → u' = v') := by
  -- By induction on the statements.  At the top level the scopes stay empty.
  induction program generalizing program' with
  | nil =>
    rintro x u v h ⟨⟩
    exact ⟨.finished, .finished, u, v, x, rfl, rfl, h, .finished, id⟩
  | cons s program ih =>
    rintro x u v h (_ | ⟨hs, hb⟩)
    obtain rfl := scopes_topLevel hR hs
    unfold Lox.runStatements runStatements
    rcases runTopLevel_alongside hR host levels record h hs with
      ⟨text, y, hp, hq, hy⟩ | ⟨e, e', y, hp, hq, hy, hend⟩
    · rw [hp, hq]
      obtain ⟨ending, ending', u', v', z, hrun', hrun, hz, hmatches, hsame⟩ :=
        ih (text <|> u) (text <|> v) hy hb
      exact ⟨ending, ending', u', v', z, hrun', hrun, hz, hmatches, fun huv => hsame (huv ▸ rfl)⟩
    · rw [hp, hq]
      exact ⟨_, _, u, v, y, rfl, rfl, hy, hend, id⟩

end

/-! ### Units -/

/-- What was printed before a unit does not matter to it. -/
theorem Abreast.printed {after output output' : String} (h : Abreast R before x)
    (ho : output' = after ++ output) :
    Abreast R after ⟨x.layout, { x.machine with output },
      { x.world with machine := { x.world.machine with output := output' } }⟩ := by
  have hs := h.mirrors.shares
  refine ⟨?_, h.atGlobals⟩
  exact Beyond.mirrors (x := x) ⟨rfl, rfl, rfl, rfl, rfl, rfl, rfl⟩ h.mirrors
    ⟨hs.classes, hs.instances, hs.arrays, hs.readings, ho⟩ rfl
    (fun hv => h.mirrors.values (.field hv)) fun hv => h.mirrors.values (.element hv)

/-- The two states before any program has run. -/
def Snapshot.initial : Snapshot :=
  ⟨fun _ _ => none, Machine.initial, World.initial⟩

theorem abreast_initial (R : Token → Token → Prop) : Abreast R "" Snapshot.initial := by
  have hnone : ∀ {e name}, 0 < e → (Snapshot.initial.env e).values.get? name = none := by
    intro e name he
    rw [Snapshot.env, Forest.env_of_size_le (Nat.succ_le_of_lt he)]
    rfl
  have hlayout : ∀ {e name c}, Snapshot.initial.layout e name ≠ some c := by
    intro e name c h
    cases h
  refine ⟨⟨⟨rfl, rfl, rfl, rfl, rfl⟩, ⟨Nat.one_pos, rfl, fun hc => absurd hc hlayout,
    fun hc => absurd hc hlayout, fun he hb => ?_, fun hc => absurd hc hlayout, fun he hv => ?_⟩,
    ⟨rfl, rfl, fun hid => ?_, fun hk => ?_⟩, ?_⟩, rfl⟩
  · rw [Bindings.binds, hnone he] at hb
    cases hb
  · rw [hnone he] at hv
    cases hv
  · exact absurd hid (Nat.not_lt_zero _)
  · cases hk
  · -- Only the native functions are there.
    intro v hv id hfunction
    subst hfunction
    cases hv with
    | @global name _ hv =>
      obtain ⟨f, hf⟩ := native_of_find? Native.registry hv
      cases hf
    | cell hv => cases hv
    | field hv => cases hv
    | element hv => cases hv

/-- The statements of a unit have the same output, ending and value on both
sides, and a fault is added to the report. -/
theorem interpret_abreast (hR : ∀ {t t'}, R t t' → t.Alike t') (host : Host) (settings : Settings)
    {program program' : List Stmt} (h : Abreast R before x)
    (hb : BodyShape R .lexical [] program program' []) (listing : Listing) (report : Report) :
    ∃ output ending ending' value y,
      Lox.interpret host settings program' listing report x.machine =
        ({ output, ending := ending', value, report := ending'.record listing report },
          y.machine) ∧
      interpret host settings program x.world = ((output, ending, value), y.world) ∧
      Abreast R "" y ∧ ending'.Matches R ending := by
  -- Both runs begin with nothing printed, so in the end they printed the same.
  have hquiet : Abreast R "" ⟨x.layout, { x.machine with output := "" }, x.world.quiet⟩ :=
    h.printed rfl
  obtain ⟨ending, ending', value, _, y, hrun', hrun, hy, hmatches, hsame⟩ :=
    runStatements_abreast hR host (settings.frames host / framesPerLevel) settings.replMode
      none none hquiet hb
  obtain rfl := hsame rfl
  have houtput : y.world.machine.output = y.machine.output := by
    rw [hy.mirrors.shares.output, String.empty_append]
  refine ⟨y.machine.output, ending, ending', value, y, interpret_of_runStatements settings hrun',
    ?_, hy, hmatches⟩
  unfold interpret
  simp only [hrun, houtput]

end Lexical

end Lox
