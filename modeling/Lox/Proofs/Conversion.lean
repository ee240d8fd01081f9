/-
Local names do not matter.

A program that is resolved without a problem, and the same program with a local
name changed, are run after the same sources.  They print the same, show the same
value and end in the same way, with the same message at the same place if there is
one, and no source that is run after them can tell which of the two was run.

* `NodeRenamed` — trees are reported at the same places in both spellings;
* `RunResult.SameAt` — results that are the same, but for how the token of a fault
  is spelled;
* `Twins.Level` — two machines between two statements of the top level;
* `runStatements_level`, `interpret_level`, `runSources_level` — statements, units
  and sessions;
* `run_renamed` — a program under two spellings.
-/
import Lox.Proofs.Rescoping
import Lox.Proofs.Recording
import Lox.Proofs.Spellings

namespace Lox

open Scope

/-- Tokens at the same place. -/
def Token.SamePlace (t t' : Token) : Prop :=
  t'.span = t.span

/-! ### Where a tree is reported -/

/-- A node, and the one in which the name is changed. -/
inductive NodeRenamed (ρ : Renaming) : Node → Node → Prop
  | expr {d : Depth} {e e' : Expr} (h : ExprRenamed ρ d e e') : NodeRenamed ρ (.expr e) (.expr e')
  | stmt {d : Depth} {s s' : Stmt} (h : StmtRenamed ρ d s s') : NodeRenamed ρ (.stmt s) (.stmt s')
  | same {n : Node} : NodeRenamed ρ n n

namespace NodeRenamed

variable {ρ : Renaming}

theorem token? {n n' : Node} (h : NodeRenamed ρ n n') :
    Option.Rel Token.SamePlace n.token? n'.token? := by
  have hsame : ∀ o : Option Token, Option.Rel Token.SamePlace o o := fun o => by
    cases o with
    | none => exact .none
    | some t => exact .some rfl
  cases h with
  | same => exact hsame _
  | expr h =>
    cases h with
    | var => exact .some (Renaming.tokenAt_span _ _ _)
    | assign => exact .some (Renaming.tokenAt_span _ _ _)
    | _ => exact hsame _
  | stmt h =>
    cases h with
    | varDecl => exact .some (Renaming.tokenAt_span _ _ _)
    | funDecl hk hf => exact .some (congrArg Token.span hf.name)
    | _ => exact hsame _

theorem stmts {d : Depth} {body body' : List Stmt} (h : BodyRenamed ρ d body body') :
    List.Forall₂ (NodeRenamed ρ) (body.map .stmt) (body'.map .stmt) := by
  rw [List.forall₂_map_left_iff, List.forall₂_map_right_iff]
  exact h.forall₂.imp fun _ _ => .stmt

theorem children {n n' : Node} (h : NodeRenamed ρ n n') :
    List.Forall₂ (NodeRenamed ρ) n.children n'.children := by
  have hsame : ∀ ns : List Node, List.Forall₂ (NodeRenamed ρ) ns ns := fun ns =>
    List.forall₂_same.mpr fun _ _ => .same
  cases h with
  | same => exact hsame _
  | expr h =>
    cases h with
    | grouping he => exact .cons (.expr he) .nil
    | _ => exact hsame _
  | stmt h =>
    cases h with
    | expression he => exact .cons (.expr he) .nil
    | print he => exact .cons (.expr he) .nil
    | block _ hb => exact stmts hb
    | ifAlone he hs => exact .cons (.expr he) (.cons (.stmt hs) .nil)
    | ifElse he hs ht => exact .cons (.expr he) (.cons (.stmt hs) (.cons (.stmt ht) .nil))
    | whileLoop he hs => exact .cons (.expr he) (.cons (.stmt hs) .nil)
    | _ => exact hsame _

theorem firstToken {n n' : Node} (h : NodeRenamed ρ n n') :
    n.firstToken.SamePlace n'.firstToken := by
  rcases firstToken_rel token? children h with h | h
  · exact h
  · rw [h]
    rfl

end NodeRenamed

/-! ### Results -/

/-- The same ending, at related tokens. -/
inductive Ending.SameAt (R : Token → Token → Prop) : Ending → Ending → Prop
  | finished : SameAt R .finished .finished
  | rejected : SameAt R .rejected .rejected
  | faulted {f : Fault} {t t' : Token} (ht : R t t') : SameAt R (.faulted f t) (.faulted f t')
  | unfinished : SameAt R .unfinished .unfinished
  | defective (d : Defect) : SameAt R (.defective d) (.defective d)

theorem Stop.SameAt.ending {R : Token → Token → Prop} {e e' : Stop} (h : e.SameAt R e') :
    (Ending.ofStop e).SameAt R (.ofStop e') := by
  cases h with
  | fault ht => exact .faulted ht
  | exhausted => exact .unfinished
  | unfinished => exact .unfinished
  | defect d => exact .defective d

/-- A fault is recorded at its place, however its token is spelled. -/
theorem Ending.SameAt.record {e e' : Ending} (h : e.SameAt Token.SamePlace e') (listing : Listing)
    (report : Report) : e'.record listing report = e.record listing report := by
  cases h with
  | faulted ht =>
    unfold Token.SamePlace at ht
    simp only [Ending.record, Fault.diagnose, Token.line, ht]
  | _ => rfl

/-- Results that are the same, but for how the token of a fault is spelled. -/
structure RunResult.SameAt (r r' : RunResult) : Prop where
  output : r'.output = r.output
  value : r'.value = r.value
  report : r'.report = r.report
  ending : r.ending.SameAt Token.SamePlace r'.ending

/-! ### The top level -/

namespace Twins

variable {ρ : Renaming} {x : Twins}

/-- Two machines between two statements of the top level. -/
structure Level (ρ : Renaming) (x : Twins) : Prop where
  alike : Alike ρ x
  stands : x.Stands x.machine.current none

/-- The two machines before any program has run. -/
def initial : Twins where
  machine := .initial
  environments := Machine.initial.heap.environments
  functions := #[]
  marked _ := False
  unbound _ := False

theorem level_initial (ρ : Renaming) : Level ρ initial := by
  have hlink : ∀ e, (initial.env e).enclosing = none := by
    intro e
    cases e with
    | zero => rfl
    | succ e => rfl
  refine ⟨⟨⟨Nat.one_pos, rfl, fun _ => rfl, fun h => ?_, fun _ => rfl, False.elim, False.elim,
    False.elim⟩, rfl, fun h => absurd h (Nat.not_lt_zero _), fun h => ?_, fun h => ?_⟩,
    Nat.one_pos, fun j e' _ => ⟨False.elim, fun h => nomatch h⟩⟩
  · rw [hlink] at h
    cases h
  · cases h
  · obtain ⟨f, rfl⟩ := holds_initial h
    exact bound_of_ne fun _ h => nomatch h

/-- A statement of the top level is in step with its other spelling. -/
theorem inStep_topLevel (host : Host) (levels : Nat) (record : Bool) (h : Level ρ x)
    {s s' : Stmt} (hs : StmtRenamed ρ none s s') :
    (pairing ρ).InStep x (runTopLevel host levels record s) (runTopLevel host levels record s')
      Pairing.Same := by
  obtain ⟨he, hr⟩ := alike_eval_and_exec ρ host levels
  have hexec : (pairing ρ).InStep x
      (do
        let _ ← exec host levels s
        pure none)
      (do
        let _ ← exec host levels s'
        pure none) (Pairing.Same (α := Option String)) :=
    (hr h.alike h.stands hs).bind fun _ _ y hy _ _ => .pure hy rfl
  refine .catchExhausted (NodeRenamed.stmt hs).firstToken ?_
  -- Only an expression that is recorded is not executed but evaluated.
  cases record with
  | false => exact hexec
  | true =>
    cases hs with
    | expression h' =>
      refine (he h.alike h.stands h').bind fun v v' y hy _ ⟨hsame, _⟩ => .ask ?_
      subst hsame
      rw [Twins.pairing_left, Twins.pairing_right, hy.display?_eq]
      cases y.machine.heap.display? levels v with
      | none => exact .throw hy .exhausted
      | some text => exact .pure hy rfl
    | _ => exact hexec

theorem Level.later {y : Twins} (h : Level ρ x) (hy : Alike ρ y) (hl : Later x y) : Level ρ y :=
  ⟨hy, h.stands.later h.alike hl⟩

/-- Statements of the top level record the same text and end in the same way. -/
theorem runStatements_level (host : Host) (levels : Nat) (record : Bool)
    {program program' : List Stmt} (hb : List.Forall₂ (StmtRenamed ρ none) program program') :
    ∀ {x} (v : Option String), Level ρ x → ∃ ending ending' value y,
      runStatements host levels record program v x.machine = (ending, value, y.machine) ∧
      runStatements host levels record program' v x.other = (ending', value, y.other) ∧
      Level ρ y ∧ ending.SameAt Token.SamePlace ending' := by
  -- By induction on the statements; the machines stay level from one to the next.
  induction hb with
  | nil => exact fun {x} v h => ⟨_, _, v, x, rfl, rfl, h, .finished⟩
  | cons hs _ ih =>
    intro x v h
    unfold runStatements
    rcases inStep_topLevel host levels record h hs with
      ⟨text, _, y, hp, hq, hy, hl, rfl⟩ | ⟨e, e', y, hp, hq, hy, hl, he⟩ | ⟨hfalse, -⟩
    · change runTopLevel host levels record _ x.machine = .ok text y.machine at hp
      change runTopLevel host levels record _ x.other = .ok text y.other at hq
      rw [hp, hq]
      exact ih (text <|> v) (h.later hy hl)
    · change runTopLevel host levels record _ x.machine = .error e y.machine at hp
      change runTopLevel host levels record _ x.other = .error e' y.other at hq
      rw [hp, hq]
      exact ⟨_, _, v, y, rfl, rfl, h.later hy hl, he.ending⟩
    · exact hfalse.elim

/-! ### Units and sessions -/

/-- What was printed before a unit does not matter to it. -/
theorem Level.printed (h : Level ρ x) (output : String) :
    Level ρ { x with machine := { x.machine with output } } := by
  have hshare : Alike ρ { x with machine := { x.machine with output } } :=
    share_alike h.alike rfl rfl rfl h.alike.methods fun hv => h.alike.held (hv.of_eq rfl rfl rfl)
  exact ⟨hshare, h.stands⟩

theorem interpret_level (host : Host) (settings : Settings) {program program' : List Stmt}
    (hb : List.Forall₂ (StmtRenamed ρ none) program program') (listing : Listing)
    (report : Report) (h : Level ρ x) : ∃ r r' y,
      interpret host settings program listing report x.machine = (r, y.machine) ∧
      interpret host settings program' listing report x.other = (r', y.other) ∧
      Level ρ y ∧ r.SameAt r' := by
  obtain ⟨ending, ending', value, y, hrun, hrun', hy, hsame⟩ :=
    runStatements_level host (settings.frames host / framesPerLevel) settings.replMode hb none
      (h.printed "")
  exact ⟨_, _, y, interpret_of_runStatements settings hrun,
    interpret_of_runStatements settings hrun', hy, rfl, rfl, hsame.record listing report, hsame⟩

theorem run_level (host : Host) (settings : Settings) (source : Source) (h : Level ρ x) : ∃ r r' y,
    Session.run host settings source.file source.text ⟨x.machine⟩ = (r, ⟨y.machine⟩) ∧
    Session.run host settings source.file source.text ⟨x.other⟩ = (r', ⟨y.other⟩) ∧
    Level ρ y ∧ r.SameAt r' := by
  unfold Session.run Session.runChecked
  cases (check host settings source.file source.text).report.hasErrors with
  | true => exact ⟨_, _, x, rfl, rfl, h, rfl, rfl, rfl, .rejected⟩
  | false =>
    obtain ⟨r, r', y, hrun, hrun', hy, hsame⟩ := interpret_level host settings
      (List.forall₂_same.mpr fun s _ => StmtRenamed.refl (ρ := ρ) s) (Listing.ofText source.text)
      (check host settings source.file source.text).report h
    rw [if_neg Bool.false_ne_true, if_neg Bool.false_ne_true, hrun, hrun']
    exact ⟨r, r', y, rfl, rfl, hy, hsame⟩

theorem runSources_level (host : Host) (settings : Settings) (sources : List Source) :
    ∀ {x}, Level ρ x → ∃ y,
      (Session.runSources host settings sources ⟨x.machine⟩).2 = ⟨y.machine⟩ ∧
      (Session.runSources host settings sources ⟨x.other⟩).2 = ⟨y.other⟩ ∧ Level ρ y ∧
      List.Forall₂ RunResult.SameAt (Session.runSources host settings sources ⟨x.machine⟩).1
        (Session.runSources host settings sources ⟨x.other⟩).1 := by
  induction sources with
  | nil => exact fun {x} h => ⟨x, rfl, rfl, h, .nil⟩
  | cons source sources ih =>
    intro x h
    obtain ⟨r, r', y, hrun, hrun', hy, hsame⟩ := run_level host settings source h
    obtain ⟨z, hz, hz', hlevel, hrest⟩ := ih hy
    rw [runSources_cons hrun, runSources_cons hrun']
    exact ⟨z, hz, hz', hlevel, .cons hsame hrest⟩

/-- A machine that a session comes to is level with itself. -/
theorem exists_level (ρ : Renaming) (host : Host) (settings : Settings) (sources : List Source) :
    ∃ x, (Session.runSources host settings sources .start).2 = ⟨x.machine⟩ ∧
      x.other = x.machine ∧ Level ρ x := by
  obtain ⟨x, hleft, hright, h, -⟩ := runSources_level host settings sources (level_initial ρ)
  refine ⟨x, hleft, ?_, h⟩
  -- Before the first source the two machines are the same one.
  have hsame : (⟨x.other⟩ : Session) = ⟨x.machine⟩ := hright.symm.trans hleft
  exact congrArg Session.machine hsame

end Twins

/-! ### Programs under two spellings -/

/-- Local names do not matter.  A program that is resolved without a problem and the
same program with a local name changed, which is resolved without a problem too and
with the same distances, do the same wherever they are run: after any sources of a
session they print the same, record the same text, report the same and end in the
same way, and so do all sources that are run after them. -/
theorem run_renamed (ρ : Renaming) {frames : Nat} {program renamed : List Stmt}
    {listing : Listing} {report : Report} {r : Resolved}
    (hresolve : resolve frames program listing report = .ok r) (hquiet : r.report = report)
    (hrenamed : BodyRenamed ρ none r.statements renamed) :
    (∃ r', resolve frames renamed listing report = .ok r' ∧ r'.report = report ∧
      r'.statements = renamed ∧ List.Forall₂ Use.SameAt r.uses.toList r'.uses.toList) ∧
    ∀ (host : Host) (settings : Settings) (before after : List Source),
      let m := (Session.runSources host settings before .start).2.machine
      let run := interpret host settings r.statements listing report m
      let run' := interpret host settings renamed listing report m
      run.1.SameAt run'.1 ∧
        List.Forall₂ RunResult.SameAt (Session.runSources host settings after ⟨run.2⟩).1
          (Session.runSources host settings after ⟨run'.2⟩).1 := by
  refine ⟨resolve_renamed hresolve hquiet hrenamed listing report,
    fun host settings before after => ?_⟩
  obtain ⟨x, hleft, hother, hx⟩ := Twins.exists_level ρ host settings before
  obtain ⟨s, s', y, hrun, hrun', hy, hsame⟩ :=
    Twins.interpret_level host settings hrenamed.forall₂ listing report hx
  -- The states are twins after the run too, which is what the later sources ask for.
  obtain ⟨-, -, -, -, hafter⟩ := Twins.runSources_level host settings after hy
  rw [hother] at hrun'
  simp only [hleft, hrun, hrun']
  exact ⟨hsame, hafter⟩

/-- A block with a function that captures a variable of the block. -/
def capturing (name : String) : List Stmt :=
  let x : Token := { kind := .identifier, lexeme := name }
  let f : Token := { kind := .identifier, lexeme := "f" }
  [.block
    [.varDecl x (some (.literal (.text "kept"))),
     .funDecl (.mk f [] [.returnWith f (some (.var ⟨x, some 1⟩))]),
     .print (.call (.var ⟨f, some 0⟩) f [])]]

/-- The name `a`, changed to `b`. -/
def Renaming.aToB : Renaming where
  old := "a"
  new := "b"
  old_ordinary := ⟨by decide, by decide⟩
  new_ordinary := ⟨by decide, by decide⟩

/-- The variable of the block is renamed, with its use one function further inside. -/
theorem capturing_renamed : BodyRenamed .aToB none (capturing "a") (capturing "b") := by
  have huse : ExprRenamed .aToB (some 1) (.var ⟨{ kind := .identifier, lexeme := "a" }, some 1⟩)
      (.var ⟨{ kind := .identifier, lexeme := "b" }, some 1⟩) :=
    .var fun _ => by decide
  have hcall : ExprRenamed .aToB (some 0) (.var ⟨{ kind := .identifier, lexeme := "f" }, some 0⟩)
      (.var ⟨{ kind := .identifier, lexeme := "f" }, some 0⟩) :=
    .var fun _ => by decide
  refine .cons (.block .renamed ?_) .nil
  refine .cons (.varDecl (fun _ => by decide) (.some .literal)) (.cons ?_ (.cons ?_ .nil))
  · exact .funDecl ⟨fun _ => by decide, fun _ => by decide⟩
      (.mk .inner (by simp) (.cons (.returned (.some huse)) .nil))
  · exact .print (.call hcall .nil)

/-- The block prints what the function gives, whatever the variable is called. -/
theorem run_renamed_capturing :
    (interpret .small { recursionLimit := 100 } (capturing "a") (.ofText "") {} .initial).1.output =
      "kept\n" ∧
    (interpret .small { recursionLimit := 100 } (capturing "b") (.ofText "") {} .initial).1.output =
      "kept\n" := by
  have hrun : (interpret .small { recursionLimit := 100 } (capturing "a") (.ofText "") {}
      .initial).1.output = "kept\n" := by
    decide +kernel
  have hresolve : ∃ uses, resolve 100 (capturing "a") (.ofText "") {} =
      .ok ⟨capturing "a", uses, {}, 0⟩ := ⟨_, rfl⟩
  obtain ⟨uses, hresolve⟩ := hresolve
  have hsame := (run_renamed .aToB hresolve rfl capturing_renamed).2 .small
    { recursionLimit := 100 } [] []
  exact ⟨hrun, hsame.1.output.trans hrun⟩

end Lox
