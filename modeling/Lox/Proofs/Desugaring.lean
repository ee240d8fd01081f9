/-
What a `for` loop stands for does what the loop does.

A program as it is written and the trees that are read from it are run side by side.  The
scopes that reading puts around a loop and around its body hold no name that the loop itself
does not declare, so the same names are seen from everywhere, and a frame that such a scope
takes is counted on both sides.

* `SideBySide` — expressions, statements and declarations with so many frames;
* `inStep_turn`, `inStep_turns` — the body of a loop, and its turns;
* `inStep_forLoop` — a loop with its initializer;
* `sideBySide`, `exec_tree` — everything else, by recursion on the frames;
* `run_desugared` — units and sessions.
-/
import Lox.Proofs.Concatenation
import Lox.Proofs.Forgetting

namespace Lox.Written

open Lox.Lexical (View)
open Pairing (InStep Same)

/-! ### Frame by frame -/

/-- With so many frames, expressions, statements and declarations are run side by side with
what they stand for.  A statement leaves the names around it as they were. -/
structure SideBySide (host : Host) (n : Nat) : Prop where
  eval : ∀ {x V e}, World.Faithful x →
    pairing.InStep x (Lexical.eval host n V e) (eval host n V.names e) Same
  exec : ∀ {x V s}, World.Faithful x →
    pairing.InStep x (Lexical.exec host n V s.tree) (exec host n V.names s)
      fun r completion _ => r = (completion, V)
  declare : Declares (Lexical.exec host n) (declare host n)

section Frames

variable {host : Host} {n : Nat} {x : World} {V : View}

/-! #### Loops -/

theorem turn_pure (body : Run Completion) : turn body (pure ()) = body := by
  funext w
  unfold turn
  cases h : body w with
  | ok c w' =>
    rw [bind_ok h]
    cases c <;> rfl
  | error e w' => rw [bind_error h]

theorem fst_block (V : View) (body : List Stmt) :
    Prod.fst <$> Lexical.exec host (n + 1) V (.block body) =
      Lexical.runAll (Lexical.exec host n) ⟨true, V.names⟩ body := by
  rw [Lexical.exec]
  simp

/-- The names around a statement are the same after it. -/
theorem inStep_among {p : Lexical.Run Completion} {q : Run Completion} (V : View)
    (h : pairing.InStep x p q Same) :
    pairing.InStep x (p >>= fun completion => pure (completion, V)) q
      fun r completion _ => r = (completion, V) := by
  rw [← bind_pure q]
  exact h.next fun _ y hy => .pure hy rfl

/-- How a statement ends, without the names around it. -/
theorem inStep_fst {p : Lexical.Run (Completion × View)} {q : Run Completion}
    (h : pairing.InStep x p q fun r completion _ => r = (completion, V)) :
    pairing.InStep x (Prod.fst <$> p) q Same := by
  rw [← id_map q]
  exact h.map fun r c y _ _ hr => congrArg Prod.fst hr

/-- The last of several statements tells how they end. -/
theorem inStep_last {q : Run Completion} {W : View} {run : Lexical.Runner} {s : Stmt}
    (h : pairing.InStep x (run V s) q fun r completion _ => r = (completion, W)) :
    pairing.InStep x (Lexical.runAll run V [s]) q Same := by
  unfold Lexical.runAll
  rw [← bind_pure q]
  refine h.bind fun r c y hy _ hr => ?_
  subst hr
  cases c with
  | normal => exact .pure hy rfl
  | broke => exact .pure hy rfl
  | returned v => exact .pure hy rfl

/-- The increment of a loop, which is the last statement of the scope around the body. -/
theorem inStep_increment (hbelow : ∀ k ≤ n, SideBySide host k) (e : Expr) (hx : x.Faithful) :
    pairing.InStep x (Lexical.runAll (Lexical.exec host n) ⟨true, V.names⟩ [.expression e])
      ((do
        let _ ← eval host (n - 1) V.names e
        pure ()) >>= fun _ => pure .normal) Same := by
  rw [bind_assoc]
  refine inStep_last (W := ⟨true, V.names⟩) ?_
  cases n with
  | zero =>
    rw [Lexical.exec, eval]
    exact .throw hx .exhausted
  | succ m =>
    rw [Lexical.exec]
    exact ((hbelow m (Nat.le_succ m)).eval hx).next fun _ y hy => .pure hy rfl

/-- The body of a loop, in the scope that reading puts around it if there is an increment. -/
theorem inStep_turn (hbelow : ∀ k ≤ n, SideBySide host k) (increment : Option Expr)
    (body : Statement) (hx : x.Faithful) :
    let inner := n - increment.toList.length
    pairing.InStep x
      (Prod.fst <$> Lexical.exec host n V
        (increment.elim body.tree fun e => .block [body.tree, .expression e]))
      (turn (exec host inner V.names body)
        (increment.elim (pure ()) fun e => do
          let _ ← eval host (inner - 1) V.names e
          pure ())) Same := by
  intro inner
  cases increment with
  | none =>
    change pairing.InStep x (Prod.fst <$> Lexical.exec host n V body.tree)
      (turn (exec host n V.names body) (pure ())) Same
    rw [turn_pure]
    exact inStep_fst ((hbelow n (Nat.le_refl n)).exec hx)
  | some e =>
    cases n with
    | zero =>
      change pairing.InStep x
        (Prod.fst <$> Lexical.exec host 0 V (.block [body.tree, .expression e]))
        (turn (exec host 0 V.names body) _) Same
      rw [Lexical.exec, exec]
      exact .throw hx .exhausted
    | succ k =>
      change pairing.InStep x
        (Prod.fst <$> Lexical.exec host (k + 1) V (.block [body.tree, .expression e]))
        (turn (exec host k V.names body) (do
          let _ ← eval host (k - 1) V.names e
          pure ())) Same
      rw [fst_block, Lexical.runAll, turn]
      have hbody := (hbelow k (Nat.le_succ k)).exec (V := ⟨true, V.names⟩) (s := body) hx
      refine hbody.bind fun r c y hy _ hr => ?_
      subst hr
      cases c with
      | broke => exact .pure hy rfl
      | returned v => exact .pure hy rfl
      | normal =>
        -- The increment sees the names of the header, as the body has declared nothing.
        exact inStep_increment (fun j hj => hbelow j (Nat.le_succ_of_le hj)) e hy

/-- The turns of a loop do what the `while` loop does that it stands for. -/
theorem inStep_turns (hbelow : ∀ k ≤ n, SideBySide host k) (condition increment : Option Expr)
    (body : Statement) (hx : x.Faithful) :
    let inner := n - increment.toList.length
    pairing.InStep x
      (Lexical.exec host (n + 1) V (.whileLoop (condition.getD (.literal (.bool true)))
        (increment.elim body.tree fun e => .block [body.tree, .expression e])))
      (repeating
        (condition.elim (pure true) fun c => do return (← eval host n V.names c).isTruthy)
        (turn (exec host inner V.names body)
          (increment.elim (pure ()) fun e => do
            let _ ← eval host (inner - 1) V.names e
            pure ()))
        host.turns)
      fun r completion _ => r = (completion, V) := by
  intro inner
  have hturn {y : World} (hy : y.Faithful) := inStep_turn (V := V) hbelow increment body hy
  rw [Lexical.exec]
  refine inStep_among V ?_
  cases n with
  | zero =>
    -- Nothing is left for the body, so a condition that is missing does not matter.
    cases host.turns with
    | zero => exact .throw hx .unfinished
    | succ turns =>
      rw [Lexical.iterate, repeating]
      cases condition with
      | some c =>
        rw [show (some c).getD _ = c from rfl, Lexical.eval]
        simp only [Option.elim_some, eval]
        exact .throw hx .exhausted
      | none =>
        have hinner : inner = 0 := Nat.zero_sub _
        rw [show none.getD _ = Expr.literal (.bool true) from rfl, Lexical.eval, hinner, exec]
        exact .throw hx .exhausted
  | succ m =>
    refine inStep_repeating (fun {y} hy => ?_) hturn _ hx
    cases condition with
    | none =>
      change pairing.InStep y (do
        return (← Lexical.eval host (m + 1) V (.literal (.bool true))).isTruthy) (pure true) Same
      rw [Lexical.eval]
      exact .pure hy rfl
    | some c =>
      exact ((hbelow _ (Nat.le_refl _)).eval hy).next fun v z hz => .pure hz rfl

/-- An initializer that comes to an end ends normally, and has taken a frame. -/
theorem declare_initializer (i : Initializer) {r : Completion × View} {w w' : World}
    (h : declare host n V i.declaration w = .ok r w') : r.1 = .normal ∧ 0 < n := by
  have hany {α : Type} (p : Run α) : Steady (fun _ => True) (fun _ => True) p fun _ => True :=
    ⟨fun _ _ => ⟨trivial, trivial⟩, fun _ _ => ⟨trivial, trivial⟩⟩
  -- Nothing is asked of the states, only of the result.
  have hsteady : Steady (fun _ => True) (fun _ => True) (declare host n V i.declaration)
      fun r => r.1 = .normal ∧ 0 < n := by
    cases i with
    | declares name value =>
      rw [Initializer.declaration]
      cases n with
      | zero =>
        rw [declare]
        exact .throw trivial
      | succ m =>
        rw [declare]
        refine (hany _).bind fun V _ => ?_
        cases value with
        | some e =>
          exact (hany _).bind fun _ _ => (hany _).bind fun _ _ => .pure ⟨rfl, m.succ_pos⟩
        | none =>
          exact (hany _).bind fun _ _ => (hany _).bind fun _ _ => .pure ⟨rfl, m.succ_pos⟩
    | evaluates e =>
      rw [Initializer.declaration, declare]
      cases n with
      | zero =>
        rw [exec]
        exact .throw trivial
      | succ m =>
        rw [exec, bind_assoc]
        exact (hany _).bind fun _ _ => .pure ⟨rfl, m.succ_pos⟩
  exact (hsteady.ok trivial h).2

/-- A `for` loop does what it stands for. -/
theorem inStep_forLoop (hbelow : ∀ k ≤ n, SideBySide host k) (init : Option Initializer)
    (condition increment : Option Expr) (body : Statement) (hx : x.Faithful) :
    pairing.InStep x
      (Lexical.exec host (n + 1) V (Tree.forLoop (init.map Initializer.tree) condition increment
        body.tree))
      (exec host (n + 1) V.names (.forLoop init condition increment body))
      fun r completion _ => r = (completion, V) := by
  rw [exec]
  cases init with
  | none => exact inStep_turns hbelow condition increment body hx
  | some i =>
    have hinit := inStep_and ((hbelow n (Nat.le_refl n)).declare (V := ⟨true, V.names⟩)
      (d := i.declaration) hx) (declare_initializer i)
    rw [i.declaration_tree] at hinit
    rw [Option.map_some, Tree.forLoop, Option.elim_some, Lexical.exec]
    refine inStep_among V ?_
    rw [Option.elim_some, bind_assoc]
    refine hinit.bind fun r r' y hy _ hr => ?_
    obtain ⟨hsame, hnormal, hpos⟩ := hr
    obtain rfl : r = r' := hsame
    obtain ⟨completion, W⟩ := r
    obtain rfl : completion = .normal := hnormal
    obtain ⟨m, rfl⟩ := Nat.exists_eq_add_one.mpr hpos
    -- The loop is the last statement in the scope of the initializer.
    exact inStep_last (inStep_turns (fun k hk => hbelow k (Nat.le_succ_of_le hk)) condition
      increment body hy)

/-! #### Expressions -/

theorem inStep_eval (h : SideBySide host n) (e : Expr) (hx : x.Faithful) :
    pairing.InStep x (Lexical.eval host (n + 1) V e) (eval host (n + 1) V.names e) Same := by
  -- Both evaluators have an expression in the same way; only calls come back to declarations.
  cases e with
  | literal value =>
    rw [Lexical.eval, eval]
    exact .pure hx rfl
  | grouping inner =>
    rw [Lexical.eval, eval]
    exact h.eval hx
  | unary op right =>
    rw [Lexical.eval, eval]
    refine (h.eval hx).next fun v y hy => ?_
    exact inStep_machine hy fun _ => keeps_applyUnary op v
  | binary left op right =>
    rw [Lexical.eval, eval]
    refine (h.eval hx).next fun a y hy => ?_
    refine (h.eval hy).next fun b z hz => ?_
    exact inStep_machine hz fun _ => keeps_applyBinary op a b
  | logical left op right =>
    rw [Lexical.eval, eval]
    refine (h.eval hx).next fun a y hy => ?_
    exact .ite Iff.rfl (.pure hy rfl) (h.eval hy)
  | var ref =>
    rw [Lexical.eval, eval]
    exact inStep_lift hx (.lookup V _)
  | assign target value =>
    rw [Lexical.eval, eval]
    refine (h.eval hx).next fun v y hy => ?_
    exact (inStep_lift hy (.assign V _ v)).next fun _ z hz => .pure hz rfl
  | call callee paren arguments =>
    rw [Lexical.eval, eval]
    refine (h.eval hx).next fun f y hy => ?_
    -- The view does not change among the arguments, so nothing is carried from one to the next.
    have harguments : pairing.InStep y (arguments.mapM (Lexical.eval host n V))
        (arguments.mapM (eval host n V.names)) fun vs vs' _ => vs = vs' ∧ ∀ v ∈ vs, True :=
      InStep.mapM (I := fun _ => True) (V := fun _ _ => True) (fun _ _ _ => trivial)
        (fun _ _ _ => trivial)
        (List.forall₂_same.mpr fun e _ z hz _ => (h.eval hz).imp fun _ _ _ _ _ hv => ⟨hv, trivial⟩)
        hy trivial
    refine harguments.bind fun vs vs' z hz _ hsame => ?_
    obtain ⟨rfl, -⟩ := hsame
    exact inStep_callValue host h.declare hz paren f vs
  | get object name =>
    rw [Lexical.eval, eval]
    refine (h.eval hx).next fun v y hy => ?_
    exact inStep_getProperty hy v name
  | set object name value =>
    rw [Lexical.eval, eval]
    refine (h.eval hx).next fun o y hy => ?_
    refine .ite Iff.rfl ((h.eval hy).next fun v z hz => ?_) (inStep_fail hy _ _)
    exact (inStep_machine hz fun _ => keeps_setProperty o name v).next fun _ w hw =>
      .pure hw rfl
  | thisRef ref =>
    rw [Lexical.eval, eval]
    exact inStep_lift hx (.lookup V _)
  | superRef ref method =>
    rw [Lexical.eval, eval]
    exact inStep_superMethod hx V method
  | _ =>
    rw [Lexical.eval, eval]
    exact .throw hx (.defect _)

/-! #### Statements and declarations -/

theorem inStep_exec (hbelow : ∀ k ≤ n, SideBySide host k) (s : Statement) (hx : x.Faithful) :
    pairing.InStep x (Lexical.exec host (n + 1) V s.tree) (exec host (n + 1) V.names s)
      fun r completion _ => r = (completion, V) := by
  have h := hbelow n (Nat.le_refl n)
  cases s with
  | expression e =>
    rw [Statement.tree, Lexical.exec, exec]
    exact (h.eval hx).next fun _ y hy => .pure hy rfl
  | print e =>
    rw [Statement.tree, Lexical.exec, exec]
    refine (h.eval hx).next fun v y hy => ?_
    refine inStep_ask ?_
    cases y.base.machine.heap.display? n v with
    | some text =>
      exact (inStep_machine hy fun _ => keeps_writeLine text).next fun _ z hz => .pure hz rfl
    | none => exact .throw hy .exhausted
  | block body =>
    rw [Statement.tree, Lexical.exec, exec]
    exact inStep_among V (inStep_runAll h.declare body _ hx)
  | ifElse condition s other =>
    cases other with
    | some t =>
      rw [Statement.tree, Lexical.exec, exec]
      refine (h.eval hx).next fun c y hy => ?_
      exact .ite Iff.rfl (h.exec hy) (h.exec hy)
    | none =>
      rw [Statement.tree, Lexical.exec, exec]
      refine (h.eval hx).next fun c y hy => ?_
      exact .ite Iff.rfl (h.exec hy) (.pure hy rfl)
  | whileLoop condition body =>
    rw [Statement.tree, Lexical.exec, exec]
    refine inStep_among V (inStep_repeating (fun {y} hy => ?_) (fun {y} hy => ?_) _ hx)
    · exact (h.eval hy).next fun c z hz => .pure hz rfl
    · exact inStep_fst (h.exec hy)
  -- The only statement whose tree is another one.
  | forLoop init condition increment body =>
    rw [Statement.tree]
    exact inStep_forLoop hbelow init condition increment body hx
  | breakLoop keyword =>
    rw [Statement.tree, Lexical.exec, exec]
    exact .pure hx rfl
  | returnWith keyword value =>
    cases value with
    | some e =>
      rw [Statement.tree, Lexical.exec, exec]
      refine (h.eval hx).next fun v y hy => ?_
      exact .pure hy rfl
    | none =>
      rw [Statement.tree, Lexical.exec, exec]
      exact .pure hx rfl

theorem inStep_statement {s : Statement}
    (h : pairing.InStep x (Lexical.exec host n V s.tree) (exec host n V.names s)
      fun r completion _ => r = (completion, V)) :
    pairing.InStep x (Lexical.exec host n V (Declaration.statement s).tree)
      (declare host n V (.statement s)) Same := by
  rw [Declaration.tree, declare, ← bind_pure (Lexical.exec host n V s.tree)]
  exact h.bind fun r c y hy _ hr => .pure hy hr

theorem inStep_declare (h : SideBySide host n) (d : Declaration)
    (hstatement : ∀ s : Statement, pairing.InStep x (Lexical.exec host (n + 1) V s.tree)
      (exec host (n + 1) V.names s) fun r completion _ => r = (completion, V))
    (hx : x.Faithful) :
    pairing.InStep x (Lexical.exec host (n + 1) V d.tree) (declare host (n + 1) V d) Same := by
  cases d with
  | statement s => exact inStep_statement (hstatement s)
  | varDecl name init =>
    rw [Declaration.tree, Lexical.exec, declare]
    refine (inStep_lift hx (.declare V _)).next fun V y hy => ?_
    -- The name is declared before its initializer is evaluated, and filled after it.
    have hfill {z : World} (hz : z.Faithful) (v : Value) : pairing.InStep z
        (V.fill name.lexeme v >>= fun _ => pure (Completion.normal, V))
        (lift (V.fill name.lexeme v) >>= fun _ => pure (Completion.normal, V)) Same :=
      (inStep_lift hz (.fill V _ v)).next fun _ u hu => .pure hu rfl
    cases init with
    | some e =>
      refine (h.eval hy).next fun v z hz => ?_
      exact hfill hz v
    | none => exact hfill hy .nil
  | funDecl f =>
    rw [Declaration.tree, Lexical.exec, declare]
    exact (inStep_declareFunction hx V f).next fun W y hy => .pure hy rfl
  | classDecl name superclass methods =>
    have hdeclare {y : World} (hy : y.Faithful) (parent : Option Nat) : pairing.InStep y
        (Lexical.declareClass V name parent (methods.map Routine.tree) >>= fun V =>
          pure (Completion.normal, V))
        (declareClass V name parent methods >>= fun V => pure (Completion.normal, V)) Same :=
      (inStep_declareClass hy V name parent methods).next fun W z hz => .pure hz rfl
    cases superclass with
    | none =>
      rw [Declaration.tree, Lexical.exec, declare]
      exact hdeclare hx none
    | some ref =>
      rw [Declaration.tree, Lexical.exec, declare]
      refine (inStep_lift hx (.lookup V _)).next fun v y hy => ?_
      cases v with
      | classRef parent => exact hdeclare hy (some parent)
      | _ => exact inStep_fail hy _ _

/-- Whatever frames there are, both sides go on together. -/
theorem sideBySide (host : Host) (n : Nat) : SideBySide host n := by
  -- By strong induction, as a loop leaves out frames of the scopes around it.
  induction n using Nat.strongRecOn with
  | _ n ih =>
    cases n with
    | zero =>
      have hexec {x V} {s : Statement} (hx : World.Faithful x) : pairing.InStep x
          (Lexical.exec host 0 V s.tree) (exec host 0 V.names s)
          fun r completion _ => r = (completion, V) := by
        rw [Lexical.exec, exec]
        exact .throw hx .exhausted
      refine ⟨fun hx => ?_, hexec, fun {x V d} hx => ?_⟩
      · rw [Lexical.eval, eval]
        exact .throw hx .exhausted
      · cases d with
        | statement s => exact inStep_statement (hexec hx)
        | _ =>
          rw [Lexical.exec, declare]
          exact .throw hx .exhausted
    | succ n =>
      have hbelow : ∀ k ≤ n, SideBySide host k := fun k hk => ih k (Nat.lt_succ_of_le hk)
      have h := hbelow n (Nat.le_refl n)
      exact ⟨fun {x V e} hx => inStep_eval h e hx, fun {x V s} hx => inStep_exec hbelow s hx,
        fun {x V d} hx => inStep_declare h d (fun s => inStep_exec hbelow s hx) hx⟩

end Frames

/-- What came of a statement, with the names around it and without the bodies. -/
def forget (V : View) :
    EStateM.Result Stop World Completion → EStateM.Result Stop Lexical.World (Completion × View)
  | .ok completion w => .ok (completion, V) w.base
  | .error e w => .error e w.base

/-- A statement comes to the same completion or stop as its tree, in the same state. -/
theorem exec_tree (host : Host) (n : Nat) (V : View) (s : Statement) {w : World}
    (h : w.Faithful) :
    Lexical.exec host n V s.tree w.base = forget V (exec host n V.names s w) := by
  rcases (sideBySide host n).exec (V := V) (s := s) h with ⟨r, c, y, hl, hr, -, -, hrc⟩ |
    ⟨e, e', y, hl, hr, -, -, he⟩ | ⟨hfalse, -⟩
  · exact hl.trans (hrc ▸ congrArg (forget V) hr.symm)
  · exact hl.trans (he.eq ▸ congrArg (forget V) hr.symm)
  · exact hfalse.elim

/-! ### Units and sessions -/

section Units

variable (host : Host) (settings : Settings) {x : World}

theorem tree_eq_expression {d : Declaration} {e : Expr} (h : d.tree = .expression e) :
    d = .statement (.expression e) := by
  cases d with
  | statement s =>
    rw [Declaration.tree] at h
    cases s with
    | expression f =>
      rw [Statement.tree, Stmt.expression.injEq] at h
      rw [h]
    | ifElse condition s other =>
      rw [Statement.tree_ifElse] at h
      injection h
    | forLoop init condition increment body =>
      rw [Statement.tree] at h
      -- A loop becomes a block or a `while` loop, with an initializer or without one.
      cases init with
      | none => injection h
      | some i => injection h
    | _ =>
      rw [Statement.tree] at h
      injection h
  | _ =>
    rw [Declaration.tree] at h
    injection h

theorem inStep_runTopLevel (levels : Nat) (record : Bool) (d : Declaration) (hx : x.Faithful) :
    pairing.InStep x (Lexical.runTopLevel host levels record d.tree)
      (runTopLevel host levels record d) Same := by
  have h := sideBySide host levels
  refine inStep_catchExhausted _ ?_
  by_cases hshown : record = true ∧ ∃ e, d = .statement (.expression e)
  · obtain ⟨rfl, e, rfl⟩ := hshown
    rw [Declaration.tree, Statement.tree]
    refine (h.eval hx).next fun v y hy => ?_
    refine inStep_ask ?_
    cases y.base.machine.heap.display? levels v with
    | some text => exact .pure hy rfl
    | none => exact .throw hy .exhausted
  · have hrun : pairing.InStep x (Lexical.exec host levels {} d.tree >>= fun _ => pure none)
        (declare host levels {} d >>= fun _ => pure none) (Same (α := Option String)) :=
      (h.declare hx).next fun _ y hy => .pure hy rfl
    split
    · exact absurd ⟨rfl, _, tree_eq_expression ‹_›⟩ hshown
    · split
      · exact absurd ⟨rfl, _, rfl⟩ hshown
      · exact hrun

theorem runProgram_tree (levels : Nat) (record : Bool) (ds : List Declaration) :
    ∀ {x : World} (value : Option String), x.Faithful → ∃ ending value' y,
      Lexical.runStatements host levels record (ds.map Declaration.tree) value x.base =
        (ending, value', y.base) ∧
      runProgram host levels record ds value x = (ending, value', y) ∧ y.Faithful := by
  induction ds with
  | nil => exact fun {x} value hx => ⟨.finished, value, x, rfl, rfl, hx⟩
  | cons d ds ih =>
    intro x value hx
    rw [List.map_cons, Lexical.runStatements, runProgram]
    rcases inStep_runTopLevel host levels record d hx with
      ⟨text, text', y, hl, hr, hy, -, hsame⟩ | ⟨e, e', y, hl, hr, hy, -, he⟩ | ⟨hfalse, -⟩
    · obtain rfl : text = text' := hsame
      change Lexical.runTopLevel host levels record d.tree x.base = _ at hl
      change runTopLevel host levels record d x = _ at hr
      rw [hl, hr]
      exact ih _ hy
    · obtain rfl : e = e' := he.eq
      change Lexical.runTopLevel host levels record d.tree x.base = _ at hl
      change runTopLevel host levels record d x = _ at hr
      rw [hl, hr]
      exact ⟨_, value, y, rfl, rfl, hy⟩
    · exact hfalse.elim

theorem interpret_tree (ds : List Declaration) (hx : x.Faithful) :
    ∃ result y, Lexical.interpret host settings (ds.map Declaration.tree) x.base =
        (result, y.base) ∧
      interpret host settings ds x = (result, y) ∧ y.Faithful := by
  have hquiet : World.Faithful { x with base := x.base.quiet } := hx.congr rfl
  obtain ⟨ending, value, y, hl, hr, hy⟩ :=
    runProgram_tree host (settings.frames host / framesPerLevel) settings.replMode ds none hquiet
  simp only [Lexical.interpret, interpret, hl, hr]
  exact ⟨_, y, rfl, rfl, hy⟩

/-- What the parser builds from a source is the tree of the source as it is written. -/
theorem read_tree (source : Source) :
    Lexical.read host settings source.file source.text =
      (read host settings source.file source.text).map Declaration.tree :=
  parse_tree _ _ _ _

theorem run_tree (source : Source) (hx : x.Faithful) :
    ∃ result y, Lexical.run host settings source.file source.text x.base = (result, y.base) ∧
      run host settings source.file source.text x = (result, y) ∧ y.Faithful := by
  unfold Lexical.run run
  split
  · exact ⟨_, x, rfl, rfl, hx⟩
  · rw [read_tree]
    exact interpret_tree host settings _ hx

theorem runSources_tree (sources : List Source) : ∀ {x : World}, x.Faithful →
    (Lexical.runSources host settings sources x.base).2 =
      (runSources host settings sources x).2.base ∧
    (runSources host settings sources x).2.Faithful := by
  induction sources with
  | nil => exact fun hx => ⟨rfl, hx⟩
  | cons source sources ih =>
    intro x hx
    obtain ⟨result, y, hl, hr, hy⟩ := run_tree host settings source hx
    rw [Lexical.runSources, runSources, hl, hr]
    exact ih hy

end Units

open Lexical in
/-- Reading a `for` loop as blocks and a `while` loop keeps its meaning.  Whatever sources were
run before, a source does the same when its loops are run as they are written: it prints the
same, ends in the same way, at the same fault and token if it has one, shows the same value,
and leaves the same globals with the same texts and the same values in all other variables.
The parser builds the trees of what is written, and in any state, among any names and with any
number of frames, the tree of a loop comes to the same completion or stop as the loop, on the
same objects and cells. -/
theorem run_desugared (host : Host) (settings : Settings) (sources : List Source)
    (source : Source) :
    let s := (Session.runSources host settings sources .start).2
    let w := (Written.runSources host settings sources .initial).2
    let outcome := s.run host settings source.file source.text
    let direct := Written.run host settings source.file source.text w
    (outcome.1.output, outcome.1.ending, outcome.1.value) = direct.1 ∧
    outcome.2.globalNames = Forest.sortedNames direct.2.base.globals ∧
    (∀ frames name, outcome.2.globalText? frames name =
      (direct.2.base.globals.get? name).map (direct.2.base.machine.heap.display? frames)) ∧
    (∃ x : Snapshot, x.machine = outcome.2.machine ∧ x.world = direct.2.base ∧
      Abreast Token.Itself "" x) ∧
    Lexical.read host settings source.file source.text =
      (Written.read host settings source.file source.text).map Declaration.tree ∧
    w.Faithful ∧ direct.2.Faithful ∧
    ∀ w' : Written.World, w'.Faithful → ∀ n V init condition increment body,
      Lexical.exec host n V (Tree.forLoop (init.map Initializer.tree) condition increment
          body.tree) w'.base =
        forget V (Written.exec host n V.names (.forLoop init condition increment body) w') := by
  obtain ⟨x, hs, hw, hx⟩ := runSources_abreast host settings sources (abreast_initial Token.Itself)
  obtain ⟨hbase, hfaithful⟩ := runSources_tree host settings sources faithful_initial
  obtain ⟨result, y, hrun, hlexical, hy, -⟩ := run_abreast host settings source hx
  obtain ⟨result', z, htree, hdirect, hz⟩ := run_tree host settings source hfaithful
  have hstart : Session.start = ⟨Snapshot.initial.machine⟩ := rfl
  have hinitial : Written.World.initial.base = Snapshot.initial.world := rfl
  -- The session and the loops as they are written both agree with the cells of `x`.
  rw [← hbase, hinitial, hw, hlexical] at htree
  obtain ⟨hresult, hworld⟩ := Prod.mk.inj htree
  simp only [hstart, hs, hrun, hdirect, ← hworld]
  obtain ⟨hnames, htexts⟩ := globals_of_abreast Token.Itself.alike hy
  refine ⟨hresult, hnames, htexts, ⟨y, rfl, rfl, hy⟩, read_tree host settings source, hfaithful,
    hz, fun w' hw' n V init condition increment body => ?_⟩
  rw [← exec_tree host n V _ hw', Statement.tree]

/-- The body of a loop declares a variable with the name of the one in the header.  The loop
ends, so the increment changes the one in the header. -/
def shadowing : Source where
  text := "for (var a = true; a; a = nil) \x7b var a = false; print a; \x7d"

theorem run_desugared_shadowing :
    (check .small {} none shadowing.text).report.hasErrors = false ∧ World.initial.Faithful ∧
    (run .small {} none shadowing.text .initial).1.1 = "false\n" ∧
    (run .small {} none shadowing.text .initial).1.2.1 = .finished ∧
    ∀ n, Lexical.exec .small n {} (Tree.forLoop none none none (.breakLoop default)) .initial =
      forget {} (exec .small n [] (.forLoop none none none (.breakLoop default)) .initial) := by
  have hsame := run_desugared .small {} [] shadowing
  have hresult := hsame.1
  obtain ⟨-, -, -, -, -, -, hloops⟩ := hsame.2
  have hrun : (Session.run .small {} none shadowing.text .start).1.output = "false\n" ∧
      (Session.run .small {} none shadowing.text .start).1.isFinished = true := by
    decide +kernel
  have hloop (n : Nat) := hloops .initial faithful_initial n {} none none none
    (.breakLoop default)
  refine ⟨by decide +kernel, faithful_initial, ?_, ?_, fun n => ?_⟩
  · exact (congrArg Prod.fst hresult).symm.trans hrun.1
  · exact (congrArg (fun r => r.2.1) hresult).symm.trans (RunResult.ending_of_isFinished hrun.2)
  · rw [← Statement.tree]
    exact hloop n

end Lox.Written
