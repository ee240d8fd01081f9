/-
Programs whose names are well placed.

Every node of a program stands inside of blocks, functions and methods.  Whether the
program is well scoped is a matter of its nodes and of what is around them, one at a time:
no walk over the program and no state is needed to say it.

* `Site`, `Site.parts` — a node with what is around it, and the nodes right below it;
* `Site.Holds`, `Occurs` — the nodes of a tree, and of a program;
* `Stmt.declared`, `declaredIn` — the names that statements declare in the scope around them;
* `WellScoped` — the rules;
* `Site.Within` — the calls that resolving a tree makes inside of each other, at most so many;
* `Site.Everywhere`, `Site.Checks` — what is so at every node, and this together with
  `Site.Within`;
* `Site.Fine`, `wellScoped_iff` — the rules, node by node.
-/
import Lox.Tree.FirstToken
import Mathlib.Logic.Relation

namespace Lox

/-- The expressions right below an expression. -/
@[simp]
def Expr.parts : Expr → List Expr
  | .grouping inner => [inner]
  | .unary _ right => [right]
  | .binary left _ right | .logical left _ right => [left, right]
  | .assign _ value => [value]
  | .call callee _ arguments => callee :: arguments
  | .get object _ => [object]
  | .set object _ value => [value, object]
  | .literal _ | .var _ | .thisRef _ | .superRef .. | .blank _ | .bare _ | .misplaced _ => []

/-- The names that a statement declares in the scope around it.  The branches of a condition
and the body of a loop have no scope of their own. -/
@[simp]
def Stmt.declared : Stmt → List String
  | .varDecl name _ => [name.lexeme]
  | .funDecl f => [f.name.lexeme]
  | .classDecl name _ _ => [name.lexeme]
  | .ifElse _ s none => s.declared
  | .ifElse _ s (some t) => s.declared ++ t.declared
  | .whileLoop _ s => s.declared
  | .expression _ | .print _ | .block _ | .breakLoop _ | .returnWith .. | .misplaced _ => []

/-- The names that a list of statements declares. -/
def declaredIn (body : List Stmt) : List String :=
  body.flatMap Stmt.declared

/-- No name is declared twice in a function, whose parameters and body are one scope. -/
def Function.Distinct (f : Function) : Prop :=
  (f.params.map (·.lexeme) ++ declaredIn f.body).Nodup

namespace Scope

/-- What may be around a node. -/
inductive Layer where
  | block
  | function
  /-- A method; of a class with a superclass, if so. -/
  | method (inherits : Bool)

/-- Whether the class of a method has a superclass. -/
def Layer.inherits? : Layer → Option Bool
  | .method inherits => some inherits
  | .block | .function => none

/-- A node, and what is around it, from the inside out. -/
structure Site where
  around : List Layer
  node : Node

namespace Site

/-- The nodes right below a node. -/
@[simp]
def parts : Site → List Site
  | ⟨around, .expr e⟩ => e.parts.map fun e => ⟨around, .expr e⟩
  | ⟨around, .stmt s⟩ =>
    match s with
    | .expression e | .print e => [⟨around, .expr e⟩]
    | .varDecl _ init => init.toList.map fun e => ⟨around, .expr e⟩
    | .block body => body.map fun s => ⟨.block :: around, .stmt s⟩
    | .ifElse condition thenBranch elseBranch =>
      ⟨around, .expr condition⟩ :: ⟨around, .stmt thenBranch⟩ ::
        elseBranch.toList.map fun s => ⟨around, .stmt s⟩
    | .whileLoop condition body => [⟨around, .expr condition⟩, ⟨around, .stmt body⟩]
    | .funDecl f => f.body.map fun s => ⟨.function :: around, .stmt s⟩
    | .returnWith _ value => value.toList.map fun e => ⟨around, .expr e⟩
    | .classDecl _ superclass methods =>
      methods.flatMap fun m =>
        m.body.map fun s => ⟨.method superclass.isSome :: around, .stmt s⟩
    | .breakLoop _ | .misplaced _ => []

/-- A node is another one, or it is somewhere below it. -/
def Holds : Site → Site → Prop :=
  Relation.ReflTransGen fun t part => part ∈ t.parts

/-- A variable of some name is read in a tree. -/
def Reads (t : Site) (name : String) : Prop :=
  ∃ around ref, t.Holds ⟨around, .expr (.var ref)⟩ ∧ ref.name = name

/-- How many calls inside of each other resolving takes at a node, its parts apart: to
declare a name or to open a scope, and before that to enter a function or a class. -/
@[simp]
def calls (t : Site) : Nat :=
  match t.node with
  | .stmt (.block _) | .stmt (.varDecl ..) => 1
  | .stmt (.funDecl _) | .stmt (.classDecl _ _ []) => 2
  | .stmt (.classDecl _ _ (_ :: _)) => 3
  | _ => 0

theorem calls_classDecl_le {around : List Layer} {name : Token} {superclass : Option Reference}
    {methods : List Function} {n : Nat} :
    calls ⟨around, .stmt (.classDecl name superclass methods)⟩ ≤ n ↔
      1 < n ∧ ∀ m ∈ methods, 2 < n := by
  cases methods with
  | nil => simp [Nat.succ_le_iff]
  | cons m methods =>
    simp only [calls, List.forall_mem_cons]
    exact ⟨fun h => ⟨by omega, h, fun _ _ => h⟩, fun h => h.2.1⟩

/-- How many calls lie between a node and its parts: for the statements of a block or a body,
for a function and for a class. -/
@[simp]
def between (t : Site) : Nat :=
  match t.node with
  | .stmt (.block _) => 1
  | .stmt (.funDecl _) => 2
  | .stmt (.classDecl ..) => 3
  | _ => 0

/-- Resolving a tree takes at most so many calls inside of each other, one for each node and
those that belong to it. -/
inductive Within : Nat → Site → Prop
  | node {n : Nat} {t : Site} (hcalls : t.calls ≤ n)
      (hparts : ∀ part ∈ t.parts, Within (n - t.between) part) : Within (n + 1) t

theorem not_within_zero (t : Site) : ¬t.Within 0 := by
  rintro ⟨⟩

theorem within_succ {n : Nat} {t : Site} :
    t.Within (n + 1) ↔ t.calls ≤ n ∧ ∀ part ∈ t.parts, part.Within (n - t.between) :=
  ⟨fun h => by cases h with | node hcalls hparts => exact ⟨hcalls, hparts⟩,
    fun ⟨hcalls, hparts⟩ => .node hcalls hparts⟩

end Site

/-- A node is somewhere in a program. -/
def Occurs (program : List Stmt) (around : List Layer) (n : Node) : Prop :=
  ∃ s ∈ program, Site.Holds ⟨[], .stmt s⟩ ⟨around, n⟩

/-- The rules of scoping.  At the top level there is nothing around a declaration, so a
variable may be read in its own initializer there, and names may be declared again. -/
structure WellScoped (program : List Stmt) : Prop where
  /-- No local variable is read in its own initializer. -/
  initializers : ∀ around name init, Occurs program around (.stmt (.varDecl name (some init))) →
    around ≠ [] → ¬Site.Reads ⟨around, .expr init⟩ name.lexeme
  /-- No name is declared twice in a block. -/
  blocks : ∀ around body, Occurs program around (.stmt (.block body)) → (declaredIn body).Nodup
  /-- No name is declared twice in a function. -/
  functions : ∀ around f, Occurs program around (.stmt (.funDecl f)) → f.Distinct
  /-- No name is declared twice in a method. -/
  methods : ∀ around name superclass ms,
    Occurs program around (.stmt (.classDecl name superclass ms)) → ∀ m ∈ ms, m.Distinct
  /-- A `return` is inside of a function or a method. -/
  returns : ∀ around keyword value, Occurs program around (.stmt (.returnWith keyword value)) →
    .function ∈ around ∨ ∃ inherits, .method inherits ∈ around
  /-- `this` is inside of a method of some class. -/
  this : ∀ around ref, Occurs program around (.expr (.thisRef ref)) →
    ∃ inherits, .method inherits ∈ around
  /-- `super` is inside of a class, and the innermost one around it has a superclass. -/
  super : ∀ around ref method, Occurs program around (.expr (.superRef ref method)) →
    around.findSome? Layer.inherits? = some true
  /-- No class is its own superclass. -/
  classes : ∀ around name ref ms, Occurs program around (.stmt (.classDecl name (some ref) ms)) →
    ref.name ≠ name.lexeme

/-! ### Node by node -/

namespace Site

variable {P Q : Site → Prop} {t : Site}

/-- Something is so at every node of a tree. -/
def Everywhere (P : Site → Prop) (t : Site) : Prop :=
  ∀ u, t.Holds u → P u

theorem everywhere_iff : t.Everywhere P ↔ P t ∧ ∀ part ∈ t.parts, part.Everywhere P := by
  refine ⟨fun h => ⟨h t .refl, fun part hpart u hu => h u (.head hpart hu)⟩, ?_⟩
  rintro ⟨ht, hparts⟩ u hu
  rcases hu.cases_head with rfl | ⟨part, hpart, hu⟩
  · exact ht
  · exact hparts part hpart u hu

theorem everywhere_and : t.Everywhere (fun u => P u ∧ Q u) ↔ t.Everywhere P ∧ t.Everywhere Q :=
  ⟨fun h => ⟨fun u hu => (h u hu).1, fun u hu => (h u hu).2⟩,
    fun ⟨hP, hQ⟩ u hu => ⟨hP u hu, hQ u hu⟩⟩

/-- A tree needs at most so many calls, and something is so at each of its nodes. -/
def Checks (P : Site → Prop) (n : Nat) (t : Site) : Prop :=
  t.Within n ∧ t.Everywhere P

@[simp]
theorem checks_zero : ¬t.Checks P 0 :=
  fun h => not_within_zero t h.1

@[simp]
theorem checks_succ {n : Nat} : t.Checks P (n + 1) ↔
    t.calls ≤ n ∧ P t ∧ ∀ part ∈ t.parts, part.Checks P (n - t.between) := by
  unfold Checks
  rw [within_succ, everywhere_iff]
  refine ⟨fun ⟨⟨hcalls, hwithin⟩, ht, hparts⟩ => ⟨hcalls, ht, fun part hpart =>
    ⟨hwithin part hpart, hparts part hpart⟩⟩, fun ⟨hcalls, ht, hparts⟩ => ⟨⟨hcalls,
    fun part hpart => (hparts part hpart).1⟩, ht, fun part hpart => (hparts part hpart).2⟩⟩

/-- The rules for one node. -/
@[simp]
def Fine : Site → Prop
  | ⟨around, .expr e⟩ =>
    match e with
    | .thisRef _ => ∃ inherits, .method inherits ∈ around
    | .superRef _ _ => around.findSome? Layer.inherits? = some true
    | _ => True
  | ⟨around, .stmt s⟩ =>
    match s with
    | .varDecl name (some init) => around ≠ [] → ¬Reads ⟨around, .expr init⟩ name.lexeme
    | .block body => (declaredIn body).Nodup
    | .funDecl f => f.Distinct
    | .classDecl name superclass methods =>
      (∀ ref ∈ superclass, ref.name ≠ name.lexeme) ∧ ∀ m ∈ methods, m.Distinct
    | .returnWith _ _ => .function ∈ around ∨ ∃ inherits, .method inherits ∈ around
    | _ => True

end Site

/-- A program is well scoped if and only if all of its nodes are fine. -/
theorem wellScoped_iff {program : List Stmt} :
    WellScoped program ↔ ∀ s ∈ program, Site.Everywhere Site.Fine ⟨[], .stmt s⟩ := by
  constructor
  · rintro h s hs ⟨around, node⟩ hholds
    have hoccurs : Occurs program around node := ⟨s, hs, hholds⟩
    -- Each rule is about one kind of node, and other nodes are fine.
    cases node with
    | expr e =>
      cases e with
      | thisRef ref => exact h.this around ref hoccurs
      | superRef ref method => exact h.super around ref method hoccurs
      | _ => trivial
    | stmt s =>
      cases s with
      | varDecl name init =>
        cases init with
        | none => trivial
        | some init => exact h.initializers around name init hoccurs
      | block body => exact h.blocks around body hoccurs
      | funDecl f => exact h.functions around f hoccurs
      | classDecl name superclass methods =>
        refine ⟨?_, h.methods around name superclass methods hoccurs⟩
        rintro ref ⟨⟩
        exact h.classes around name ref methods hoccurs
      | returnWith keyword value => exact h.returns around keyword value hoccurs
      | _ => trivial
  · intro h
    have hfine : ∀ {around node}, Occurs program around node → Site.Fine ⟨around, node⟩ :=
      fun ⟨s, hs, hholds⟩ => h s hs _ hholds
    exact
      { initializers := fun _ _ _ ho => hfine ho
        blocks := fun _ _ ho => hfine ho
        functions := fun _ _ ho => hfine ho
        methods := fun _ _ _ _ ho => (hfine ho).2
        returns := fun _ _ _ ho => hfine ho
        this := fun _ _ ho => hfine ho
        super := fun _ _ _ ho => hfine ho
        classes := fun _ _ ref _ ho => (hfine ho).1 ref rfl }

end Scope

end Lox
