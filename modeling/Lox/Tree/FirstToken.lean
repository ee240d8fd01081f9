/-
A token to report a whole tree at.

The nodes of a tree are searched level by level from the root, each level from
left to right, for the first that holds a token.

* `Node.token?` — the token that a node itself holds;
* `Node.children` — the nodes right below one that holds no token;
* `firstToken` — the first token of a tree, or the end of an empty text for a
  tree that holds none.
-/
import Lox.Tree

namespace Lox

/-- A node of a tree. -/
inductive Node where
  | expr (e : Expr)
  | stmt (s : Stmt)

mutual

/-- The token an expression itself holds. -/
def Expr.token? : Expr → Option Token
  | .unary op _ => some op
  | .binary _ op _ => some op
  | .logical _ op _ => some op
  | .var ref => some ref.token
  | .assign target _ => some target.token
  | .call _ paren _ => some paren
  | .get _ name => some name
  | .set _ name _ => some name
  | .thisRef ref => some ref.token
  | .superRef ref _ => some ref.token
  | .misplaced s => s.token?
  | .literal _ | .grouping _ | .blank _ | .bare _ => none

/-- The token a statement itself holds. -/
def Stmt.token? : Stmt → Option Token
  | .varDecl name _ => some name
  | .breakLoop keyword => some keyword
  | .funDecl f => some f.name
  | .returnWith keyword _ => some keyword
  | .classDecl name _ _ => some name
  | .misplaced e => e.token?
  | .expression _ | .print _ | .block _ | .ifElse .. | .whileLoop .. => none

end

mutual

/-- The nodes right below an expression that holds no token. -/
def Expr.children : Expr → List Node
  | .grouping e => [.expr e]
  | .misplaced s => s.children
  | _ => []

/-- The nodes right below a statement that holds no token. -/
def Stmt.children : Stmt → List Node
  | .expression e => [.expr e]
  | .print e => [.expr e]
  | .block body => body.map .stmt
  | .ifElse c t none => [.expr c, .stmt t]
  | .ifElse c t (some e) => [.expr c, .stmt t, .stmt e]
  | .whileLoop c body => [.expr c, .stmt body]
  | .misplaced e => e.children
  | _ => []

end

namespace Node

/-- The token a node itself holds. -/
def token? : Node → Option Token
  | expr e => e.token?
  | stmt s => s.token?

/-- The nodes right below one that holds no token. -/
def children : Node → List Node
  | expr e => e.children
  | stmt s => s.children

/-- The size of the tree below a node, the node included. -/
noncomputable def weight : Node → Nat
  | expr e => sizeOf e
  | stmt s => sizeOf s

/-- The size of several trees together. -/
noncomputable def weights : (level : List Node) → Nat
  | [] => 0
  | n :: rest => n.weight + weights rest

theorem weights_append (above below : List Node) :
    weights (above ++ below) = weights above + weights below := by
  induction above with
  | nil => simp [weights]
  | cons n rest ih =>
    simp only [List.cons_append, weights, ih]
    omega

theorem weights_map_stmt (body : List Stmt) : weights (body.map .stmt) < sizeOf body := by
  induction body with
  | nil => simp [weights]
  | cons s rest ih =>
    simp only [List.map_cons, weights, weight, List.cons.sizeOf_spec]
    omega

mutual

theorem weights_exprChildren (e : Expr) : weights e.children < sizeOf e := by
  cases e with
  | grouping e => simp [Expr.children, weights, weight]
  | misplaced s =>
    have := weights_stmtChildren s
    simp only [Expr.children, Expr.misplaced.sizeOf_spec]
    omega
  | _ => simp [Expr.children, weights]; try omega

theorem weights_stmtChildren (s : Stmt) : weights s.children < sizeOf s := by
  cases s with
  | block body =>
    have := weights_map_stmt body
    simp only [Stmt.children, Stmt.block.sizeOf_spec]
    omega
  | ifElse c t e =>
    cases e with
    | none =>
      simp only [Stmt.children, weights, weight, Stmt.ifElse.sizeOf_spec]
      omega
    | some e =>
      simp only [Stmt.children, weights, weight, Stmt.ifElse.sizeOf_spec, Option.some.sizeOf_spec]
      omega
  | misplaced e =>
    have := weights_exprChildren e
    simp only [Stmt.children, Stmt.misplaced.sizeOf_spec]
    omega
  | _ => simp [Stmt.children, weights, weight]; try omega

end

/-- The trees below a node are smaller than the tree of the node. -/
theorem weights_children (n : Node) : weights n.children < n.weight := by
  cases n with
  | expr e => exact weights_exprChildren e
  | stmt s => exact weights_stmtChildren s

/-- One level down, the trees are smaller. -/
theorem weights_flatMap_children_le (level : List Node) :
    weights (level.flatMap children) + level.length ≤ weights level := by
  induction level with
  | nil => simp [weights]
  | cons n rest ih =>
    have := weights_children n
    simp only [List.flatMap_cons, weights_append, weights, List.length_cons]
    omega

/-- The first token held on a level or, if there is none, on the levels below
it. -/
def firstTokenFrom (level : List Node) : Option Token :=
  match level with
  | [] => none
  | n :: rest =>
    match (n :: rest).findSome? token? with
    | some t => some t
    | none => firstTokenFrom ((n :: rest).flatMap children)
termination_by weights level
decreasing_by
  have := weights_flatMap_children_le (n :: rest)
  simp only [List.length_cons] at this
  omega

/-- The token to report a tree at. -/
def firstToken (n : Node) : Token :=
  (firstTokenFrom [n]).getD Token.endOfNothing

end Node

end Lox
