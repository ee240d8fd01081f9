/-
The search for a token of a tree, node by node.

The nodes that are still to be looked at wait in a queue.  The first of them is taken out,
and what is stored in it is looked at in order: a token ends the search, and nodes are put
at the end of the queue.  So the nodes come level by level, each level from left to right,
although one level is already being left while the next one is only half known.

* `Node.Field`, `Node.fields` — what is stored in a node, in order;
* `Node.held?`, `Node.stored`, `Node.below` — the first token of a node, all of its tokens,
  and the nodes right below it;
* `Node.levels`, `Node.Nearest` — the nodes that are so many levels down, and the first token
  when they are gone through level by level;
* `Node.search` — the search, with a bound on the nodes that are taken out;
* `search_firstTokenFrom` — it ends, with what is found level by level;
* `firstTokenFrom_some`, `firstTokenFrom_none` — what is found, and when nothing is.
-/
import Lox.Tree.FirstToken

namespace Lox

/-! ### Nodes and what is stored in them -/

/-- What is stored in a node. -/
inductive Node.Field where
  | token (t : Token)
  | tokens (ts : List Token)
  | node (n : Node)
  | nodes (ns : List Node)
  /-- A value, or nothing. -/
  | plain

namespace Node.Field

/-- A node that may be missing. -/
def optional : Option Node → Field
  | some n => node n
  | none => plain

/-- A token that is stored by itself. -/
def token? : Field → Option Token
  | token t => some t
  | _ => none

/-- The tokens that are stored, alone or in a list. -/
def stored : Field → List Token
  | token t => [t]
  | tokens ts => ts
  | _ => []

/-- The nodes that are stored, alone or in a list. -/
def below : Field → List Node
  | node n => [n]
  | nodes ns => ns
  | _ => []

end Node.Field

open Node.Field

mutual

/-- What is stored in an expression. -/
def Expr.fields : Expr → List Node.Field
  | .literal _ => [plain]
  | .grouping inner => [node (.expr inner)]
  | .unary op right => [token op, node (.expr right)]
  | .binary left op right | .logical left op right =>
    [node (.expr left), token op, node (.expr right)]
  | .var ref => [token ref.token]
  | .assign target value => [token target.token, node (.expr value)]
  | .call callee paren arguments =>
    [node (.expr callee), token paren, nodes (arguments.map .expr)]
  | .get object name => [node (.expr object), token name]
  | .set object name value => [node (.expr object), token name, node (.expr value)]
  | .thisRef ref => [token ref.token]
  | .superRef ref method => [token ref.token, token method]
  | .misplaced s => s.fields
  | .blank _ | .bare _ => []

/-- What is stored in a statement.  A method is a declaration of its own. -/
def Stmt.fields : Stmt → List Node.Field
  | .expression e | .print e => [node (.expr e)]
  | .varDecl name init => [token name, optional (init.map .expr)]
  | .block body => [nodes (body.map .stmt)]
  | .ifElse condition thenBranch elseBranch =>
    [node (.expr condition), node (.stmt thenBranch), optional (elseBranch.map .stmt)]
  | .whileLoop condition body => [node (.expr condition), node (.stmt body)]
  | .breakLoop keyword => [token keyword]
  | .funDecl f => [token f.name, tokens f.params, nodes (f.body.map .stmt)]
  | .returnWith keyword value => [token keyword, optional (value.map .expr)]
  | .classDecl name superclass methods =>
    [token name, optional (superclass.map fun ref => .expr (.var ref)),
      nodes (methods.map fun f => .stmt (.funDecl f))]
  | .misplaced e => e.fields

end

namespace Node

/-- What is stored in a node. -/
def fields : Node → List Field
  | expr e => e.fields
  | stmt s => s.fields

/-- The first token that is stored in a node by itself. -/
def held? (n : Node) : Option Token :=
  n.fields.findSome? Field.token?

/-- The tokens that are stored in a node, those in lists included. -/
def stored (n : Node) : List Token :=
  n.fields.flatMap Field.stored

/-- The nodes right below a node. -/
def below (n : Node) : List Node :=
  n.fields.flatMap Field.below

/-- The nodes so many levels below some that stand on one level. -/
def levels (level : List Node) : (depth : Nat) → List Node
  | 0 => level
  | depth + 1 => levels (level.flatMap below) depth

/-- The nodes of a tree so many levels below its root. -/
abbrev level (n : Node) (depth : Nat) : List Node :=
  levels [n] depth

/-- A token is the first one of the first node that has any, where the nodes come level by
level and each level from left to right. -/
def Nearest (n : Node) (t : Token) : Prop :=
  ∃ depth before m after, n.level depth = before ++ m :: after ∧ m.held? = some t ∧
    (∀ left ∈ before, left.stored = []) ∧
    ∀ higher < depth, ∀ above ∈ n.level higher, above.stored = []

/-! ### The search -/

/-- Looks at what is stored in a node.  A token ends the search; nodes wait behind those
that wait already. -/
def scan : List Field → (pending : List Node) → Token ⊕ List Node
  | [], pending => .inr pending
  | .token t :: _, _ => .inl t
  | .node n :: rest, pending => scan rest (pending ++ [n])
  | .nodes ns :: rest, pending => scan rest (pending ++ ns)
  | .tokens _ :: rest, pending | .plain :: rest, pending => scan rest pending

/-- Looks at the nodes that wait, and at those that come to wait, until a token is found or
none are left; none if that takes more turns than allowed. -/
def search : (turns : Nat) → (pending : List Node) → Option (Option Token)
  | _, [] => some none
  | 0, _ :: _ => none
  | turns + 1, n :: rest =>
    match scan n.fields rest with
    | .inl t => some (some t)
    | .inr pending => search turns pending

theorem scan_token {fs : List Field} {t : Token} (h : fs.findSome? Field.token? = some t)
    (pending : List Node) : scan fs pending = .inl t := by
  induction fs generalizing pending with
  | nil => cases h
  | cons f fs ih =>
    cases f with
    | token u =>
      cases h
      rfl
    | node n => exact ih h _
    | nodes ns => exact ih h _
    | tokens ts => exact ih h _
    | plain => exact ih h _

theorem scan_nodes {fs : List Field} (h : fs.findSome? Field.token? = none)
    (pending : List Node) : scan fs pending = .inr (pending ++ fs.flatMap Field.below) := by
  induction fs generalizing pending with
  | nil => rw [scan, List.flatMap_nil, List.append_nil]
  | cons f fs ih =>
    cases f with
    | token u => cases h
    | node n =>
      rw [scan, ih h, List.flatMap_cons, List.append_assoc]
      rfl
    | nodes ns =>
      rw [scan, ih h, List.flatMap_cons, List.append_assoc]
      rfl
    | tokens ts => exact ih h _
    | plain => exact ih h _

theorem search_nil (turns : Nat) : search turns [] = some none := by
  rw [search]

/-- More turns than are needed do not change what is found. -/
theorem search_of_le {turns more : Nat} (hle : turns ≤ more) {pending : List Node}
    {found : Option Token} (h : search turns pending = some found) :
    search more pending = some found := by
  induction turns generalizing pending more with
  | zero =>
    cases pending with
    | nil => rwa [search_nil] at h ⊢
    | cons n rest => cases h
  | succ turns ih =>
    cases pending with
    | nil => rwa [search_nil] at h ⊢
    | cons n rest =>
      cases more with
      | zero => exact absurd hle (Nat.not_succ_le_zero turns)
      | succ more =>
        rw [search] at h ⊢
        split at h
        · exact h
        · exact ih (Nat.le_of_succ_le_succ hle) h

/-- A node without a token gives its place in the queue to the nodes below it. -/
theorem search_cons {n : Node} (h : n.held? = none) (turns : Nat) (rest : List Node) :
    search (turns + 1) (n :: rest) = search turns (rest ++ n.below) := by
  have hscan : scan n.fields rest = .inr (rest ++ n.below) := scan_nodes h rest
  rw [search, hscan]

/-- A level without a token is replaced by the next one, behind what waits already. -/
theorem search_level {level : List Node} (h : ∀ n ∈ level, n.held? = none) (turns : Nat) :
    ∀ next, search (turns + level.length) (level ++ next) =
      search turns (next ++ level.flatMap below) := by
  induction level with
  | nil => simp
  | cons n level ih =>
    intro next
    rw [List.forall_mem_cons] at h
    rw [List.length_cons, List.cons_append, ← Nat.add_assoc, search_cons h.1, List.append_assoc,
      ih h.2, List.flatMap_cons, List.append_assoc]

/-- The first token of a level is found before anything that waits behind the level. -/
theorem search_found {level : List Node} {t : Token} (h : level.findSome? held? = some t) :
    ∃ turns, search turns level = some (some t) := by
  obtain ⟨before, n, after, rfl, hn, hbefore⟩ := List.findSome?_eq_some_iff.mp h
  refine ⟨1 + before.length, ?_⟩
  rw [search_level hbefore, List.cons_append, search, scan_token hn]

/-! ### Level by level -/

mutual

theorem token?_expr (e : Expr) : e.token? = e.fields.findSome? Field.token? := by
  cases e with
  | misplaced s => exact token?_stmt s
  | _ => rfl

theorem token?_stmt (s : Stmt) : s.token? = s.fields.findSome? Field.token? := by
  cases s with
  | misplaced e => exact token?_expr e
  | ifElse condition thenBranch elseBranch => cases elseBranch <;> rfl
  | _ => rfl

end

theorem token?_eq (n : Node) : n.token? = n.held? := by
  cases n with
  | expr e => exact token?_expr e
  | stmt s => exact token?_stmt s

mutual

theorem children_expr (e : Expr) (h : e.token? = none) :
    e.children = e.fields.flatMap Field.below := by
  cases e with
  | misplaced s => exact children_stmt s h
  | literal | grouping | blank | bare => rfl
  | _ => cases h

theorem children_stmt (s : Stmt) (h : s.token? = none) :
    s.children = s.fields.flatMap Field.below := by
  cases s with
  | misplaced e => exact children_expr e h
  | expression | print | whileLoop => rfl
  | block body => exact (List.append_nil _).symm
  | ifElse condition thenBranch elseBranch => cases elseBranch <;> rfl
  | _ => cases h

end

/-- All nodes below one that holds no token come into question. -/
theorem children_eq {n : Node} (h : n.held? = none) : n.children = n.below := by
  rw [← token?_eq] at h
  cases n with
  | expr e => exact children_expr e h
  | stmt s => exact children_stmt s h

theorem flatMap_children {level : List Node} (h : ∀ n ∈ level, n.held? = none) :
    level.flatMap children = level.flatMap below := by
  induction level with
  | nil => rfl
  | cons n level ih =>
    rw [List.forall_mem_cons] at h
    rw [List.flatMap_cons, List.flatMap_cons, children_eq h.1, ih h.2]

theorem findSome?_token? (level : List Node) :
    level.findSome? token? = level.findSome? held? :=
  congrArg (level.findSome? ·) (funext token?_eq)

/-- The search ends, and finds what is found level by level. -/
theorem search_firstTokenFrom (level : List Node) :
    ∃ turns, search turns level = some (firstTokenFrom level) := by
  fun_induction firstTokenFrom level with
  | case1 => exact ⟨0, rfl⟩
  | case2 n rest t hfound => exact search_found (findSome?_token? _ ▸ hfound)
  | case3 n rest hnone ih =>
    rw [findSome?_token?, List.findSome?_eq_none_iff] at hnone
    obtain ⟨turns, hturns⟩ := ih
    have hlevel := search_level hnone turns []
    rw [List.append_nil, List.nil_append, ← flatMap_children hnone, hturns] at hlevel
    exact ⟨turns + (n :: rest).length, hlevel⟩

/-- What is found is the first token of the first node that has one, on the first level
where there is such a node. -/
theorem firstTokenFrom_some {level : List Node} {t : Token} (h : firstTokenFrom level = some t) :
    ∃ depth before n after, levels level depth = before ++ n :: after ∧ n.held? = some t ∧
      (∀ m ∈ before, m.held? = none) ∧
      ∀ higher < depth, ∀ m ∈ levels level higher, m.held? = none := by
  fun_induction firstTokenFrom level with
  | case1 => cases h
  | case2 n rest u hfound =>
    cases h
    rw [findSome?_token?] at hfound
    obtain ⟨before, m, after, hlevel, hm, hbefore⟩ := List.findSome?_eq_some_iff.mp hfound
    exact ⟨0, before, m, after, hlevel, hm, hbefore, fun _ h => absurd h (Nat.not_lt_zero _)⟩
  | case3 n rest hnone ih =>
    rw [findSome?_token?, List.findSome?_eq_none_iff] at hnone
    obtain ⟨depth, before, m, after, hlevel, hm, hbefore, hhigher⟩ := ih h
    rw [flatMap_children hnone] at hlevel hhigher
    refine ⟨depth + 1, before, m, after, hlevel, hm, hbefore, fun higher hlt => ?_⟩
    cases higher with
    | zero => exact hnone
    | succ higher => exact hhigher higher (Nat.lt_of_succ_lt_succ hlt)

/-- Nothing is found only if no node on any level has a token by itself. -/
theorem firstTokenFrom_none {level : List Node} (h : firstTokenFrom level = none) :
    ∀ depth, ∀ m ∈ levels level depth, m.held? = none := by
  fun_induction firstTokenFrom level with
  | case1 =>
    have hempty : ∀ depth, levels [] depth = [] := fun depth => by
      induction depth with
      | zero => rfl
      | succ depth ih => exact ih
    intro depth m hm
    rw [hempty] at hm
    cases hm
  | case2 => cases h
  | case3 n rest hnone ih =>
    rw [findSome?_token?, List.findSome?_eq_none_iff] at hnone
    have hbelow := ih h
    rw [flatMap_children hnone] at hbelow
    intro depth
    cases depth with
    | zero => exact hnone
    | succ depth => exact hbelow depth

/-! ### Tokens in lists -/

theorem held?_mem {n : Node} {t : Token} (h : n.held? = some t) : t ∈ n.stored := by
  obtain ⟨f, hf, htoken⟩ := List.exists_of_findSome?_eq_some h
  refine List.mem_flatMap.mpr ⟨f, hf, ?_⟩
  cases f with
  | token u =>
    cases htoken
    exact List.mem_singleton_self t
  | _ => cases htoken

mutual

theorem stored_expr (e : Expr) (h : e.token? = none) : e.fields.flatMap Field.stored = [] := by
  cases e with
  | misplaced s => exact stored_stmt s h
  | literal | grouping | blank | bare => rfl
  | _ => cases h

theorem stored_stmt (s : Stmt) (h : s.token? = none) : s.fields.flatMap Field.stored = [] := by
  cases s with
  | misplaced e => exact stored_expr e h
  | ifElse condition thenBranch elseBranch => cases elseBranch <;> rfl
  | expression | print | whileLoop | block => rfl
  | _ => cases h

end

/-- A node that has tokens in a list has one by itself, too. -/
theorem stored_eq_nil_iff {n : Node} : n.stored = [] ↔ n.held? = none := by
  constructor
  · intro h
    cases hheld : n.held? with
    | none => rfl
    | some t => exact absurd (h ▸ held?_mem hheld) List.not_mem_nil
  · intro h
    rw [← token?_eq] at h
    cases n with
    | expr e => exact stored_expr e h
    | stmt s => exact stored_stmt s h

/-! ### Nodes below -/

/-- What is so at a node, and at all nodes right below one where it is so, is so on all
levels. -/
theorem forall_levels {P : Node → Prop} {level : List Node} (h : ∀ n ∈ level, P n)
    (hstep : ∀ n, P n → ∀ m ∈ n.below, P m) : ∀ depth, ∀ m ∈ levels level depth, P m := by
  intro depth
  induction depth generalizing level with
  | zero => exact h
  | succ depth ih =>
    refine ih fun m hm => ?_
    obtain ⟨n, hn, hm⟩ := List.mem_flatMap.mp hm
    exact hstep n (h n hn) m hm

end Node

end Lox
