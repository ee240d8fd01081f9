/-
The grammar of the language, as a relation between tokens and trees.

A derivation carries a bound on how deeply its rules are nested, so that a
derivation within `n` can be compared with a reader that has `n` frames; the
language itself is what some bound derives.

  program     ← declaration*
  declaration ← class NAME (< NAME)? { method* } | fun method | var | statement
  method      ← NAME ( NAME,* ) { declaration* }
  var         ← var NAME (= assignment)? ;
  statement   ← print | return | while | for | if | break | { declaration* }
              | assignment ;
  assignment  ← (call .)? NAME = assignment | or
  or, and, equality, comparison, term, factor ← operands grouped from the left
  unary       ← (! | -) unary | call
  call        ← primary (( assignment,* ) | . NAME)*
  primary     ← literal | this | NAME | super . NAME | ( assignment )

An `else` may belong to every `if` that is still without one.  The rules are
stated for both readings: with `nearest` it belongs to the nearest.

* `Phrase` — expressions, level by level;
* `Sentence` — statements and declarations;
* `Program` — whole programs;
* `Phrase.mono`, `Sentence.mono`, `Program.mono` — a wider bound derives no less.
-/
import Lox.Tree.Parse
import Mathlib.Data.List.Basic

namespace Lox.Tree

/-! ### Levels -/

namespace Level

/-- The next tighter level. -/
def next : Level → Level
  | assignment => disjunction
  | disjunction => conjunction
  | conjunction => equality
  | equality => comparison
  | comparison => term
  | term => factor
  | factor => unary
  | unary => call
  | call => primary
  | primary => primary

/-- The number of levels that are tighter than a level. -/
def height : Level → Nat
  | assignment => 9
  | disjunction => 8
  | conjunction => 7
  | equality => 6
  | comparison => 5
  | term => 4
  | factor => 3
  | unary => 2
  | call => 1
  | primary => 0

theorem height_next {l : Level} (hl : l ≠ .primary) : l.height = l.next.height + 1 := by
  cases l <;> first | rfl | exact absurd rfl hl

/-- The binary operators of a level. -/
def isOperator : Level → Token.Kind → Bool
  | disjunction => (· == .orKeyword)
  | conjunction => (· == .andKeyword)
  | equality => isEquality
  | comparison => isComparison
  | term => isTerm
  | factor => isFactor
  | _ => fun _ => false

/-- The tree of a binary operator of a level. -/
def join : Level → Expr → Token → Expr → Expr
  | disjunction | conjunction => .logical
  | _ => .binary

/-- The tokens that would go on with a phrase of a level that is already
complete. -/
def continues (l : Level) (k : Token.Kind) : Bool :=
  match l with
  | primary => false
  | unary | call => isSuffix k
  | factor => isFactor k || isSuffix k
  | term => isTerm k || isFactor k || isSuffix k
  | comparison => isComparison k || isTerm k || isFactor k || isSuffix k
  | equality => isEquality k || isComparison k || isTerm k || isFactor k || isSuffix k
  | conjunction =>
    k == .andKeyword || isEquality k || isComparison k || isTerm k || isFactor k || isSuffix k
  | disjunction =>
    k == .orKeyword || k == .andKeyword || isEquality k || isComparison k || isTerm k
      || isFactor k || isSuffix k
  | assignment =>
    k == .equal || k == .orKeyword || k == .andKeyword || isEquality k || isComparison k
      || isTerm k || isFactor k || isSuffix k

end Level

/-! ### Lists and parts that may be missing -/

/-- Items with commas between them. -/
inductive Separated : List (List Token) → List Token → Prop
  | none : Separated [] []
  | last {ts : List Token} : Separated [ts] ts
  | more {ts us vs : List Token} {items : List (List Token)} {comma : Token}
      (hc : comma.kind = .comma) (h : Separated (us :: items) vs) :
      Separated (ts :: us :: items) (ts ++ comma :: vs)

/-- A list begins with its first item. -/
theorem Separated.first {ts us : List Token} {items : List (List Token)}
    (h : Separated (ts :: items) us) : ∃ vs, us = ts ++ vs := by
  cases h with
  | last => exact ⟨[], (List.append_nil _).symm⟩
  | more _ _ => exact ⟨_, rfl⟩

/-- Something, or nothing at all. -/
inductive Optional {α : Type} (P : List Token → α → Prop) : List Token → Option α → Prop
  | absent : Optional P [] none
  | present {ts : List Token} {a : α} (h : P ts a) : Optional P ts (some a)

/-! ### Expressions -/

/-- `Phrase n l ts e`: the tokens `ts` are an expression of the level `l` with
the tree `e`, by rules that are nested at most `n` deep. -/
inductive Phrase : Nat → Level → List Token → Expr → Prop
  | literal {n : Nat} {t : Token} (ht : isLiteral t.kind) :
      Phrase (n + 1) .primary [t] (.literal t.literal)
  | this {n : Nat} {t : Token} (ht : t.kind = .thisKeyword) :
      Phrase (n + 1) .primary [t] (.thisRef { token := t })
  | name {n : Nat} {t : Token} (ht : t.kind = .identifier) :
      Phrase (n + 1) .primary [t] (.var { token := t })
  | super {n : Nat} {t dot method : Token} (ht : t.kind = .superKeyword)
      (hd : dot.kind = .dot) (hm : method.kind = .identifier) :
      Phrase (n + 1) .primary [t, dot, method] (.superRef { token := t } method)
  | grouping {n : Nat} {left right : Token} {ts : List Token} {e : Expr}
      (hl : left.kind = .leftParen) (he : Phrase n .assignment ts e)
      (hr : right.kind = .rightParen) :
      Phrase (n + 1) .primary (left :: (ts ++ [right])) (.grouping e)
  | call {n : Nat} {left right : Token} {ts us : List Token} {e : Expr}
      {arguments : List (List Token × Expr)}
      (he : Phrase (n + 1) .call ts e) (hl : left.kind = .leftParen)
      (ha : ∀ a ∈ arguments, Phrase n .assignment a.1 a.2)
      (hs : Separated (arguments.map Prod.fst) us) (hm : arguments.length ≤ maxArguments)
      (hr : right.kind = .rightParen) :
      Phrase (n + 1) .call (ts ++ left :: (us ++ [right]))
        (.call e right (arguments.map Prod.snd))
  | get {n : Nat} {dot name : Token} {ts : List Token} {e : Expr}
      (he : Phrase (n + 1) .call ts e) (hd : dot.kind = .dot)
      (hn : name.kind = .identifier) :
      Phrase (n + 1) .call (ts ++ [dot, name]) (.get e name)
  | unary {n : Nat} {op : Token} {ts : List Token} {e : Expr} (ho : isUnary op.kind)
      (he : Phrase n .unary ts e) :
      Phrase (n + 1) .unary (op :: ts) (.unary op e)
  | binary {n : Nat} {l : Level} {op : Token} {ts us : List Token} {e r : Expr}
      (he : Phrase (n + 1) l ts e) (ho : l.isOperator op.kind)
      (hr : Phrase n l.next us r) :
      Phrase (n + 1) l (ts ++ op :: us) (l.join e op r)
  /-- The name is nested in the nine levels between assignment and primary. -/
  | assign {n : Nat} {name equals : Token} {ts : List Token} {e : Expr}
      (hn : name.kind = .identifier) (hq : equals.kind = .equal)
      (he : Phrase n .assignment ts e) (hd : 9 ≤ n) :
      Phrase (n + 1) .assignment (name :: equals :: ts) (.assign { token := name } e)
  /-- The object is nested in the seven levels between assignment and call. -/
  | set {m n : Nat} {dot name equals : Token} {ts us : List Token} {o e : Expr}
      (ho : Phrase m .call ts o) (hd : dot.kind = .dot) (hn : name.kind = .identifier)
      (hq : equals.kind = .equal) (he : Phrase n .assignment us e) (hm : m + 7 = n) :
      Phrase (n + 1) .assignment (ts ++ dot :: name :: equals :: us) (.set o name e)
  | tighter {n : Nat} {l : Level} {ts : List Token} {e : Expr} (hl : l ≠ .primary)
      (he : Phrase n l.next ts e) :
      Phrase (n + 1) l ts e

/-! ### Statements -/

/-- What follows the word `var`. -/
inductive Variable (n : Nat) : List Token → Stmt → Prop
  | plain {name semicolon : Token} (hn : name.kind = .identifier)
      (hs : semicolon.kind = .semicolon) :
      Variable n [name, semicolon] (.varDecl name none)
  | initialized {name equals semicolon : Token} {ts : List Token} {e : Expr}
      (hn : name.kind = .identifier) (hq : equals.kind = .equal)
      (he : Phrase n .assignment ts e) (hs : semicolon.kind = .semicolon) :
      Variable n (name :: equals :: (ts ++ [semicolon])) (.varDecl name (some e))

/-- The initializer of a `for` loop, with its semicolon. -/
inductive Initializer (n : Nat) : List Token → Option Stmt → Prop
  | absent {semicolon : Token} (hs : semicolon.kind = .semicolon) :
      Initializer n [semicolon] none
  | declared {keyword : Token} {ts : List Token} {s : Stmt}
      (hk : keyword.kind = .varKeyword) (hv : Variable n ts s) :
      Initializer n (keyword :: ts) (some s)
  | expression {semicolon : Token} {ts : List Token} {e : Expr}
      (he : Phrase n .assignment ts e) (hs : semicolon.kind = .semicolon) :
      Initializer n (ts ++ [semicolon]) (some (.expression e))

/-- A function or method as it is written, from its name on. -/
structure Routine where
  name : Token
  leftParen : Token
  params : List Token
  /-- The parameters with the commas between them. -/
  listed : List Token
  rightParen : Token
  leftBrace : Token
  /-- The declarations of the body, each with its tokens. -/
  body : List (List Token × Stmt)
  rightBrace : Token

namespace Routine

/-- The tokens of a function. -/
def tokens (r : Routine) : List Token :=
  r.name :: r.leftParen :: (r.listed ++ r.rightParen :: r.leftBrace ::
    ((r.body.map Prod.fst).flatten ++ [r.rightBrace]))

/-- The tree of a function. -/
def function (r : Routine) : Function :=
  .mk r.name r.params (r.body.map Prod.snd)

/-- The tokens of a function outside its body are as they should be. -/
structure Spelled (r : Routine) : Prop where
  name : r.name.kind = .identifier
  leftParen : r.leftParen.kind = .leftParen
  params : ∀ p ∈ r.params, p.kind = .identifier
  listed : Separated (r.params.map ([·])) r.listed
  few : r.params.length ≤ maxArguments
  rightParen : r.rightParen.kind = .rightParen
  leftBrace : r.leftBrace.kind = .leftBrace
  rightBrace : r.rightBrace.kind = .rightBrace

end Routine

/-- The superclass of a class as it is written: a sign and a name. -/
abbrev Parent := Option (Token × Token)

namespace Parent

/-- The tokens of a superclass. -/
def tokens : Parent → List Token
  | none => []
  | some (less, name) => [less, name]

/-- The use of the name of a superclass. -/
def reference : Parent → Option Reference
  | none => none
  | some (_, name) => some { token := name }

/-- The tokens of a superclass are as they should be. -/
def Spelled (p : Parent) : Prop :=
  ∀ q ∈ p, q.1.kind = .less ∧ q.2.kind = .identifier

end Parent

/-- What a sentence is: a statement, which may end with an `if` that could
still take an `else`, or a declaration. -/
inductive Category where
  | statement (takesElse : Bool)
  | declaration

/-- `Sentence nearest n c inLoop ts s`: the tokens `ts` are a statement or
declaration with the tree `s`, by rules that are nested at most `n` deep;
`inLoop` says whether a loop of the same function is around it. -/
inductive Sentence (nearest : Bool) :
    Nat → Category → Bool → List Token → Stmt → Prop
  | expression {n : Nat} {inLoop : Bool} {semicolon : Token} {ts : List Token} {e : Expr}
      (he : Phrase n .assignment ts e) (hs : semicolon.kind = .semicolon) :
      Sentence nearest (n + 1) (.statement false) inLoop (ts ++ [semicolon]) (.expression e)
  | print {n : Nat} {inLoop : Bool} {keyword semicolon : Token} {ts : List Token} {e : Expr}
      (hk : keyword.kind = .printKeyword) (he : Phrase n .assignment ts e)
      (hs : semicolon.kind = .semicolon) :
      Sentence nearest (n + 1) (.statement false) inLoop (keyword :: (ts ++ [semicolon]))
        (.print e)
  | returned {n : Nat} {inLoop : Bool} {keyword semicolon : Token} {ts : List Token}
      {e : Option Expr} (hk : keyword.kind = .returnKeyword)
      (he : Optional (Phrase n .assignment) ts e) (hs : semicolon.kind = .semicolon) :
      Sentence nearest (n + 1) (.statement false) inLoop (keyword :: (ts ++ [semicolon]))
        (.returnWith keyword e)
  | broken {n : Nat} {keyword semicolon : Token} (hk : keyword.kind = .breakKeyword)
      (hs : semicolon.kind = .semicolon) :
      Sentence nearest (n + 1) (.statement false) true [keyword, semicolon]
        (.breakLoop keyword)
  | block {n : Nat} {inLoop : Bool} {left right : Token} {body : List (List Token × Stmt)}
      (hl : left.kind = .leftBrace)
      (hb : ∀ p ∈ body, Sentence nearest n .declaration inLoop p.1 p.2)
      (hr : right.kind = .rightBrace) :
      Sentence nearest (n + 1) (.statement false) inLoop
        (left :: ((body.map Prod.fst).flatten ++ [right])) (.block (body.map Prod.snd))
  | whileDo {n : Nat} {inLoop takesElse : Bool} {keyword left right : Token}
      {ts us : List Token} {e : Expr} {s : Stmt} (hk : keyword.kind = .whileKeyword)
      (hl : left.kind = .leftParen) (he : Phrase n .assignment ts e)
      (hr : right.kind = .rightParen)
      (hs : Sentence nearest n (.statement takesElse) true us s) :
      Sentence nearest (n + 1) (.statement takesElse) inLoop
        (keyword :: left :: (ts ++ right :: us)) (.whileLoop e s)
  | forDo {n : Nat} {inLoop takesElse : Bool} {keyword left semicolon right : Token}
      {is cs es us : List Token} {i : Option Stmt} {c e : Option Expr} {s : Stmt}
      (hk : keyword.kind = .forKeyword) (hl : left.kind = .leftParen)
      (hi : Initializer n is i) (hc : Optional (Phrase n .assignment) cs c)
      (hm : semicolon.kind = .semicolon) (he : Optional (Phrase n .assignment) es e)
      (hr : right.kind = .rightParen)
      (hs : Sentence nearest n (.statement takesElse) true us s) :
      Sentence nearest (n + 1) (.statement takesElse) inLoop
        (keyword :: left :: (is ++ (cs ++ semicolon :: (es ++ right :: us))))
        (forLoop i c e s)
  | ifAlone {n : Nat} {inLoop takesElse : Bool} {keyword left right : Token}
      {ts us : List Token} {e : Expr} {s : Stmt} (hk : keyword.kind = .ifKeyword)
      (hl : left.kind = .leftParen) (he : Phrase n .assignment ts e)
      (hr : right.kind = .rightParen)
      (hs : Sentence nearest n (.statement takesElse) inLoop us s) :
      Sentence nearest (n + 1) (.statement true) inLoop
        (keyword :: left :: (ts ++ right :: us)) (.ifElse e s none)
  /-- With `nearest`, the first branch has no `if` that could take the `else`. -/
  | ifElse {n : Nat} {inLoop takesElse takesElse' : Bool} {keyword left right other : Token}
      {ts us vs : List Token} {e : Expr} {s s' : Stmt} (hk : keyword.kind = .ifKeyword)
      (hl : left.kind = .leftParen) (he : Phrase n .assignment ts e)
      (hr : right.kind = .rightParen)
      (hs : Sentence nearest n (.statement takesElse) inLoop us s)
      (hn : nearest → takesElse = false) (ho : other.kind = .elseKeyword)
      (hs' : Sentence nearest n (.statement takesElse') inLoop vs s') :
      Sentence nearest (n + 1) (.statement takesElse') inLoop
        (keyword :: left :: (ts ++ right :: (us ++ other :: vs))) (.ifElse e s (some s'))
  | varDecl {n : Nat} {inLoop : Bool} {keyword : Token} {ts : List Token} {s : Stmt}
      (hk : keyword.kind = .varKeyword) (hv : Variable n ts s) :
      Sentence nearest (n + 1) .declaration inLoop (keyword :: ts) s
  | funDecl {n : Nat} {inLoop : Bool} {keyword : Token} {r : Routine}
      (hk : keyword.kind = .funKeyword) (hr : r.Spelled)
      (hb : ∀ p ∈ r.body, Sentence nearest n .declaration false p.1 p.2) :
      Sentence nearest (n + 1) .declaration inLoop (keyword :: r.tokens) (.funDecl r.function)
  | classDecl {n : Nat} {inLoop : Bool} {keyword name left right : Token} {parent : Parent}
      {methods : List Routine} (hk : keyword.kind = .classKeyword)
      (hn : name.kind = .identifier) (hp : parent.Spelled) (hl : left.kind = .leftBrace)
      (hm : ∀ r ∈ methods, r.Spelled)
      (hb : ∀ r ∈ methods, ∀ p ∈ r.body, Sentence nearest n .declaration false p.1 p.2)
      (hr : right.kind = .rightBrace) :
      Sentence nearest (n + 1) .declaration inLoop
        (keyword :: name :: (parent.tokens ++ left ::
          ((methods.map Routine.tokens).flatten ++ [right])))
        (.classDecl name parent.reference (methods.map Routine.function))
  | statement {n : Nat} {inLoop takesElse : Bool} {ts : List Token} {s : Stmt}
      (hs : Sentence nearest n (.statement takesElse) inLoop ts s) :
      Sentence nearest (n + 1) .declaration inLoop ts s

/-- `Program nearest n ts program`: the tokens `ts` are a sequence of
declarations with the trees `program`, by rules that are nested at most `n`
deep. -/
def Program (nearest : Bool) (n : Nat) (ts : List Token) (program : List Stmt) : Prop :=
  ∃ parts : List (List Token × Stmt),
    (parts.map Prod.fst).flatten = ts ∧ parts.map Prod.snd = program ∧
      ∀ p ∈ parts, Sentence nearest n .declaration false p.1 p.2

/-! ### First tokens -/

/-- The tokens that a phrase can begin with. -/
def startsPhrase (k : Token.Kind) : Bool :=
  isLiteral k || isUnary k || k == .thisKeyword || k == .superKeyword || k == .identifier
    || k == .leftParen

/-- The tokens that a statement can begin with. -/
def startsSentence (k : Token.Kind) : Bool :=
  startsPhrase k || k == .printKeyword || k == .returnKeyword || k == .whileKeyword
    || k == .forKeyword || k == .ifKeyword || k == .breakKeyword || k == .leftBrace

theorem Phrase.first {n : Nat} {l : Level} {ts : List Token} {e : Expr}
    (h : Phrase n l ts e) : ∃ t us, ts = t :: us ∧ startsPhrase t.kind := by
  -- By induction on the phrase; where it begins with an operand, that has a first token.
  induction h with
  | literal ht => exact ⟨_, _, rfl, by simp [startsPhrase, ht]⟩
  | this ht => exact ⟨_, _, rfl, by simp [startsPhrase, ht]⟩
  | name ht => exact ⟨_, _, rfl, by simp [startsPhrase, ht]⟩
  | super ht _ _ => exact ⟨_, _, rfl, by simp [startsPhrase, ht]⟩
  | grouping hl _ _ => exact ⟨_, _, rfl, by simp [startsPhrase, hl]⟩
  | call _ _ _ _ _ _ ih =>
    obtain ⟨t, us, rfl, ht⟩ := ih
    exact ⟨t, _, rfl, ht⟩
  | get _ _ _ ih =>
    obtain ⟨t, us, rfl, ht⟩ := ih
    exact ⟨t, _, rfl, ht⟩
  | unary ho _ _ => exact ⟨_, _, rfl, by simp [startsPhrase, ho]⟩
  | binary _ _ _ ih _ =>
    obtain ⟨t, us, rfl, ht⟩ := ih
    exact ⟨t, _, rfl, ht⟩
  | assign hn _ _ _ _ => exact ⟨_, _, rfl, by simp [startsPhrase, hn]⟩
  | set _ _ _ _ _ _ ih _ =>
    obtain ⟨t, us, rfl, ht⟩ := ih
    exact ⟨t, _, rfl, ht⟩
  | tighter _ _ ih => exact ih

theorem Sentence.first {nearest : Bool} {n : Nat} {o : Bool} {inLoop : Bool}
    {ts : List Token} {s : Stmt} (h : Sentence nearest n (.statement o) inLoop ts s) :
    ∃ t us, ts = t :: us ∧ startsSentence t.kind := by
  cases h with
  | expression he _ =>
    obtain ⟨t, us, rfl, ht⟩ := he.first
    exact ⟨t, _, rfl, by simp [startsSentence, ht]⟩
  | print hk _ _ => exact ⟨_, _, rfl, by simp [startsSentence, hk]⟩
  | returned hk _ _ => exact ⟨_, _, rfl, by simp [startsSentence, hk]⟩
  | broken hk _ => exact ⟨_, _, rfl, by simp [startsSentence, hk]⟩
  | block hl _ _ => exact ⟨_, _, rfl, by simp [startsSentence, hl]⟩
  | whileDo hk => exact ⟨_, _, rfl, by simp [startsSentence, hk]⟩
  | forDo hk => exact ⟨_, _, rfl, by simp [startsSentence, hk]⟩
  | ifAlone hk => exact ⟨_, _, rfl, by simp [startsSentence, hk]⟩
  | ifElse hk => exact ⟨_, _, rfl, by simp [startsSentence, hk]⟩

/-- The first token of a declaration is that of a statement or a word of its
own. -/
theorem Sentence.first_declaration {nearest : Bool} {n : Nat} {inLoop : Bool}
    {ts : List Token} {s : Stmt} (h : Sentence nearest n .declaration inLoop ts s) :
    ∃ t us, ts = t :: us ∧ (startsSentence t.kind ∨ t.kind = .varKeyword ∨
      t.kind = .funKeyword ∨ t.kind = .classKeyword) := by
  cases h with
  | varDecl hk _ => exact ⟨_, _, rfl, .inr (.inl hk)⟩
  | funDecl hk _ _ => exact ⟨_, _, rfl, .inr (.inr (.inl hk))⟩
  | classDecl hk _ _ _ _ _ _ => exact ⟨_, _, rfl, .inr (.inr (.inr hk))⟩
  | statement hs =>
    obtain ⟨t, us, rfl, ht⟩ := hs.first
    exact ⟨t, us, rfl, .inl ht⟩

/-! ### Wider bounds -/

theorem Phrase.succ {n : Nat} {l : Level} {ts : List Token} {e : Expr}
    (h : Phrase n l ts e) : Phrase (n + 1) l ts e := by
  induction h with
  | literal ht => exact .literal ht
  | this ht => exact .this ht
  | name ht => exact .name ht
  | super ht hd hm => exact .super ht hd hm
  | grouping hl _ hr ih => exact .grouping hl ih hr
  | call _ hl _ hs hm hr ih iha => exact .call ih hl iha hs hm hr
  | get _ hd hm ih => exact .get ih hd hm
  | unary ho _ ih => exact .unary ho ih
  | binary _ ho _ ih ihr => exact .binary ih ho ihr
  | assign hn hq _ hd ih => exact .assign hn hq ih (Nat.le_succ_of_le hd)
  | set _ hd hn hq _ hm iho ih => exact .set iho hd hn hq ih (by omega)
  | tighter hl _ ih => exact .tighter hl ih

theorem Phrase.mono {n n' : Nat} {l : Level} {ts : List Token} {e : Expr}
    (h : Phrase n l ts e) (hn : n ≤ n') : Phrase n' l ts e := by
  induction hn with
  | refl => exact h
  | step _ ih => exact ih.succ

theorem Variable.succ {n : Nat} {ts : List Token} {s : Stmt} (h : Variable n ts s) :
    Variable (n + 1) ts s := by
  cases h with
  | plain hn hs => exact .plain hn hs
  | initialized hn hq he hs => exact .initialized hn hq he.succ hs

theorem Initializer.succ {n : Nat} {ts : List Token} {s : Option Stmt}
    (h : Initializer n ts s) : Initializer (n + 1) ts s := by
  cases h with
  | absent hs => exact .absent hs
  | declared hk hv => exact .declared hk hv.succ
  | expression he hs => exact .expression he.succ hs

theorem Optional.succ {n : Nat} {ts : List Token} {e : Option Expr}
    (h : Optional (Phrase n .assignment) ts e) :
    Optional (Phrase (n + 1) .assignment) ts e := by
  cases h with
  | absent => exact .absent
  | present h => exact .present h.succ

theorem Sentence.succ {nearest : Bool} {n : Nat} {k : Category} {inLoop : Bool}
    {ts : List Token} {s : Stmt} (h : Sentence nearest n k inLoop ts s) :
    Sentence nearest (n + 1) k inLoop ts s := by
  induction h with
  | expression he hs => exact .expression he.succ hs
  | print hk he hs => exact .print hk he.succ hs
  | returned hk he hs => exact .returned hk he.succ hs
  | broken hk hs => exact .broken hk hs
  | block hl _ hr ih => exact .block hl ih hr
  | whileDo hk hl he hr _ ih => exact .whileDo hk hl he.succ hr ih
  | forDo hk hl hi hc hm he hr _ ih => exact .forDo hk hl hi.succ hc.succ hm he.succ hr ih
  | ifAlone hk hl he hr _ ih => exact .ifAlone hk hl he.succ hr ih
  | ifElse hk hl he hr _ hn ho _ ih ih' => exact .ifElse hk hl he.succ hr ih hn ho ih'
  | varDecl hk hv => exact .varDecl hk hv.succ
  | funDecl hk hr _ ih => exact .funDecl hk hr ih
  | classDecl hk hn hp hl hm _ hr ih => exact .classDecl hk hn hp hl hm ih hr
  | statement _ ih => exact .statement ih

theorem Sentence.mono {nearest : Bool} {n n' : Nat} {k : Category} {inLoop : Bool}
    {ts : List Token} {s : Stmt} (h : Sentence nearest n k inLoop ts s) (hn : n ≤ n') :
    Sentence nearest n' k inLoop ts s := by
  induction hn with
  | refl => exact h
  | step _ ih => exact ih.succ

theorem Program.mono {nearest : Bool} {n n' : Nat} {ts : List Token} {program : List Stmt}
    (h : Program nearest n ts program) (hn : n ≤ n') : Program nearest n' ts program := by
  obtain ⟨parts, hts, hp, hall⟩ := h
  exact ⟨parts, hts, hp, fun p hp => (hall p hp).mono hn⟩

end Lox.Tree
