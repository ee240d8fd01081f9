/-
Resolving a program under two spellings.

A program is resolved without a problem, and in what comes out a local name is
changed.  Resolved again, the changed program has no problem either, and every use
gets the distance it had: in the renamed scope the new name stands for the old one,
and in the scopes inside it the new name is not declared.

* `ScopesRenamed` — scopes around a place, under two spellings;
* `ScopesRenamed.hops?`, `ScopesRenamed.isPending` — what they tell of a use;
* `Contexts` — where two resolutions are;
* `Echo` — quiet resolution of one tree, followed by that of the renamed one;
* `echo_expression`, `echo_statement`, `resolve_renamed` — trees and programs.
-/
import Lox.Proofs.Renaming

namespace Lox

namespace Scope

open Resolver

/-! ### Scopes under two spellings -/

/-- The scopes around a place: the renamed one is so many scopes out, and those
inside it do not declare the new name. -/
inductive ScopesRenamed (ρ : Renaming) : Depth → Scopes → Scopes → Prop
  | outside {S : Scopes} : ScopesRenamed ρ none S S
  | here {scope : Names} {outer : Scopes} (hn : scope.get? ρ.new = none) :
      ScopesRenamed ρ (some 0) (scope :: outer) (scope.rename ρ :: outer)
  | inner {j : Nat} {scope : Names} {S S' : Scopes} (hn : scope.get? ρ.new = none)
      (h : ScopesRenamed ρ (some j) S S') :
      ScopesRenamed ρ (some (j + 1)) (scope :: S) (scope :: S')

namespace ScopesRenamed

variable {ρ : Renaming} {d : Depth} {S S' : Scopes} {t : Token}

theorem binds_rename {scope : Names} {name : String} (hs : scope.get? ρ.new = none)
    (hn : name ≠ ρ.new) : (scope.rename ρ).binds (ρ.apply name) = scope.binds name := by
  rw [Bindings.binds, Bindings.binds, Bindings.get?_rename hs hn]

/-- A name that the renamed scope does not declare has the same value there. -/
theorem get?_rename_of_none {scope : Names} {name : String} (hs : scope.get? ρ.new = none)
    (hn : name ≠ ρ.new) (hnone : scope.get? name = none) :
    (scope.rename ρ).get? name = none := by
  by_cases hold : name = ρ.old
  · subst hold
    exact Bindings.get?_rename_old hn
  · have h := Bindings.get?_rename hs hn
    rwa [Renaming.apply_of_ne hold, hnone] at h

/-- A scope that declares neither spelling of a name does not declare the one a use
has. -/
theorem get?_tokenAt_of_none {scope : Names} (hs : scope.get? ρ.new = none)
    (hnone : scope.get? t.lexeme = none) (hops : Option Nat) :
    scope.get? (ρ.tokenAt d hops t).lexeme = none := by
  unfold Renaming.tokenAt
  split
  · unfold Renaming.token Renaming.apply
    split
    · exact hs
    · exact hnone
  · exact hnone

/-- In the renamed scope a use of an outer name keeps its spelling. -/
theorem tokenAt_here_succ (hops : Option Nat) :
    ρ.tokenAt (some 0) (hops.map (· + 1)) t = t := by
  cases hops with
  | none => exact if_neg fun h => nomatch h.2
  | some i => exact if_neg fun h => nomatch h.2

/-- One scope further out the same question is asked with one hop less. -/
theorem tokenAt_succ (j : Nat) (hops : Option Nat) :
    ρ.tokenAt (some (j + 1)) (hops.map (· + 1)) t = ρ.tokenAt (some j) hops t := by
  cases hops with
  | none => rfl
  | some i =>
    rw [Option.map_some, Renaming.tokenAt_some, Renaming.tokenAt_some]
    simp only [Option.some.injEq, Nat.add_right_cancel_iff]

theorem get?_of_binds {scope : Names} {name : String} (h : scope.binds name = false) :
    scope.get? name = none := by
  simpa [Bindings.binds] using h

theorem not_binds {scope : Names} {name : String} (h : scope.get? name = none) :
    ¬scope.binds name := by
  simp [Bindings.binds, h]

/-- A use has the same distance under the two spellings. -/
theorem hops? (h : ScopesRenamed ρ d S S') (hf : ρ.Fresh d t) :
    S'.hops? (ρ.tokenAt d (S.hops? t.lexeme) t).lexeme = S.hops? t.lexeme := by
  induction h with
  | outside => rw [Renaming.tokenAt_none]
  | @here scope outer hn =>
    have hne : t.lexeme ≠ ρ.new := hf rfl
    rw [Scopes.hops?_cons scope]
    cases hb : scope.binds t.lexeme with
    | true =>
      rw [if_pos rfl, Renaming.tokenAt_some, if_pos rfl, Scopes.hops?_cons]
      exact if_pos ((binds_rename hn hne).trans hb)
    | false =>
      rw [if_neg Bool.false_ne_true, tokenAt_here_succ, Scopes.hops?_cons]
      exact if_neg (not_binds (get?_rename_of_none hn hne (get?_of_binds hb)))
  | @inner j scope S S' hn h ih =>
    rw [Scopes.hops?_cons scope S]
    cases hb : scope.binds t.lexeme with
    | true =>
      rw [if_pos rfl, Renaming.tokenAt_some, if_neg fun h => nomatch h, Scopes.hops?_cons]
      exact if_pos hb
    | false =>
      -- Past an inner scope, which binds neither spelling of the use, the distance grows by one.
      rw [if_neg Bool.false_ne_true, tokenAt_succ, Scopes.hops?_cons, ih fun _ => hf rfl]
      exact if_neg (not_binds (get?_tokenAt_of_none hn (get?_of_binds hb) _))

/-- A use is in its own initializer under both spellings, or under none. -/
theorem isPending (h : ScopesRenamed ρ d S S') (hf : ρ.Fresh d t) :
    S'.isPending (ρ.tokenAt d (S.hops? t.lexeme) t).lexeme = S.isPending t.lexeme := by
  cases h with
  | outside => rw [Renaming.tokenAt_none]
  | @here scope outer hn =>
    have hne : t.lexeme ≠ ρ.new := hf rfl
    change ((scope.rename ρ).get? _ == some false) = (scope.get? _ == some false)
    rw [Scopes.hops?_cons scope]
    cases hb : scope.binds t.lexeme with
    | true =>
      rw [if_pos rfl, Renaming.tokenAt_some, if_pos rfl]
      exact congrArg (· == some false) (Bindings.get?_rename hn hne)
    | false =>
      -- Not bound under the one spelling, nor under the other, as no use has the new name.
      have hnone := get?_of_binds hb
      rw [if_neg Bool.false_ne_true, tokenAt_here_succ, hnone, get?_rename_of_none hn hne hnone]
  | @inner j scope S S' hn h =>
    change (scope.get? _ == some false) = (scope.get? _ == some false)
    cases hb : scope.binds t.lexeme with
    | true => rw [Scopes.hops?_cons scope, hb, if_pos rfl, Renaming.tokenAt_some,
        if_neg fun h => nomatch h]
    | false =>
      have hnone := get?_of_binds hb
      rw [hnone, get?_tokenAt_of_none hn hnone]

/-- A declaration repeats another under both spellings, or under none. -/
theorem redeclares (h : ScopesRenamed ρ d S S') (hf : ρ.Fresh d t) :
    S'.redeclares (ρ.tokenAt d (some 0) t).lexeme = S.redeclares t.lexeme := by
  rw [Renaming.tokenAt_some]
  cases h with
  | outside => rw [if_neg fun h => nomatch h]
  | here hn =>
    rw [if_pos rfl]
    exact binds_rename hn (hf rfl)
  | inner hn h =>
    rw [if_neg fun h => by cases h]
    rfl

/-- A name is marked under both spellings. -/
theorem mark (h : ScopesRenamed ρ d S S') (hf : ρ.Fresh d t) (ready : Bool) :
    ScopesRenamed ρ d (S.mark t.lexeme ready)
      (S'.mark (ρ.tokenAt d (some 0) t).lexeme ready) := by
  rw [Renaming.tokenAt_some]
  cases h with
  | outside =>
    rw [if_neg fun h => nomatch h]
    exact .outside
  | @here scope outer hn =>
    rw [if_pos rfl]
    change ScopesRenamed ρ (some 0) (scope.set t.lexeme ready :: outer)
      ((scope.rename ρ).set (ρ.apply t.lexeme) ready :: outer)
    rw [← Bindings.set_rename ready hn (hf rfl)]
    exact .here (Bindings.get?_set_new ready hn (hf rfl))
  | inner hn h =>
    rw [if_neg fun h => by cases h]
    exact .inner (Bindings.get?_set_new ready hn (hf rfl)) h

/-- One more scope, which is none that is renamed. -/
theorem push (h : ScopesRenamed ρ d S S') {scope : Names} (hn : scope.get? ρ.new = none) :
    ScopesRenamed ρ d.inner (scope :: S) (scope :: S') := by
  cases h with
  | outside => exact .outside
  | here hn' => exact .inner hn (.here hn')
  | inner hn' h => exact .inner hn (.inner hn' h)

/-- A new scope, which may be the one that is renamed. -/
theorem opened {inside : Depth} (h : ScopesRenamed ρ d S S') (ho : d.Opens inside) :
    ScopesRenamed ρ inside (Bindings.empty :: S) (Bindings.empty :: S') := by
  cases ho with
  | inner => exact h.push rfl
  | renamed =>
    cases h
    exact .here rfl

/-- The scopes around the innermost one. -/
theorem tail {inside : Depth} (h : ScopesRenamed ρ inside S S') (ho : d.Opens inside) :
    ScopesRenamed ρ d S.tail S'.tail := by
  cases ho with
  | inner =>
    cases d with
    | none =>
      cases h
      exact .outside
    | some j =>
      cases h with
      | inner _ h => exact h
  | renamed =>
    cases h
    exact .outside

end ScopesRenamed

/-! ### Two resolutions -/

/-- Uses of one kind at one place, with the same distance. -/
structure Use.SameAt (u u' : Use) : Prop where
  kind : u'.kind = u.kind
  hops : u'.hops = u.hops
  span : u'.token.span = u.token.span

/-- Where two resolutions are, and what they have found. -/
structure Contexts (ρ : Renaming) (d : Depth) (c c' : Context) : Prop where
  scopes : ScopesRenamed ρ d c.scopes c'.scopes
  functionKind : c'.functionKind = c.functionKind
  classKind : c'.classKind = c.classKind
  uses : List.Forall₂ Use.SameAt c.uses.toList c'.uses.toList

namespace Contexts

variable {ρ : Renaming} {d inside : Depth} {c c' : Context} {t : Token}

theorem mark (h : Contexts ρ d c c') (hf : ρ.Fresh d t) (ready : Bool) :
    Contexts ρ d { c with scopes := c.scopes.mark t.lexeme ready }
      { c' with scopes := c'.scopes.mark (ρ.tokenAt d (some 0) t).lexeme ready } :=
  ⟨h.scopes.mark hf ready, h.functionKind, h.classKind, h.uses⟩

theorem push (h : Contexts ρ d c c') {scope : Names} (hn : scope.get? ρ.new = none) :
    Contexts ρ d.inner { c with scopes := scope :: c.scopes }
      { c' with scopes := scope :: c'.scopes } :=
  ⟨h.scopes.push hn, h.functionKind, h.classKind, h.uses⟩

theorem opened (h : Contexts ρ d c c') (ho : d.Opens inside) :
    Contexts ρ inside { c with scopes := .empty :: c.scopes }
      { c' with scopes := .empty :: c'.scopes } :=
  ⟨h.scopes.opened ho, h.functionKind, h.classKind, h.uses⟩

theorem tail (h : Contexts ρ inside c c') (ho : d.Opens inside) :
    Contexts ρ d { c with scopes := c.scopes.tail } { c' with scopes := c'.scopes.tail } :=
  ⟨h.scopes.tail ho, h.functionKind, h.classKind, h.uses⟩

theorem inFunction (h : Contexts ρ d c c') (kind : FunctionKind) :
    Contexts ρ d { c with functionKind := kind } { c' with functionKind := kind } :=
  ⟨h.scopes, rfl, h.classKind, h.uses⟩

theorem inClass (h : Contexts ρ d c c') (kind : ClassKind) :
    Contexts ρ d { c with classKind := kind } { c' with classKind := kind } :=
  ⟨h.scopes, h.functionKind, rfl, h.uses⟩

end Contexts

/-! ### Quiet runs inside scopes, functions and classes -/

section Runs

variable {α β : Type} {p : Resolver α} {R : Context → α → Context → Prop}
  {c c' : Context} {a : α}

theorem quiet_leaving {leave : Context → Context} (hr : ∀ c, (leave c).report = c.report)
    (h : Quiet p c a c') : Quiet (leaving p leave) c a (leave c') := by
  refine ⟨?_, (hr c').trans h.2⟩
  unfold leaving
  rw [h.1]

theorem sound_call (n : Nat) : Sound (call n) fun c _ c' => 0 < n ∧ c' = c := by
  cases n with
  | zero => exact (Sound.throw _).imp False.elim
  | succ n => exact (Sound.pure ()).imp fun h => ⟨Nat.succ_pos n, h.2⟩

theorem quiet_call {n : Nat} (hn : 0 < n) (c : Context) : Quiet (call n) c () c := by
  obtain ⟨n, rfl⟩ := Nat.exists_eq_add_one.mpr hn
  exact .pure () c

/-- A computation inside a changed context, of which a part is put back. -/
theorem sound_around {f : Context → Context} {g : Context → Context → Context}
    {first : Resolver Unit} {F : Context → Unit → Context → Prop}
    (hf : ∀ c, (f c).report = c.report) (hg : ∀ c d, (g c d).report = d.report)
    (hfirst : Sound first F) (h : Sound p R) :
    Sound (do let c ← get; modify f; first; leaving p (g c)) fun c a c' =>
      ∃ u t, F (f c) () u ∧ R u a t ∧ c' = g c t := by
  refine (Sound.get.bind fun c => (Sound.modify hf).bind fun _ => hfirst.bind fun _ =>
    sound_leaving h (hg c)).imp ?_
  rintro c a _ ⟨_, _, ⟨rfl, rfl⟩, _, _, rfl, _, u, hu, t, ht, rfl⟩
  exact ⟨u, t, hu, ht, rfl⟩

theorem sound_withScope (scope : Names) (h : Sound p R) :
    Sound (withScope scope p) fun c a c' =>
      ∃ t, R { c with scopes := scope :: c.scopes } a t ∧
        c' = { t with scopes := t.scopes.tail } := by
  have hpush : Sound (modify fun c => { c with scopes := scope :: c.scopes } : Resolver Unit)
      fun c _ c' => c' = { c with scopes := scope :: c.scopes } := .modify fun _ => rfl
  have hpop : Sound (leaving p fun c => { c with scopes := c.scopes.tail }) fun c a c' =>
      ∃ t, R c a t ∧ c' = { t with scopes := t.scopes.tail } := sound_leaving h fun _ => rfl
  refine (hpush.bind fun _ => hpop).imp ?_
  rintro c a _ ⟨_, _, rfl, t, ht, rfl⟩
  exact ⟨t, ht, rfl⟩

theorem sound_inScope (n : Nat) (scope : Names) (h : Sound p R) :
    Sound (inScope n scope p) fun c a c' =>
      0 < n ∧ ∃ t, R { c with scopes := scope :: c.scopes } a t ∧
        c' = { t with scopes := t.scopes.tail } := by
  refine ((sound_call n).bind fun _ => sound_withScope scope h).imp ?_
  rintro c a c' ⟨_, _, ⟨hn, rfl⟩, hrest⟩
  exact ⟨hn, hrest⟩

theorem sound_inFunction (n : Nat) (kind : FunctionKind) (h : Sound p R) :
    Sound (inFunction kind (call n) p) fun c a c' =>
      0 < n ∧ ∃ t, R { c with functionKind := kind } a t ∧
        c' = { t with functionKind := c.functionKind } := by
  refine (sound_around (f := fun c => { c with functionKind := kind })
    (g := fun c d => { d with functionKind := c.functionKind }) (fun _ => rfl) (fun _ _ => rfl)
    (sound_call n) h).imp ?_
  rintro c a c' ⟨_, t, ⟨hn, rfl⟩, ht, rfl⟩
  exact ⟨hn, t, ht, rfl⟩

theorem sound_inClass {first : Resolver Unit} {F : Context → Unit → Context → Prop}
    (hfirst : Sound first F) (h : Sound p R) :
    Sound (inClass first p) fun c a c' =>
      ∃ u t, F { c with classKind := .plain } () u ∧ R u a t ∧
        c' = { t with classKind := c.classKind } :=
  sound_around (fun _ => rfl) (fun _ _ => rfl) hfirst h

theorem quiet_withScope {scope : Names} (h : Quiet p { c with scopes := scope :: c.scopes } a c') :
    Quiet (withScope scope p) c a { c' with scopes := c'.scopes.tail } :=
  quiet_leaving (fun _ => rfl) h

theorem quiet_inScope {n : Nat} (hn : 0 < n) {scope : Names}
    (h : Quiet p { c with scopes := scope :: c.scopes } a c') :
    Quiet (inScope n scope p) c a { c' with scopes := c'.scopes.tail } :=
  (quiet_call hn c).bind (quiet_withScope h)

theorem quiet_inFunction {n : Nat} (hn : 0 < n) {kind : FunctionKind}
    (h : Quiet p { c with functionKind := kind } a c') :
    Quiet (inFunction kind (call n) p) c a { c' with functionKind := c.functionKind } :=
  (quiet_call hn { c with functionKind := kind }).bind (quiet_leaving (fun _ => rfl) h)

theorem quiet_inClass {first : Resolver Unit} {u : Context}
    (hfirst : Quiet first { c with classKind := .plain } () u) (h : Quiet p u a c') :
    Quiet (inClass first p) c a { c' with classKind := c.classKind } :=
  hfirst.bind (quiet_leaving (fun _ => rfl) h)

/-- What complains is not quiet. -/
theorem sound_complain (t : Token) (problem : Problem) :
    Sound (complain t problem) fun _ _ _ => False := by
  refine ⟨(Tame.complain t problem).grows, ?_⟩
  rintro c _ _ ⟨⟨⟩, hr⟩
  exact absurd hr (Report.add_ne _ _)

/-- A quiet run has not complained on the way. -/
theorem sound_unless {P : Prop} [Decidable P] (t : Token) (problem : Problem) (h : Sound p R) :
    Sound (if P then complain t problem >>= fun _ => p else p) fun c a c' => ¬P ∧ R c a c' := by
  refine (Sound.ite ((sound_complain t problem).bind fun _ => h) h).imp ?_
  rintro c a c' (⟨-, _, _, hfalse, -⟩ | hrest)
  · exact hfalse.elim
  · exact hrest

theorem sound_guarded (P : Context → Prop) [DecidablePred P] (t : Token) (problem : Problem)
    (h : Sound p R) :
    Sound (do
      let here ← get
      if P here then complain t problem >>= fun _ => p else p) fun c a c' =>
        ¬P c ∧ R c a c' := by
  refine (Sound.get.bind fun here => sound_unless (P := P here) t problem h).imp ?_
  rintro c a c' ⟨_, _, ⟨rfl, rfl⟩, hrest⟩
  exact hrest

theorem quiet_unless {P : Prop} [Decidable P] {t : Token} {problem : Problem} (hp : ¬P)
    (h : Quiet p c a c') :
    Quiet (if P then complain t problem >>= fun _ => p else p) c a c' := by
  rwa [if_neg hp]

theorem quiet_guarded {P : Context → Prop} [DecidablePred P] {t : Token} {problem : Problem}
    (hp : ¬P c) (h : Quiet p c a c') :
    Quiet (do
      let here ← get
      if P here then complain t problem >>= fun _ => p else p) c a c' :=
  (Quiet.get c).bind (quiet_unless hp h)

end Runs

/-! ### The echo of a resolution -/

/-- What a run found in one spelling, another finds in the other. -/
def Echo {α β : Type} (ρ : Renaming) (N : Depth → α → β → Prop) (q : β → Resolver β) :
    Context → α → Context → Prop := fun c a c₁ =>
  ∀ {d : Depth} {c' : Context} {b : β}, Contexts ρ d c c' → N d a b →
    ∃ c₁', Quiet (q b) c' b c₁' ∧ Contexts ρ d c₁ c₁'

variable {ρ : Renaming}

/-- The same run with a name marked. -/
theorem echo_define (n : Nat) (t : Token) :
    Sound (define n t) fun c _ c₁ => ∀ {d c'}, Contexts ρ d c c' → ρ.Fresh d t →
      ∃ c₁', Quiet (define n (ρ.tokenAt d (some 0) t)) c' () c₁' ∧ Contexts ρ d c₁ c₁' := by
  have hmark : Sound (modify fun c => { c with scopes := c.scopes.define t.lexeme } :
      Resolver Unit) fun c _ c' => c' = { c with scopes := c.scopes.define t.lexeme } :=
    .modify fun _ => rfl
  refine ((sound_call n).bind fun _ => hmark).imp ?_
  rintro c _ _ ⟨_, _, ⟨hn, rfl⟩, rfl⟩ d c' hc hf
  exact ⟨_, (quiet_call hn c').bind ⟨rfl, rfl⟩, hc.mark hf true⟩

theorem echo_declare (n : Nat) (t : Token) :
    Sound (declare n t) fun c _ c₁ => ∀ {d c'}, Contexts ρ d c c' → ρ.Fresh d t →
      ∃ c₁', Quiet (declare n (ρ.tokenAt d (some 0) t)) c' () c₁' ∧ Contexts ρ d c₁ c₁' := by
  have hmark : Sound (modify fun c => { c with scopes := c.scopes.declare t.lexeme } :
      Resolver Unit) fun c _ c' => c' = { c with scopes := c.scopes.declare t.lexeme } :=
    .modify fun _ => rfl
  refine ((sound_call n).bind fun _ =>
    sound_guarded (fun c => c.scopes.redeclares t.lexeme = true) t .redeclared hmark).imp ?_
  rintro c _ _ ⟨_, _, ⟨hn, rfl⟩, hnew, rfl⟩ d c' hc hf
  rw [← hc.scopes.redeclares hf] at hnew
  exact ⟨_, (quiet_call hn c').bind (quiet_guarded hnew ⟨rfl, rfl⟩), hc.mark hf false⟩

/-- Filling in a distance, in one step; the use is recorded where there is one. -/
theorem locate_run (kind : UseKind) (ref : Reference) (c : Context) :
    locate kind ref c = .ok { ref with hops := c.scopes.hops? ref.name }
      { c with uses := (c.scopes.hops? ref.name).elim c.uses fun hops =>
          c.uses.push ⟨kind, ref.token, hops⟩ } := by
  unfold locate
  rw [bind_ok (show (get : Resolver Context) c = .ok c c from rfl)]
  cases c.scopes.hops? ref.name <;> rfl

/-- A use is found at the same distance. -/
theorem echo_locate (kind : UseKind) (ref : Reference) :
    Sound (locate kind ref) fun c r c₁ =>
      r = { ref with hops := c.scopes.hops? ref.name } ∧ ∀ {d c'}, Contexts ρ d c c' →
        ρ.Fresh d r.token → ∃ c₁', Quiet (locate kind (ρ.reference d r)) c' (ρ.reference d r) c₁' ∧
          Contexts ρ d c₁ c₁' := by
  refine ⟨(Tame.locate kind ref).grows, ?_⟩
  rintro c r c₁ ⟨hrun, -⟩
  obtain ⟨rfl, rfl⟩ := EStateM.Result.ok.inj ((locate_run kind ref c).symm.trans hrun)
  refine ⟨rfl, fun {d c'} hc hf => ?_⟩
  have hsame : c'.scopes.hops? (ρ.reference d ⟨ref.token, c.scopes.hops? ref.name⟩).name =
      c.scopes.hops? ref.name := hc.scopes.hops? hf
  have hrun' := locate_run kind (ρ.reference d ⟨ref.token, c.scopes.hops? ref.name⟩) c'
  rw [hsame] at hrun'
  refine ⟨_, ⟨hrun', rfl⟩, hc.scopes, hc.functionKind, hc.classKind, ?_⟩
  cases hops : c.scopes.hops? ref.name with
  | none => exact hc.uses
  | some n =>
    change List.Forall₂ Use.SameAt (c.uses.push _).toList (c'.uses.push _).toList
    rw [Array.toList_push, Array.toList_push]
    exact List.rel_append hc.uses (.cons ⟨rfl, rfl, Renaming.tokenAt_span _ _ _⟩ .nil)

/-- A variable that is not read in its own initializer is not so under its other
name. -/
theorem echo_readVariable (ref : Reference) :
    Sound (readVariable ref) fun c r c₁ =>
      r.token = ref.token ∧ ∀ {d c'}, Contexts ρ d c c' → ρ.Fresh d r.token →
        ∃ c₁', Quiet (readVariable (ρ.reference d r)) c' (ρ.reference d r) c₁' ∧
          Contexts ρ d c₁ c₁' := by
  refine (sound_guarded (fun c => c.scopes.isPending ref.name = true) ref.token .ownInitializer
    (echo_locate (ρ := ρ) .variable_ ref)).imp ?_
  rintro c r c₁ ⟨hready, rfl, hlocate⟩
  refine ⟨rfl, fun {d c'} hc hf => ?_⟩
  obtain ⟨c₁', hq, hc₁⟩ := hlocate hc hf
  refine ⟨c₁', quiet_guarded ?_ hq, hc₁⟩
  change ¬c'.scopes.isPending
    (ρ.tokenAt d (c.scopes.hops? ref.token.lexeme) ref.token).lexeme = true
  rwa [hc.scopes.isPending hf]

/-- One tree after another. -/
theorem echo_mapM {α β γ : Type} {f : γ → Resolver α} {N : Depth → α → β → Prop}
    {q : β → Resolver β} (h : ∀ x, Sound (f x) (Echo ρ N q)) (xs : List γ) :
    Sound (xs.mapM f) (Echo ρ (fun d => List.Forall₂ (N d)) (·.mapM q)) := by
  induction xs with
  | nil =>
    refine (Sound.pure _).imp ?_
    rintro c _ _ ⟨rfl, rfl⟩ d c' _ hc ⟨⟩
    exact ⟨c', .pure _ _, hc⟩
  | cons x xs ih =>
    rw [List.mapM_cons]
    refine ((h x).bind fun _ => ih.bind fun _ => .pure _).imp ?_
    rintro c _ _ ⟨a, t, ha, as, u, has, rfl, rfl⟩ d c' _ hc (_ | ⟨hb, hbs⟩)
    obtain ⟨t', hq, ht⟩ := ha hc hb
    obtain ⟨u', hqs, hu⟩ := has ht hbs
    refine ⟨u', ?_, hu⟩
    change Quiet (List.mapM q (_ :: _)) _ _ _
    rw [List.mapM_cons]
    exact hq.bind (hqs.bind (.pure _ _))

/-- A tree that may be left out. -/
theorem echo_optionMapM {α β γ : Type} {f : γ → Resolver α} {N : Depth → α → β → Prop}
    {q : β → Resolver β} (h : ∀ x, Sound (f x) (Echo ρ N q)) (o : Option γ) :
    Sound (o.mapM f) (Echo ρ (fun d => Option.Rel (N d)) (·.mapM q)) := by
  cases o with
  | none =>
    refine (Sound.pure none).imp ?_
    rintro c _ _ ⟨rfl, rfl⟩ d c' _ hc ⟨⟩
    exact ⟨c', .pure none _, hc⟩
  | some x =>
    refine ((h x).map some).imp ?_
    rintro c _ c₁ ⟨a, ha, rfl⟩ d c' _ hc ⟨⟩
    rename_i hb
    obtain ⟨c₁', hq, hc₁⟩ := ha hc hb
    exact ⟨c₁', hq.map some, hc₁⟩

/-! ### Expressions -/

/-- The uses of `this` are those that they were. -/
theorem echo_this (n : Nat) (ref : Reference) :
    Sound (expression (n + 1) (.thisRef ref)) (Echo ρ (ExprRenamed ρ) (expression (n + 1))) := by
  have hcases : Sound (expression (n + 1) (.thisRef ref)) fun c e c₁ => ∃ r, e = .thisRef r ∧
      (c.classKind == .none) = false ∧ ∀ {d c'}, Contexts ρ d c c' → ρ.Fresh d r.token →
        ∃ c₁', Quiet (locate .this_ (ρ.reference d r)) c' (ρ.reference d r) c₁' ∧
          Contexts ρ d c₁ c₁' := by
    refine (Sound.get.bind fun c => Sound.ite (c := (c.classKind == .none) = true)
      ((sound_complain _ _).bind fun _ => .pure (Expr.thisRef { ref with hops := none }))
      ((echo_locate (ρ := ρ) .this_ ref).map Expr.thisRef)).imp ?_
    rintro c _ c₁ ⟨_, _, ⟨rfl, rfl⟩, ⟨-, _, _, hfalse, -⟩ | ⟨hkind, r, ⟨-, hr⟩, rfl⟩⟩
    · exact hfalse.elim
    · exact ⟨r, rfl, by simpa using hkind, hr⟩
  refine hcases.imp ?_
  rintro c _ c₁ ⟨r, rfl, hkind, hr⟩ d c' _ hc ⟨⟩
  rename_i hs
  obtain ⟨c₁', hq, hc₁⟩ := hr hc hs.fresh
  rw [hs.reference] at hq
  refine ⟨c₁', (Quiet.get c').bind ?_, hc₁⟩
  rw [if_neg (by rw [hc.classKind, hkind]; exact Bool.false_ne_true)]
  exact hq.map Expr.thisRef

/-- The uses of `super` are those that they were. -/
theorem echo_super (n : Nat) (ref : Reference) (method : Token) :
    Sound (expression (n + 1) (.superRef ref method))
      (Echo ρ (ExprRenamed ρ) (expression (n + 1))) := by
  have hrest := (echo_locate (ρ := ρ) .super_ ref).bind fun r => Sound.pure (Expr.superRef r method)
  have hcases : Sound (expression (n + 1) (.superRef ref method)) fun c e c₁ =>
      ∃ r, e = .superRef r method ∧ c.classKind = .subclass ∧ ∀ {d c'}, Contexts ρ d c c' →
        ρ.Fresh d r.token → ∃ c₁', Quiet (locate .super_ (ρ.reference d r)) c'
          (ρ.reference d r) c₁' ∧ Contexts ρ d c₁ c₁' := by
    refine (Sound.get.bind (Q := fun here c e c₁ => ∃ r, e = .superRef r method ∧
      here.classKind = .subclass ∧ ∀ {d c'}, Contexts ρ d c c' → ρ.Fresh d r.token →
        ∃ c₁', Quiet (locate .super_ (ρ.reference d r)) c' (ρ.reference d r) c₁' ∧
          Contexts ρ d c₁ c₁') fun here => ?_).imp ?_
    -- Nothing is complained about only in a class with a superclass.
    · cases hkind : here.classKind with
      | none => exact ((sound_complain _ _).bind fun _ => hrest).imp fun ⟨_, _, h, _⟩ => h.elim
      | plain => exact ((sound_complain _ _).bind fun _ => hrest).imp fun ⟨_, _, h, _⟩ => h.elim
      | subclass =>
        refine hrest.imp ?_
        rintro c _ _ ⟨r, _, ⟨-, hr⟩, rfl, rfl⟩
        exact ⟨r, rfl, rfl, hr⟩
    · rintro c _ c₁ ⟨_, _, ⟨rfl, rfl⟩, h⟩
      exact h
  refine hcases.imp ?_
  rintro c _ c₁ ⟨r, rfl, hkind, hr⟩ d c' _ hc ⟨⟩
  rename_i hs
  obtain ⟨c₁', hq, hc₁⟩ := hr hc hs.fresh
  rw [hs.reference] at hq
  refine ⟨c₁', (Quiet.get c').bind ?_, hc₁⟩
  rw [hc.classKind, hkind]
  exact hq.bind (.pure _ _)

theorem echo_expression (n : Nat) : ∀ e : Expr,
    Sound (expression n e) (Echo ρ (ExprRenamed ρ) (expression n)) := by
  -- On the frames, as the resolver calls itself with one frame less.
  induction n with
  | zero => exact fun _ => (Sound.throw _).imp False.elim
  | succ n ih =>
    intro e
    cases e with
    | literal v =>
      refine (Sound.pure _).imp ?_
      rintro c _ _ ⟨rfl, rfl⟩ d c' _ hc ⟨⟩
      exact ⟨c', .pure _ _, hc⟩
    | grouping e =>
      refine ((ih e).map Expr.grouping).imp ?_
      rintro c _ c₁ ⟨a, ha, rfl⟩ d c' _ hc ⟨⟩
      rename_i he
      obtain ⟨c₁', hq, hc₁⟩ := ha hc he
      exact ⟨c₁', hq.map Expr.grouping, hc₁⟩
    | unary op e =>
      refine ((ih e).map (Expr.unary op)).imp ?_
      rintro c _ c₁ ⟨a, ha, rfl⟩ d c' _ hc ⟨⟩
      rename_i he
      obtain ⟨c₁', hq, hc₁⟩ := ha hc he
      exact ⟨c₁', hq.map (Expr.unary op), hc₁⟩
    | binary l op r =>
      refine ((ih l).bind fun _ => (ih r).bind fun _ => .pure _).imp ?_
      rintro c _ _ ⟨a, t, ha, b, u, hb, rfl, rfl⟩ d c' _ hc ⟨⟩
      rename_i hl hr
      obtain ⟨t', hq, ht⟩ := ha hc hl
      obtain ⟨u', hq', hu⟩ := hb ht hr
      exact ⟨u', hq.bind (hq'.bind (.pure _ _)), hu⟩
    | logical l op r =>
      refine ((ih l).bind fun _ => (ih r).bind fun _ => .pure _).imp ?_
      rintro c _ _ ⟨a, t, ha, b, u, hb, rfl, rfl⟩ d c' _ hc ⟨⟩
      rename_i hl hr
      obtain ⟨t', hq, ht⟩ := ha hc hl
      obtain ⟨u', hq', hu⟩ := hb ht hr
      exact ⟨u', hq.bind (hq'.bind (.pure _ _)), hu⟩
    | var ref =>
      refine ((echo_readVariable (ρ := ρ) ref).map Expr.var).imp ?_
      rintro c _ c₁ ⟨r, ⟨-, hr⟩, rfl⟩ d c' _ hc ⟨⟩
      rename_i hf
      obtain ⟨c₁', hq, hc₁⟩ := hr hc hf
      exact ⟨c₁', hq.map Expr.var, hc₁⟩
    | assign ref e =>
      refine ((ih e).bind fun _ =>
        (echo_locate (ρ := ρ) .assignment ref).bind fun _ => .pure _).imp ?_
      rintro c _ _ ⟨a, t, ha, r, u, ⟨-, hr⟩, rfl, rfl⟩ d c' _ hc ⟨⟩
      rename_i hf he
      obtain ⟨t', hq, ht⟩ := ha hc he
      obtain ⟨u', hq', hu⟩ := hr ht hf
      exact ⟨u', hq.bind (hq'.bind (.pure _ _)), hu⟩
    | call f paren es =>
      refine ((ih f).bind fun _ => (echo_mapM ih es).bind fun _ => .pure _).imp ?_
      rintro c _ _ ⟨a, t, ha, b, u, hb, rfl, rfl⟩ d c' _ hc ⟨⟩
      rename_i hf hes
      obtain ⟨t', hq, ht⟩ := ha hc hf
      obtain ⟨u', hq', hu⟩ := hb ht hes
      exact ⟨u', hq.bind (hq'.bind (.pure _ _)), hu⟩
    | get o name =>
      refine ((ih o).bind fun _ => .pure _).imp ?_
      rintro c _ _ ⟨a, t, ha, rfl, rfl⟩ d c' _ hc ⟨⟩
      rename_i ho
      obtain ⟨t', hq, ht⟩ := ha hc ho
      exact ⟨t', hq.bind (.pure _ _), ht⟩
    | set o name e =>
      refine ((ih e).bind fun _ => (ih o).bind fun _ => .pure _).imp ?_
      rintro c _ _ ⟨a, t, ha, b, u, hb, rfl, rfl⟩ d c' _ hc ⟨⟩
      rename_i ho he
      obtain ⟨t', hq, ht⟩ := ha hc he
      obtain ⟨u', hq', hu⟩ := hb ht ho
      exact ⟨u', hq.bind (hq'.bind (.pure _ _)), hu⟩
    | thisRef ref => exact echo_this n ref
    | superRef ref method => exact echo_super n ref method
    | blank _ | bare _ | misplaced _ => exact (Sound.throw _).imp False.elim

/-! ### Statements -/

/-- A resolution of statements that gives the same under both spellings. -/
def Echoes (ρ : Renaming) (f : Stmt → Resolver Stmt) : Prop :=
  ∀ s : Stmt, Sound (f s) (Echo ρ (StmtRenamed ρ) f)

theorem echo_body {f : Stmt → Resolver Stmt} (hf : Echoes ρ f) (body : List Stmt) :
    Sound (body.mapM f) (Echo ρ (BodyRenamed ρ) (·.mapM f)) :=
  (echo_mapM hf body).imp fun h => fun hc hb => h hc hb.forall₂

/-- So for statements one after another, for functions and for classes. -/
def EchoesBodies (ρ : Renaming) (f : List Stmt → Resolver (List Stmt)) : Prop :=
  ∀ body : List Stmt, Sound (f body) (Echo ρ (BodyRenamed ρ) f)

/-- The name of a function stays. -/
def EchoesFunctions (ρ : Renaming) (f : FunctionKind → Function → Resolver Function) : Prop :=
  ∀ (kind : FunctionKind) (g : Function), Sound (f kind g) fun c r c₁ => r.name = g.name ∧
    Echo ρ (FunctionRenamed ρ) (f kind) c r c₁

/-- The other spelling of a class is a class. -/
def EchoesClasses (ρ : Renaming)
    (f : Token → Option Reference → List Function → Resolver Stmt) : Prop :=
  ∀ name superclass ms, Sound (f name superclass ms) fun c r c₁ =>
    ∀ {d c' r'}, Contexts ρ d c c' → StmtRenamed ρ d r r' → ∃ name' superclass' ms' c₁',
      r' = .classDecl name' superclass' ms' ∧ Quiet (f name' superclass' ms') c' r' c₁' ∧
      Contexts ρ d c₁ c₁'

theorem echo_params (n : Nat) (params : List Token) :
    Sound (forIn params PUnit.unit fun p _ => do declare n p; define n p; pure (.yield PUnit.unit))
      fun c _ c₁ => ∀ {d c'}, Contexts ρ d c c' → (∀ p ∈ params, ρ.Fresh d p) →
        ∃ c₁', Quiet (forIn (params.map (ρ.tokenAt d (some 0))) PUnit.unit fun p _ => do
          declare n p; define n p; pure (.yield PUnit.unit)) c' () c₁' ∧
          Contexts ρ d c₁ c₁' := by
  induction params with
  | nil =>
    refine (Sound.pure _).imp ?_
    rintro c _ _ ⟨rfl, rfl⟩ d c' hc -
    exact ⟨c', .pure _ _, hc⟩
  | cons p params ih =>
    simp only [List.forIn_cons, bind_assoc, pure_bind, List.map_cons]
    refine ((echo_declare (ρ := ρ) n p).bind fun _ =>
      (echo_define (ρ := ρ) n p).bind fun _ => ih).imp ?_
    rintro c _ c₁ ⟨_, _, hdeclare, _, _, hdefine, hrest⟩ d c' hc hp
    rw [List.forall_mem_cons] at hp
    obtain ⟨t', hq, ht⟩ := hdeclare hc hp.1
    obtain ⟨u', hq', hu⟩ := hdefine ht hp.1
    obtain ⟨c₁', hq'', hc₁⟩ := hrest hu hp.2
    exact ⟨c₁', hq.bind (hq'.bind hq''), hc₁⟩

/-- The scope of a function's parameters and body may be the renamed one. -/
theorem echo_function (n : Nat) {f : List Stmt → Resolver (List Stmt)} (hf : EchoesBodies ρ f) :
    EchoesFunctions ρ (functionWith n f) := by
  rintro kind ⟨name, params, body⟩
  refine (sound_inFunction n kind (sound_withScope .empty
    ((echo_params (ρ := ρ) n params).bind fun _ =>
      (hf body).map (Function.mk name params)))).imp ?_
  rintro c _ _ ⟨hn, _, ⟨t, ⟨_, u, hparams, body, hbody, rfl⟩, rfl⟩, rfl⟩
  refine ⟨rfl, fun {d c'} {g'} hc hg => ?_⟩
  obtain ⟨ho, hp, hb⟩ := hg
  obtain ⟨u', hq, hu⟩ := hparams ((hc.inFunction kind).opened ho) hp
  obtain ⟨t', hq', ht⟩ := hbody hu hb
  refine ⟨_, quiet_inFunction hn (quiet_withScope (hq.bind (hq'.map (Function.mk name _)))), ?_⟩
  have htail := ht.tail ho
  exact ⟨htail.scopes, hc.functionKind, htail.classKind, htail.uses⟩

theorem Names.get?_of {name other : String} (h : name ≠ other) :
    (Names.of name).get? other = none := by
  rw [Names.of, Bindings.get?_set, if_neg h]
  rfl

section Classes

variable (n : Nat) {f : FunctionKind → Function → Resolver Function} (hf : EchoesFunctions ρ f)

include hf

theorem echo_methods (ms : List Function) :
    Sound (methodsWith n f ms) (Echo ρ (fun d => MethodsRenamed ρ d.inner) (methodsWith n f)) := by
  -- Whether a method is an initializer is a matter of its name, which stays.
  have hmethod : ∀ m : Function, Sound (f (if m.isInit then .initializer else .method) m)
      (Echo ρ (FunctionRenamed ρ) fun m => f (if m.isInit then .initializer else .method) m) := by
    refine fun m => (hf _ m).imp ?_
    rintro c r c₁ ⟨hname, hecho⟩ d c' b hc hb
    have hinit : b.isInit = m.isInit := by
      rw [hb.isInit, Function.isInit, hname, Function.isInit]
    change ∃ c₁', Quiet (f (if b.isInit then .initializer else .method) b) _ _ _ ∧ _
    rw [hinit]
    exact hecho hc hb
  refine (sound_inScope n (Names.of "this") (echo_mapM hmethod ms)).imp ?_
  rintro c r _ ⟨hn, t, ht, rfl⟩ d c' ms' hc hms
  obtain ⟨t', hq, ht'⟩ := ht (hc.push (Names.get?_of ρ.new_ordinary.1.symm)) hms.forall₂
  exact ⟨_, quiet_inScope hn hq, ht'.tail .inner⟩

theorem echo_class : EchoesClasses ρ (classWith n f) := by
  intro name superclass ms
  have hfirst := (echo_declare (ρ := ρ) n name).bind fun _ => echo_define (ρ := ρ) n name
  cases superclass with
  | none =>
    refine (sound_inClass hfirst ((echo_methods n hf ms).map (Stmt.classDecl name none))).imp ?_
    rintro c _ _ ⟨v, t, ⟨_, u, hdeclare, hdefine⟩, ⟨ms, hms, rfl⟩, rfl⟩ d c' _ hc ⟨⟩
    -- The name is declared at the depth outside; the class scope opens after it.
    rename_i ms' hk hm
    obtain ⟨u', hq, hu⟩ := hdeclare (hc.inClass .plain) hk.1
    obtain ⟨v', hq', hv⟩ := hdefine hu hk.1
    obtain ⟨t', hq'', ht⟩ := hms hv hm
    rw [hk.tokenAt] at hq hq'
    exact ⟨name, none, ms', _, rfl, quiet_inClass (hq.bind hq') (hq''.map _),
      ht.scopes, ht.functionKind, hc.classKind, ht.uses⟩
  | some ref =>
    have hinherit : Sound inherit fun c _ c' => c' = { c with classKind := .subclass } :=
      .modify fun _ => rfl
    refine (sound_inClass hfirst (sound_unless (P := ref.name = name.lexeme) ref.token
      .selfInheritance (hinherit.bind fun _ => (echo_readVariable (ρ := ρ) ref).bind fun _ =>
        (sound_inScope n (Names.of "super") (echo_methods n hf ms)).bind fun _ => .pure _))).imp ?_
    rintro c _ _ ⟨v, t, ⟨_, u, hdeclare, hdefine⟩, ⟨hself, _, _, rfl, r, x, ⟨hr, href⟩, ms, _,
      ⟨hn, y, hms, rfl⟩, rfl, rfl⟩, rfl⟩ d c' _ hc ⟨⟩
    rename_i ms' hk hfresh hm
    obtain ⟨u', hq, hu⟩ := hdeclare (hc.inClass .plain) hk.1
    obtain ⟨v', hq', hv⟩ := hdefine hu hk.1
    obtain ⟨x', hread, hx⟩ := href (hv.inClass .subclass) hfresh
    obtain ⟨y', hq'', hy⟩ := hms (hx.push (Names.get?_of ρ.new_ordinary.2.symm)) hm
    rw [hk.tokenAt] at hq hq'
    have hname : r.name = ref.name := congrArg Token.lexeme hr
    -- Renaming cannot make the superclass the class itself.
    have hself' : (ρ.reference d r).name ≠ name.lexeme := hk.1.apart (hname ▸ hself)
    have hmethods : Quiet (do
        inherit
        let ref ← readVariable (ρ.reference d r)
        let methods ← inScope n (Names.of "super") (methodsWith n f ms')
        pure (Stmt.classDecl name (some ref) methods)) v' _ _ :=
      Quiet.bind ⟨rfl, rfl⟩ (hread.bind ((quiet_inScope hn hq'').bind (.pure _ _)))
    have htail := hy.tail .inner
    exact ⟨name, some (ρ.reference d r), ms', _, rfl,
      quiet_inClass (hq.bind hq') (quiet_unless hself' hmethods),
      htail.scopes, htail.functionKind, hc.classKind, htail.uses⟩

end Classes

theorem echo_trees (n : Nat) : Echoes ρ (statement n) ∧ EchoesBodies ρ (statements n) ∧
    EchoesFunctions ρ (function n) ∧ EchoesClasses ρ (classDecl n) := by
  -- On the frames, all calls together; what a node calls has one frame less.
  induction n with
  | zero =>
    exact ⟨fun _ => (Sound.throw _).imp False.elim, fun _ => (Sound.throw _).imp False.elim,
      fun _ _ => (Sound.throw _).imp False.elim, fun _ _ _ => (Sound.throw _).imp False.elim⟩
  | succ n ih =>
    obtain ⟨ih, hbody, hfunction, hclass⟩ := ih
    refine ⟨fun s => ?_, echo_body ih, echo_function n hbody, echo_class n hfunction⟩
    cases s with
    | expression e =>
      refine ((echo_expression (ρ := ρ) n e).map Stmt.expression).imp ?_
      rintro c _ c₁ ⟨a, ha, rfl⟩ d c' _ hc ⟨⟩
      rename_i he
      obtain ⟨c₁', hq, hc₁⟩ := ha hc he
      exact ⟨c₁', hq.map Stmt.expression, hc₁⟩
    | print e =>
      refine ((echo_expression (ρ := ρ) n e).map Stmt.print).imp ?_
      rintro c _ c₁ ⟨a, ha, rfl⟩ d c' _ hc ⟨⟩
      rename_i he
      obtain ⟨c₁', hq, hc₁⟩ := ha hc he
      exact ⟨c₁', hq.map Stmt.print, hc₁⟩
    | varDecl name init =>
      refine ((echo_declare (ρ := ρ) n name).bind fun _ =>
        (echo_optionMapM (echo_expression (ρ := ρ) n) init).bind fun _ =>
          (echo_define (ρ := ρ) n name).bind fun _ => .pure _).imp ?_
      rintro c _ _ ⟨_, t, hdeclare, init, u, hinit, _, v, hdefine, rfl, rfl⟩ d c' _ hc ⟨⟩
      rename_i hf hi
      obtain ⟨t', hq, ht⟩ := hdeclare hc hf
      obtain ⟨u', hq', hu⟩ := hinit ht hi
      obtain ⟨v', hq'', hv⟩ := hdefine hu hf
      exact ⟨v', hq.bind (hq'.bind (hq''.bind (.pure _ _))), hv⟩
    | block body =>
      refine ((sound_inScope n .empty (hbody body)).map Stmt.block).imp ?_
      rintro c _ _ ⟨body, ⟨hn, t, hbody, rfl⟩, rfl⟩ d c' _ hc ⟨⟩
      rename_i ho hb
      obtain ⟨t', hq, ht⟩ := hbody (hc.opened ho) hb
      exact ⟨_, (quiet_inScope hn hq).map Stmt.block, ht.tail ho⟩
    | ifElse e s t =>
      refine ((echo_expression (ρ := ρ) n e).bind fun _ => (ih s).bind fun _ =>
        (echo_optionMapM ih t).bind fun _ => .pure _).imp ?_
      rintro c _ _ ⟨e, u, he, s, v, hs, t, w, ht, rfl, rfl⟩ d c' _ hc hr
      obtain ⟨e', s', t', rfl, hee, hss, htt⟩ := hr.branches
      obtain ⟨u', hq, hu⟩ := he hc hee
      obtain ⟨v', hq', hv⟩ := hs hu hss
      obtain ⟨w', hq'', hw⟩ := ht hv htt
      exact ⟨w', hq.bind (hq'.bind (hq''.bind (.pure _ _))), hw⟩
    | whileLoop e s =>
      refine ((echo_expression (ρ := ρ) n e).bind fun _ => (ih s).bind fun _ => .pure _).imp ?_
      rintro c _ _ ⟨a, t, ha, b, u, hb, rfl, rfl⟩ d c' _ hc ⟨⟩
      rename_i he hs
      obtain ⟨t', hq, ht⟩ := ha hc he
      obtain ⟨u', hq', hu⟩ := hb ht hs
      exact ⟨u', hq.bind (hq'.bind (.pure _ _)), hu⟩
    | breakLoop keyword =>
      refine (Sound.pure _).imp ?_
      rintro c _ _ ⟨rfl, rfl⟩ d c' _ hc ⟨⟩
      exact ⟨c', .pure _ _, hc⟩
    | funDecl f =>
      refine ((echo_declare (ρ := ρ) n f.name).bind fun _ =>
        (echo_define (ρ := ρ) n f.name).bind fun _ =>
          (hfunction .function f).map Stmt.funDecl).imp ?_
      rintro c _ c₁ ⟨_, t, hdeclare, _, u, hdefine, g, ⟨hname, hg⟩, rfl⟩ d c' _ hc ⟨⟩
      rename_i g' hk hf
      rw [hname] at hk
      obtain ⟨t', hq, ht⟩ := hdeclare hc hk.1
      obtain ⟨u', hq', hu⟩ := hdefine ht hk.1
      obtain ⟨v', hq'', hv⟩ := hg hu hf
      rw [hk.tokenAt, ← hname, ← hf.name] at hq hq'
      exact ⟨v', hq.bind (hq'.bind (hq''.map Stmt.funDecl)), hv⟩
    | returnWith keyword value =>
      refine (sound_guarded (fun c => (c.functionKind == .none) = true) keyword .topLevelReturn
        ((echo_optionMapM (echo_expression (ρ := ρ) n) value).bind fun _ => .pure _)).imp ?_
      rintro c _ _ ⟨hinside, a, t, ha, rfl, rfl⟩ d c' _ hc ⟨⟩
      rename_i hv
      obtain ⟨t', hq, ht⟩ := ha hc hv
      rw [← hc.functionKind] at hinside
      exact ⟨t', quiet_guarded hinside (hq.bind (.pure _ _)), ht⟩
    | classDecl name superclass ms =>
      refine (hclass name superclass ms).imp ?_
      rintro c r c₁ hr d c' r' hc hrr
      obtain ⟨name', superclass', ms', c₁', rfl, hq, hc₁⟩ := hr hc hrr
      exact ⟨c₁', hq, hc₁⟩
    | misplaced _ => exact (Sound.throw _).imp False.elim

theorem echo_statement (n : Nat) : Echoes ρ (statement n) :=
  (echo_trees n).1

/-! ### Programs -/

theorem echo_topLevel (n : Nat) : Echoes ρ (topLevel n) := by
  refine fun s => sound_topLevel ((echo_statement (ρ := ρ) n s).imp ?_)
  intro c r c₁ h d c' r' hc hr
  obtain ⟨c₁', hq, hc₁⟩ := h hc hr
  exact ⟨c₁', quiet_topLevel hq, hc₁⟩

/-- The outcome of a resolution is that of its statements. -/
theorem mapM_of_resolve {frames : Nat} {program : List Stmt} {listing : Listing} {report : Report}
    {r : Resolved} (h : resolve frames program listing report = .ok r) :
    ∃ c, program.mapM (topLevel frames) { listing, report } = .ok r.statements c ∧
      r.uses = c.uses ∧ r.report = c.report := by
  unfold resolve at h
  cases hrun : program.mapM (topLevel frames) { listing, report } with
  | ok ss c =>
    rw [hrun] at h
    cases h
    exact ⟨c, rfl, rfl, rfl⟩
  | error e c =>
    rw [hrun] at h
    cases e with
    | tooDeep => exact absurd hrun (mapM_topLevel_ne_tooDeep frames program _ c)
    | noStatement kind => cases h
    | noExpression kind => cases h

/-- A program that is resolved without a problem is so under its other spelling,
and every use has the same distance. -/
theorem resolve_renamed {frames : Nat} {program renamed : List Stmt} {listing : Listing}
    {report : Report} {r : Resolved} (h : resolve frames program listing report = .ok r)
    (hquiet : r.report = report) (hrenamed : BodyRenamed ρ none r.statements renamed)
    (listing' : Listing) (report' : Report) :
    ∃ r', resolve frames renamed listing' report' = .ok r' ∧ r'.report = report' ∧
      r'.statements = renamed ∧ List.Forall₂ Use.SameAt r.uses.toList r'.uses.toList := by
  obtain ⟨c, hrun, huses, hreport⟩ := mapM_of_resolve h
  have hstart : Contexts ρ none { listing, report } { listing := listing', report := report' } :=
    ⟨.outside, rfl, rfl, .nil⟩
  obtain ⟨c', hq, hc⟩ := (echo_body (echo_topLevel frames) program).quiet
    ⟨hrun, hreport.symm.trans hquiet⟩ hstart hrenamed
  refine ⟨⟨renamed, c'.uses, c'.report, c'.scopes.length⟩, ?_, hq.2, rfl, ?_⟩
  · have hrun' : renamed.mapM (topLevel frames) _ = _ := hq.1
    unfold resolve
    rw [hrun']
  · rw [huses]
    exact hc.uses

end Scope

end Lox
