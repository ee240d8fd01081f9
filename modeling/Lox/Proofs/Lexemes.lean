/-
How the words of a text are written.

Signs and reserved words are written in one way, and the way tells the kind.  A name begins with
a letter and is not reserved, and a string has no quote inside.  So the kind of a word and the
text that shows it in a tree say all that there is to the word, up to its place.

* `Kind.spelling`, `Kind.ofSpelling` — signs and reserved words, and the kinds that they have;
* `IsName` — the names;
* `Word.Scanned`, `words_scanned` — the words that a text can have;
* `Token.unplaced` — a token without its place;
* `unplaced_of_isFixed`, `unplaced_of_identifier` — the tokens of signs and of names.
-/
import Lox.Proofs.Scanning

namespace Lox.Token

/-! ### Signs and reserved words -/

namespace Kind

/-- The signs. -/
def signs : List (String × Kind) :=
  [("(", leftParen), (")", rightParen), ("\x7b", leftBrace), ("\x7d", rightBrace),
   (",", comma), (".", dot), ("-", minus), ("+", plus), (";", semicolon), ("/", slash),
   ("*", star), ("!", bang), ("!=", bangEqual), ("=", equal), ("==", equalEqual),
   (">", greater), (">=", greaterEqual), ("<", less), ("<=", lessEqual)]

/-- The signs and the reserved words, each with its kind. -/
def spellings : List (String × Kind) :=
  signs ++ reserved

/-- Whether the words of a kind are all written in the same way. -/
def isFixed (k : Kind) : Bool :=
  spellings.any (·.2 == k)

/-- How the words of a kind are written, if all are written in the same way. -/
def spelling (k : Kind) : String :=
  ((spellings.find? (·.2 == k)).map (·.1)).getD ""

/-- The kind of a sign or a reserved word. -/
def ofSpelling (s : String) : Kind :=
  (spellings.lookup s).getD identifier

theorem spelling_of_mem {s : String} {k : Kind} (h : (s, k) ∈ spellings) :
    k.isFixed = true ∧ s = k.spelling := by
  have hall : ∀ p ∈ spellings, p.2.isFixed = true ∧ p.1 = p.2.spelling := by decide
  exact hall (s, k) h

end Kind

/-! ### Words -/

/-- A name: letters and digits, the first no digit, that are no reserved word. -/
def IsName (s : String) : Prop :=
  (∃ c rest, s.toList = c :: rest ∧ isWordStart c = true ∧ ∀ d ∈ rest, isWordPart d = true) ∧
    Kind.ofWord s = .identifier

/-- A word that a text can have. -/
inductive Word.Scanned : Word → Prop
  | fixed {k : Kind} (hk : k.isFixed = true) : Scanned ⟨k, k.spelling, k.literal⟩
  | name {s : String} (hs : IsName s) : Scanned ⟨.identifier, s, .nil⟩
  | number {s : String} (x : Float) : Scanned ⟨.number, s, .number x⟩
  | string {s body : String} (hbody : '"' ∉ body.toList) : Scanned ⟨.string, s, .text body⟩

theorem Word.Scanned.of_mem {s : String} {k : Kind} (h : (s, k) ∈ Kind.spellings)
    {l : Literal} (hl : l = k.literal) : Scanned ⟨k, s, l⟩ := by
  obtain ⟨hk, rfl⟩ := Kind.spelling_of_mem h
  rw [hl]
  exact .fixed hk

theorem readSlash_scanned {rest : List Char} {kind : Kind} {literal : Literal} {more : Nat}
    (h : readSlash rest = (.token kind literal, more)) :
    Word.Scanned ⟨kind, String.ofList ('/' :: rest.take more), literal⟩ := by
  unfold readSlash at h
  split at h
  · cases h
  · split at h <;> cases h
  · cases h
    rw [List.take_zero]
    exact .of_mem (by decide) rfl

theorem readString_scanned {rest : List Char} {kind : Kind} {literal : Literal} {more : Nat}
    (h : readString rest = (.token kind literal, more)) (lexeme : String) :
    Word.Scanned ⟨kind, lexeme, literal⟩ := by
  simp only [readString] at h
  split at h <;> cases h
  refine .string fun hquote => ?_
  rw [String.toList_ofList] at hquote
  have hbody := List.all_takeWhile (p := fun c => c != '"' && c != '\n') (l := rest)
  exact absurd (List.all_eq_true.mp hbody _ hquote) (by decide)

theorem readNumber_scanned {c : Char} {rest : List Char} {kind : Kind} {literal : Literal}
    {more : Nat} (h : readNumber c rest = (.token kind literal, more)) (lexeme : String) :
    Word.Scanned ⟨kind, lexeme, literal⟩ := by
  simp only [readNumber] at h
  split at h
  · split at h <;> cases h <;> exact .number _
  · cases h
    exact .number _

theorem readWord_scanned {c : Char} {rest : List Char} {kind : Kind} {literal : Literal}
    {more : Nat} (hc : isWordStart c = true) (h : readWord c rest = (.token kind literal, more)) :
    Word.Scanned ⟨kind, String.ofList (c :: rest.take more), literal⟩ := by
  -- A word takes all the characters that belong to it.
  simp only [readWord, Prod.mk.injEq, Piece.token.injEq] at h
  obtain ⟨⟨rfl, rfl⟩, rfl⟩ := h
  rw [← List.prefix_iff_eq_take.mp (List.takeWhile_prefix isWordPart)]
  obtain ⟨word, hword⟩ : ∃ word, word = String.ofList (c :: rest.takeWhile isWordPart) := ⟨_, rfl⟩
  rw [← hword]
  cases hlookup : Kind.reserved.lookup word with
  | none =>
    have hkind : Kind.ofWord word = .identifier := by rw [Kind.ofWord, hlookup, Option.getD_none]
    have hname : IsName word := by
      refine ⟨⟨c, rest.takeWhile isWordPart, ?_, hc, fun d hd => ?_⟩, hkind⟩
      · rw [hword, String.toList_ofList]
      · exact List.all_eq_true.mp List.all_takeWhile d hd
    rw [hkind]
    exact .name hname
  | some k =>
    have hkind : Kind.ofWord word = k := by rw [Kind.ofWord, hlookup, Option.getD_some]
    rw [hkind]
    obtain ⟨before, after, hreserved, -⟩ := List.lookup_eq_some_iff.mp hlookup
    refine .of_mem (List.mem_append_right _ ?_) rfl
    rw [hreserved]
    simp

theorem readPiece_scanned {c : Char} {rest : List Char} {kind : Kind} {literal : Literal}
    {more : Nat} (h : readPiece c rest = (.token kind literal, more)) :
    Word.Scanned ⟨kind, String.ofList (c :: rest.take more), literal⟩ := by
  -- The branches are those of the reader; the signs are a finite table, and the rest has a lemma
  -- each.
  unfold readPiece at h
  split at h
  · cases h
  split at h
  case h_1 k hk =>
    cases h
    rw [List.take_zero]
    unfold single? at hk
    split at hk <;> cases hk <;> exact .of_mem (by decide) rfl
  case h_2 hk =>
    split at h
    case h_1 alone withEqual hk =>
      split at h
      case isTrue hequal =>
        cases h
        obtain ⟨after, rfl⟩ : ∃ after, rest = '=' :: after := by
          cases rest with
          | nil => cases hequal
          | cons d after => exact ⟨after, by rw [Option.some.inj hequal]⟩
        rw [List.take_succ_cons, List.take_zero]
        unfold pair? at hk
        split at hk <;> cases hk <;> exact .of_mem (by decide) rfl
      case isFalse =>
        cases h
        rw [List.take_zero]
        unfold pair? at hk
        split at hk <;> cases hk <;> exact .of_mem (by decide) rfl
    case h_2 hk =>
      split at h
      · subst c
        exact readSlash_scanned h
      split at h
      · exact readString_scanned h _
      split at h
      · exact readNumber_scanned h _
      split at h
      · exact readWord_scanned ‹_› h
      · cases h

/-- The words of a text are written as they should be. -/
theorem words_scanned (text : List Char) : ∀ w ∈ words text, w.Scanned := by
  intro w hw
  obtain ⟨c, rest, kind, literal, more, hp, rfl⟩ := read_of_mem_words hw
  exact readPiece_scanned hp

/-! ### Tokens without their places -/

/-- A token without its place. -/
def unplaced (t : Token) : Token :=
  { t with span := default }

/-- The token of a sign or a reserved word, without a place. -/
def ofKind (k : Kind) : Token :=
  { kind := k, lexeme := k.spelling, literal := k.literal }

/-- The token of a name, without a place. -/
def ofName (s : String) : Token :=
  { kind := .identifier, lexeme := s }

variable {t : Token}

/-- The kind of a sign or a reserved word says how it is written. -/
theorem unplaced_of_isFixed (h : t.word.Scanned) (hk : t.kind.isFixed = true) :
    t.unplaced = ofKind t.kind := by
  obtain ⟨w, hw⟩ : ∃ w, t.word = w := ⟨_, rfl⟩
  rw [hw] at h
  cases h with
  | @fixed k _ =>
    obtain ⟨hkind, hlexeme, hliteral⟩ := Word.mk.inj hw
    rw [unplaced, ofKind, hkind, hlexeme, hliteral]
  | name =>
    rw [(Word.mk.inj hw).1] at hk
    cases hk
  | number =>
    rw [(Word.mk.inj hw).1] at hk
    cases hk
  | string =>
    rw [(Word.mk.inj hw).1] at hk
    cases hk

/-- A name is told by its text. -/
theorem unplaced_of_identifier (h : t.word.Scanned) (hk : t.kind = .identifier) :
    IsName t.lexeme ∧ t.unplaced = ofName t.lexeme := by
  obtain ⟨w, hw⟩ : ∃ w, t.word = w := ⟨_, rfl⟩
  rw [hw] at h
  cases h with
  | fixed hfixed =>
    rw [← (Word.mk.inj hw).1, hk] at hfixed
    cases hfixed
  | name hs =>
    obtain ⟨hkind, hlexeme, hliteral⟩ := Word.mk.inj hw
    rw [unplaced, ofName, hkind, hlexeme, hliteral]
    exact ⟨hs, rfl⟩
  | number => cases hk.symm.trans (Word.mk.inj hw).1
  | string => cases hk.symm.trans (Word.mk.inj hw).1

end Lox.Token
