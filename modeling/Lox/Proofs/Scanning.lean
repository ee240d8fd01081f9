/-
What the tokens of a text are, whatever their places.

The word of a token is its kind, its text and its value; a token is a word with
a place.  The words of a text do not depend on where the text stands:

* `scan_words` — the words of a text are those of its segments, and the end of
  the input;
* `scan_report` — the report grows by errors, and by none if and only if no
  segment is a mistake;
* `read_of_mem_segments` — each segment is read off the front of some text;
* `Closed` — no comment is left open;
* `Word.Spelled` — `this` and `super` are written as they are, and are no names;
* `segments_newline` — a text that is closed, a line feed and another text have the
  segments of both;
* `words_append` — a text without mistakes, a line feed and another text have
  the words of both.
-/
import Lox.Proofs.Quiet
import Lox.Token.Scan
import Mathlib.Data.List.Basic

namespace Lox.Token

/-! ### Words -/

/-- What a token is, without its place. -/
structure Word where
  kind : Kind
  lexeme : String
  literal : Literal

/-- The word of a token. -/
def word (t : Token) : Word :=
  ⟨t.kind, t.lexeme, t.literal⟩

/-- The word of the end of the input. -/
def Word.endOfInput : Word :=
  ⟨.endOfInput, "", .nil⟩

/-- The word of a segment, if it is a token. -/
def Segment.word? (s : Segment) : Option Word :=
  match s.piece with
  | .token kind literal => some ⟨kind, String.ofList s.text, literal⟩
  | _ => none

/-- Whether a segment is a mistake. -/
def Segment.isMistake (s : Segment) : Bool :=
  match s.piece with
  | .mistake _ => true
  | _ => false

/-- The words of a text. -/
def words (text : List Char) : List Word :=
  (segments text).toList.filterMap Segment.word?

/-- A text in which no segment is a mistake. -/
def Clean (text : List Char) : Prop :=
  ∀ s ∈ (segments text).toList, s.isMistake = false

/-- A text in which no comment is left open. -/
def Closed (text : List Char) : Prop :=
  ∀ s ∈ (segments text).toList, s.piece ≠ .mistake .unterminatedComment

theorem Clean.closed {text : List Char} (h : Clean text) : Closed text := by
  intro s hs hopen
  have hclean := h s hs
  rw [Segment.isMistake, hopen] at hclean
  cases hclean

/-! ### One segment after another -/

theorem segmentsFrom_eq (text : List Char) : ∀ found : Array Segment,
    (segmentsFrom found text).toList = found.toList ++ (segments text).toList := by
  induction h : text.length using Nat.strongRecOn generalizing text with
  | _ n ih =>
    intro found
    cases text with
    | nil => simp [segments, segmentsFrom]
    | cons c rest =>
      have hlt : (rest.drop (readPiece c rest).2).length < n := by
        rw [← h, List.length_drop, List.length_cons]
        omega
      have hstep : ∀ found : Array Segment, (segmentsFrom found (c :: rest)).toList =
          (found.push ⟨(readPiece c rest).1, c :: rest.take (readPiece c rest).2⟩).toList ++
            (segments (rest.drop (readPiece c rest).2)).toList := by
        intro found
        rw [segmentsFrom, ih _ hlt _ rfl]
      rw [hstep found, show segments (c :: rest) = segmentsFrom #[] (c :: rest) from rfl, hstep #[]]
      simp

@[simp] theorem segments_nil : (segments []).toList = [] := by
  simp [segments, segmentsFrom]

theorem segments_cons (c : Char) (rest : List Char) :
    (segments (c :: rest)).toList =
      ⟨(readPiece c rest).1, c :: rest.take (readPiece c rest).2⟩ ::
        (segments (rest.drop (readPiece c rest).2)).toList := by
  rw [segments, segmentsFrom, segmentsFrom_eq]
  rfl

/-- Every segment was read off the front of some text. -/
theorem read_of_mem_segments (text : List Char) : ∀ s ∈ (segments text).toList,
    ∃ c rest, s = ⟨(readPiece c rest).1, c :: rest.take (readPiece c rest).2⟩ := by
  -- Each segment takes a character, so what is left is shorter.
  induction h : text.length using Nat.strongRecOn generalizing text with
  | _ n ih =>
    cases text with
    | nil => simp
    | cons c rest =>
      rw [segments_cons, List.forall_mem_cons]
      refine ⟨⟨c, rest, rfl⟩, ih _ ?_ _ rfl⟩
      rw [← h, List.length_drop, List.length_cons]
      omega

theorem read_of_mem_words {text : List Char} {w : Word} (h : w ∈ words text) :
    ∃ c rest kind literal more, readPiece c rest = (.token kind literal, more) ∧
      w = ⟨kind, String.ofList (c :: rest.take more), literal⟩ := by
  obtain ⟨s, hs, hword⟩ := List.mem_filterMap.mp h
  obtain ⟨c, rest, rfl⟩ := read_of_mem_segments text s hs
  cases hp : readPiece c rest with
  | mk piece more =>
    rw [hp] at hword
    cases piece with
    | blank => cases hword
    | mistake m => cases hword
    | token kind literal =>
      cases hword
      exact ⟨c, rest, kind, literal, more, hp, rfl⟩

/-! ### The places of the words -/

theorem foldl_step_words (listing : Listing) (ss : List Segment) (p : Progress) :
    (ss.foldl (Progress.step listing) p).tokens.toList.map word =
      p.tokens.toList.map word ++ ss.filterMap Segment.word? := by
  induction ss generalizing p with
  | nil => simp
  | cons s ss ih =>
    rw [List.foldl_cons, ih]
    obtain ⟨piece, text⟩ := s
    cases piece with
    | blank =>
      rw [List.filterMap_cons_none rfl]
      rfl
    | token kind literal => simp [Progress.step, Segment.word?, word]
    | mistake m =>
      rw [List.filterMap_cons_none rfl]
      rfl

/-- The words of the tokens of a text. -/
theorem scan_words (source : String) (file : Option String) (report : Report) :
    (scan source file report).1.toList.map word =
      words source.toList ++ [Word.endOfInput] := by
  simp only [scan, Array.toList_push, List.map_append, ← Array.foldl_toList, foldl_step_words]
  rfl

theorem foldl_step_report (listing : Listing) (ss : List Segment) (p : Progress) :
    p.report.Extends (ss.foldl (Progress.step listing) p).report ∧
      ((ss.foldl (Progress.step listing) p).report = p.report ↔
        ∀ s ∈ ss, s.isMistake = false) := by
  induction ss generalizing p with
  | nil => simp [Report.Extends.refl]
  | cons s ss ih =>
    obtain ⟨hgrows, hiff⟩ := ih (p.step listing s)
    rw [List.foldl_cons, List.forall_mem_cons]
    obtain ⟨piece, text⟩ := s
    cases piece with
    | blank =>
      simp only [Segment.isMistake, true_and]
      exact ⟨hgrows, hiff⟩
    | token kind literal =>
      simp only [Segment.isMistake, true_and]
      exact ⟨hgrows, hiff⟩
    | mistake m =>
      -- One more message is never taken back.
      have hstep : p.report.Extends (p.step listing ⟨.mistake m, text⟩).report :=
        .add p.report (m.static _ _)
      refine ⟨hstep.trans hgrows, ?_⟩
      simp only [Segment.isMistake, Bool.true_eq_false, false_and, iff_false]
      intro h
      rw [h] at hgrows
      exact Report.add_ne _ _ (hstep.antisymm hgrows).symm

/-- Scanning adds errors to a report, and none if and only if there is no
mistake. -/
theorem scan_report (source : String) (file : Option String) (report : Report) :
    report.Extends (scan source file report).2 ∧
      ((scan source file report).2 = report ↔ Clean source.toList) := by
  simp only [scan, ← Array.foldl_toList]
  exact foldl_step_report _ _ { place := { file }, report }

/-! ### Words that are written in one way only -/

/-- A word that is no end of input; `this` and `super` are written as they are,
and are no names. -/
structure Word.Spelled (w : Word) : Prop where
  notEnd : w.kind ≠ .endOfInput
  name : w.kind = .identifier → w.lexeme ≠ "this" ∧ w.lexeme ≠ "super"
  this : w.kind = .thisKeyword → w.lexeme = "this"
  super : w.kind = .superKeyword → w.lexeme = "super"

/-- The kinds whose words may be written in any way. -/
def Kind.isPlain : Kind → Bool
  | .endOfInput | .identifier | .thisKeyword | .superKeyword => false
  | _ => true

theorem spelled_of_isPlain {kind : Kind} (h : kind.isPlain) (lexeme : String)
    (literal : Literal) : Word.Spelled ⟨kind, lexeme, literal⟩ := by
  have hne : ∀ {k : Kind}, k.isPlain = false → kind ≠ k := by
    rintro k hk rfl
    rw [h] at hk
    cases hk
  exact ⟨hne rfl, fun h => absurd h (hne rfl), fun h => absurd h (hne rfl),
    fun h => absurd h (hne rfl)⟩

theorem spelled_ofWord (lexeme : String) (literal : Literal) :
    Word.Spelled ⟨Kind.ofWord lexeme, lexeme, literal⟩ := by
  have hword : Kind.ofWord lexeme = .identifier ∧ (lexeme ≠ "this" ∧ lexeme ≠ "super") ∨
      Kind.ofWord lexeme ≠ .identifier ∧ Kind.ofWord lexeme ≠ .endOfInput ∧
        (Kind.ofWord lexeme = .thisKeyword → lexeme = "this") ∧
        (Kind.ofWord lexeme = .superKeyword → lexeme = "super") := by
    unfold Kind.ofWord
    cases h : Kind.reserved.lookup lexeme with
    | none =>
      left
      refine ⟨rfl, ?_, ?_⟩
      · rintro rfl
        exact absurd h (by decide)
      · rintro rfl
        exact absurd h (by decide)
    | some k =>
      right
      have hmem : (lexeme, k) ∈ Kind.reserved := by
        obtain ⟨l₁, l₂, hl, -⟩ := List.lookup_eq_some_iff.mp h
        rw [hl]
        simp
      -- The table of reserved words is finite: `this` and `super` stand in it once.
      simp only [Kind.reserved, List.mem_cons, Prod.mk.injEq, List.not_mem_nil, or_false] at hmem
      rcases hmem with ⟨rfl, rfl⟩ | ⟨rfl, rfl⟩ | ⟨rfl, rfl⟩ | ⟨rfl, rfl⟩ | ⟨rfl, rfl⟩ | ⟨rfl, rfl⟩ |
        ⟨rfl, rfl⟩ | ⟨rfl, rfl⟩ | ⟨rfl, rfl⟩ | ⟨rfl, rfl⟩ | ⟨rfl, rfl⟩ | ⟨rfl, rfl⟩ | ⟨rfl, rfl⟩ |
        ⟨rfl, rfl⟩ | ⟨rfl, rfl⟩ | ⟨rfl, rfl⟩ | ⟨rfl, rfl⟩ <;> simp
  rcases hword with ⟨hk, hne⟩ | ⟨hk, hend, hthis, hsuper⟩
  · exact ⟨by simp [hk], fun _ => hne, by simp [hk], by simp [hk]⟩
  · exact ⟨hend, fun h => absurd h hk, hthis, hsuper⟩

/-- What a reader of segments tells is spelled as the words are. -/
theorem readPiece_spelled {c : Char} {rest : List Char} {kind : Kind} {literal : Literal}
    {more : Nat} (h : readPiece c rest = (.token kind literal, more)) :
    Word.Spelled ⟨kind, String.ofList (c :: rest.take more), literal⟩ := by
  -- The branches are those of the reader: white space, signs, and what begins with a character of
  -- its own kind.
  unfold readPiece at h
  split at h
  · cases h
  split at h
  case h_1 k hk =>
    cases h
    refine spelled_of_isPlain ?_ _ _
    unfold single? at hk
    split at hk <;> cases hk <;> rfl
  case h_2 hk =>
    split at h
    case h_1 alone withEqual hk =>
      refine spelled_of_isPlain ?_ _ _
      have hsign : kind = alone ∨ kind = withEqual := by
        split at h <;> cases h <;> simp
      unfold pair? at hk
      split at hk <;> cases hk <;> rcases hsign with rfl | rfl <;> rfl
    case h_2 hk =>
      split at h
      · refine spelled_of_isPlain ?_ _ _
        unfold readSlash at h
        split at h
        · cases h
        · split at h <;> cases h
        · cases h
          rfl
      split at h
      · refine spelled_of_isPlain ?_ _ _
        simp only [readString] at h
        split at h <;> cases h
        rfl
      split at h
      · refine spelled_of_isPlain ?_ _ _
        simp only [readNumber] at h
        split at h
        · split at h <;> cases h <;> rfl
        · cases h
          rfl
      split at h
      · -- A word takes all the characters that belong to it.
        simp only [readWord, Prod.mk.injEq, Piece.token.injEq] at h
        obtain ⟨⟨rfl, rfl⟩, rfl⟩ := h
        rw [← List.prefix_iff_eq_take.mp (List.takeWhile_prefix isWordPart)]
        exact spelled_ofWord _ _
      · cases h

theorem words_spelled (text : List Char) : ∀ w ∈ words text, w.Spelled := by
  intro w hw
  obtain ⟨c, rest, kind, literal, more, hp, rfl⟩ := read_of_mem_words hw
  exact readPiece_spelled hp

/-! ### Texts one after another -/

section Newline

variable (c : Char) (rest more : List Char)

theorem takeWhile_newline {p : Char → Bool} (hp : p '\n' = false) :
    (rest ++ '\n' :: more).takeWhile p = rest.takeWhile p := by
  induction rest with
  | nil => simp [hp]
  | cons d rest ih =>
    by_cases hd : p d
    · simp [hd, ih]
    · simp [hd]

theorem drop_takeWhile_newline (p : Char → Bool) :
    (rest ++ '\n' :: more).drop (rest.takeWhile p).length =
      rest.drop (rest.takeWhile p).length ++ '\n' :: more := by
  have hle := (List.takeWhile_prefix p (l := rest)).length_le
  rw [List.drop_append_of_le_length hle]

theorem commentLength_append {rest : List Char} (tail : List Char) : ∀ {before n : Nat},
    commentLength before rest = some n →
      commentLength before (rest ++ tail) = some n ∧ n ≤ before + rest.length := by
  induction rest with
  | nil => exact fun h => nomatch h
  | cons d rest ih =>
    intro before n h
    unfold commentLength at h
    split at h
    case h_1 rest' heq =>
      cases heq
      cases h
      refine ⟨rfl, ?_⟩
      simp only [List.length_cons]
      omega
    case h_2 rest' hne heq =>
      cases heq
      obtain ⟨hrun, hle⟩ := ih h
      refine ⟨?_, by simp only [List.length_cons]; omega⟩
      rw [List.cons_append, commentLength]
      · exact hrun
      · -- The comment does not end here, with or without the rest.
        intro tail' hc ht
        cases rest with
        | nil => cases h
        | cons d' rest =>
          rw [List.cons_append, List.cons.injEq] at ht
          obtain ⟨rfl, -⟩ := ht
          exact hne rest hc rfl
    case h_3 => cases h

/-- A slash that begins no comment. -/
theorem readSlash_alone {d : Char} (hslash : d ≠ '/') (hstar : d ≠ '*') :
    readSlash (d :: rest) = (.token .slash .nil, 0) := by
  unfold readSlash
  split
  · exact absurd (List.cons.inj ‹_›).1 hslash
  · exact absurd (List.cons.inj ‹_›).1 hstar
  · rfl

theorem readSlash_newline {rest : List Char}
    (h : (readSlash rest).1 ≠ .mistake .unterminatedComment) :
    readSlash (rest ++ '\n' :: more) = readSlash rest ∧ (readSlash rest).2 ≤ rest.length := by
  cases rest with
  | nil => exact ⟨rfl, Nat.le_refl _⟩
  | cons d rest =>
    -- A comment to the end of the line, a block comment, or a sign alone.
    by_cases hslash : d = '/'
    · subst hslash
      have htake := takeWhile_newline rest more (p := (· != '\n')) rfl
      have hle := (List.takeWhile_prefix (· != '\n') (l := rest)).length_le
      simp only [List.cons_append, readSlash, htake, List.length_cons, true_and]
      omega
    · by_cases hstar : d = '*'
      · subst hstar
        simp only [List.cons_append, readSlash] at h ⊢
        cases hc : commentLength 1 rest with
        | none =>
          rw [hc] at h
          exact absurd rfl h
        | some n =>
          obtain ⟨hrun, hle⟩ := commentLength_append ('\n' :: more) hc
          rw [hrun]
          simp only [List.length_cons, true_and]
          omega
      · rw [List.cons_append, readSlash_alone _ hslash hstar, readSlash_alone _ hslash hstar]
        exact ⟨rfl, Nat.zero_le _⟩

/-- A line feed ends a string that is not closed, as the end of the text does. -/
theorem readString_newline : readString (rest ++ '\n' :: more) = readString rest ∧
    (readString rest).2 ≤ rest.length := by
  have htake := takeWhile_newline rest more (p := fun c => c != '"' && c != '\n') rfl
  have hdrop := drop_takeWhile_newline rest more fun c => c != '"' && c != '\n'
  have hle := (List.takeWhile_prefix (fun c => c != '"' && c != '\n') (l := rest)).length_le
  simp only [readString, htake, hdrop]
  cases hr : rest.drop (rest.takeWhile fun c => c != '"' && c != '\n').length with
  | nil => exact ⟨rfl, hle⟩
  | cons d after =>
    by_cases hd : d = '"'
    · subst hd
      refine ⟨rfl, ?_⟩
      have hlen := congrArg List.length hr
      simp only [List.length_drop, List.length_cons] at hlen
      change (rest.takeWhile _).length + 1 ≤ _
      omega
    · -- Any other character that ends the run leaves the string open.
      constructor
      · rw [List.cons_append]
        split
        · exact absurd (List.cons.inj ‹_›).1 hd
        · split
          · exact absurd (List.cons.inj ‹_›).1 hd
          · rfl
      · split
        · exact absurd (List.cons.inj ‹_›).1 hd
        · exact hle

theorem readNumber_newline : readNumber c (rest ++ '\n' :: more) = readNumber c rest ∧
    (readNumber c rest).2 ≤ rest.length := by
  have htake := takeWhile_newline rest more (p := isDigit) rfl
  have hdrop := drop_takeWhile_newline rest more isDigit
  have hle := (List.takeWhile_prefix isDigit (l := rest)).length_le
  simp only [readNumber, htake, hdrop]
  cases hr : rest.drop (rest.takeWhile isDigit).length with
  | nil => exact ⟨rfl, hle⟩
  | cons d after =>
    by_cases hd : d = '.'
    · subst hd
      -- A point belongs to the number if a digit is behind it.
      have htake' := takeWhile_newline after more (p := isDigit) rfl
      have hle' := (List.takeWhile_prefix isDigit (l := after)).length_le
      have hlen := congrArg List.length hr
      simp only [List.length_drop, List.length_cons] at hlen
      simp only [List.cons_append, htake', true_and]
      split
      · exact hle
      · change (rest.takeWhile _).length + 1 + (after.takeWhile _).length ≤ _
        omega
    · constructor
      · rw [List.cons_append]
        split
        · exact absurd (List.cons.inj ‹_›).1 hd
        · split
          · exact absurd (List.cons.inj ‹_›).1 hd
          · rfl
      · split
        · exact absurd (List.cons.inj ‹_›).1 hd
        · exact hle

theorem readWord_newline : readWord c (rest ++ '\n' :: more) = readWord c rest ∧
    (readWord c rest).2 ≤ rest.length := by
  have htake := takeWhile_newline rest more (p := isWordPart) rfl
  simp only [readWord, htake, true_and]
  exact (List.takeWhile_prefix isWordPart).length_le

/-- A segment that is no open comment ends before a line feed that follows its
text. -/
theorem readPiece_newline (h : (readPiece c rest).1 ≠ .mistake .unterminatedComment) :
    readPiece c (rest ++ '\n' :: more) = readPiece c rest ∧
      (readPiece c rest).2 ≤ rest.length := by
  unfold readPiece at h ⊢
  split
  · exact ⟨rfl, Nat.zero_le _⟩
  rename_i hspace
  rw [if_neg hspace] at h
  cases hs : single? c with
  | some kind => exact ⟨rfl, Nat.zero_le _⟩
  | none =>
    rw [hs] at h
    cases hp : pair? c with
    | some kinds =>
      -- The line feed is no equals sign.
      cases rest with
      | nil => exact ⟨rfl, Nat.zero_le _⟩
      | cons d rest =>
        refine ⟨rfl, ?_⟩
        dsimp only
        split <;> simp
    | none =>
      rw [hp] at h
      dsimp only at h ⊢
      split
      · rename_i hslash
        rw [if_pos hslash] at h
        exact readSlash_newline more h
      rename_i hslash
      rw [if_neg hslash] at h
      split
      · exact readString_newline rest more
      split
      · exact readNumber_newline c rest more
      split
      · exact readWord_newline c rest more
      · exact ⟨rfl, Nat.zero_le _⟩

end Newline

/-- A text in which no comment is left open, a line feed and another text are cut
into the segments of both. -/
theorem segments_newline (text more : List Char) (h : Closed text) :
    (segments (text ++ '\n' :: more)).toList =
      (segments text).toList ++ (segments ('\n' :: more)).toList := by
  -- Segment by segment, until the text is used up.
  induction hn : text.length using Nat.strongRecOn generalizing text with
  | _ n ih =>
    cases text with
    | nil => simp
    | cons c rest =>
      rw [Closed, segments_cons, List.forall_mem_cons] at h
      obtain ⟨hread, hle⟩ := readPiece_newline c rest more h.1
      have hlt : (rest.drop (readPiece c rest).2).length < n := by
        rw [← hn, List.length_drop, List.length_cons]
        omega
      rw [List.cons_append, segments_cons, segments_cons, hread,
        List.take_append_of_le_length hle, List.drop_append_of_le_length hle,
        ih _ hlt _ h.2 rfl, List.cons_append]

theorem segments_lineFeed (text : List Char) :
    (segments ('\n' :: text)).toList = ⟨.blank, ['\n']⟩ :: (segments text).toList := by
  rw [segments_cons]
  rfl

theorem clean_newline {text more : List Char} (h : Clean text) (h' : Clean more) :
    Clean (text ++ '\n' :: more) := by
  intro s hs
  rw [segments_newline _ _ h.closed, segments_lineFeed, List.mem_append, List.mem_cons] at hs
  rcases hs with hs | rfl | hs
  · exact h s hs
  · rfl
  · exact h' s hs

/-- The words of two texts with a line feed between them. -/
theorem words_append {text : List Char} (h : Clean text) (more : List Char) :
    words (text ++ '\n' :: more) = words text ++ words more := by
  rw [words, segments_newline _ _ h.closed, List.filterMap_append, segments_lineFeed,
    List.filterMap_cons_none rfl]
  rfl

/-- The words of several texts with line feeds between them. -/
theorem words_intercalate : ∀ (texts : List String), (∀ t ∈ texts, Clean t.toList) →
    Clean ("\n".intercalate texts).toList ∧
      words ("\n".intercalate texts).toList = (texts.map fun t => words t.toList).flatten := by
  intro texts
  induction texts with
  | nil =>
    intro _
    rw [String.intercalate_nil]
    exact ⟨fun s hs => by simp at hs, by simp [words]⟩
  | cons t texts ih =>
    intro h
    have ht := h t (by simp)
    obtain ⟨hclean, hwords⟩ := ih fun u hu => h u (by simp [hu])
    cases texts with
    | nil =>
      rw [String.intercalate_singleton]
      exact ⟨ht, by simp⟩
    | cons u texts =>
      -- The first text is split off; the rest is joined already.
      have hsplit : ("\n".intercalate (t :: u :: texts)).toList =
          t.toList ++ '\n' :: ("\n".intercalate (u :: texts)).toList := by
        rw [String.intercalate_cons_cons, String.toList_append, String.toList_append]
        simp
      rw [hsplit, words_append ht, hwords]
      exact ⟨clean_newline ht hclean, by simp⟩

end Lox.Token
