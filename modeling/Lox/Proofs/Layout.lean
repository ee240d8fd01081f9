/-
Layout does not matter.

The tokens of a source may be written anew with other white space and other comments
between them.  Each separator begins with white space, so a token in front of it has come
to its end, and nothing of a separator is taken for a token or a part of one.

* `Filler`, `Separator` — white space and comments, and what stands between two tokens;
* `LaidOut` — lexemes in order with separators between them;
* `Word.Stable` — a word that is read back at white space and at the end of a text;
* `words_stable` — the words of a source are;
* `words_laidOut` — what is read of words that are laid out anew;
* `scan_laidOut` — tokens that are laid out anew are the same but for their places.
-/
import Lox.Proofs.Tiling

namespace Lox.Token

/-! ### Layouts -/

/-- White space, comments that a line feed closes, and whole block comments, in any
order. -/
inductive Filler : List Char → Prop
  | nil : Filler []
  | space {c : Char} {rest : List Char} (hc : c ∈ [' ', '\t', '\r', '\n']) (h : Filler rest) :
      Filler (c :: rest)
  | line {body rest : List Char} (hb : '\n' ∉ body) (h : Filler rest) :
      Filler ('/' :: '/' :: body ++ '\n' :: rest)
  | block {body rest : List Char} (hb : ¬['*', '/'] <:+: body ++ ['*']) (h : Filler rest) :
      Filler ('/' :: '*' :: (body ++ ['*', '/']) ++ rest)

/-- What may stand between two tokens: white space first. -/
inductive Separator : List Char → Prop
  | mk {c : Char} {rest : List Char} (hc : c ∈ [' ', '\t', '\r', '\n']) (h : Filler rest) :
      Separator (c :: rest)

/-- Lexemes in order, with separators between them. -/
inductive LaidOut : (lexemes : List (List Char)) → (text : List Char) → Prop
  | nil : LaidOut [] []
  | last (lexeme : List Char) : LaidOut [lexeme] lexeme
  | cons {lexeme next separator text : List Char} {lexemes : List (List Char)}
      (hs : Separator separator) (h : LaidOut (next :: lexemes) text) :
      LaidOut (lexeme :: next :: lexemes) (lexeme ++ separator ++ text)

/-! ### Tokens that are read again -/

/-- A text that begins with white space, or is at its end. -/
def Parted (after : List Char) : Prop :=
  ∀ d ∈ after.head?, isSpace d = true

/-- White space belongs to no number and no word, and to no sign of two characters. -/
theorem apart_of_isSpace {d : Char} (h : isSpace d = true) :
    isDigit d = false ∧ isWordPart d = false ∧ d ∉ ['.', '=', '/', '*'] := by
  have hmem := isSpace_iff.mp h
  simp only [List.mem_cons, List.not_mem_nil, or_false] at hmem
  rcases hmem with rfl | rfl | rfl | rfl <;> decide

theorem takeWhile_append_stop {p : Char → Bool} {body after : List Char}
    (hb : ∀ c ∈ body, p c = true) (ha : ∀ d ∈ after.head?, p d = false) :
    (body ++ after).takeWhile p = body := by
  rw [List.takeWhile_append_of_pos hb]
  cases after with
  | nil => rw [List.takeWhile_nil, List.append_nil]
  | cons d after =>
    rw [List.takeWhile_cons_of_neg (by simpa using ha d rfl), List.append_nil]

/-- A text is a run of characters of one class, and what comes behind it. -/
theorem exists_run (p : Char → Bool) (rest : List Char) : ∃ body tail, rest = body ++ tail ∧
    (∀ c ∈ body, p c = true) ∧ rest.takeWhile p = body ∧ rest.drop body.length = tail := by
  refine ⟨rest.takeWhile p, rest.dropWhile p, List.takeWhile_append_dropWhile.symm,
    fun c hc => List.mem_takeWhile_imp hc, rfl, drop_takeWhile p rest⟩

section Again

variable {c : Char} {rest after : List Char} {kind : Kind} {literal : Literal} {more : Nat}

/-- A closed string is read whatever follows it. -/
theorem readString_closed {body : List Char}
    (hb : ∀ c ∈ body, (c != '"' && c != '\n') = true) (after : List Char) :
    readString (body ++ '"' :: after) =
      (.token .string (.text (String.ofList body)), body.length + 1) := by
  have hbody : (body ++ '"' :: after).takeWhile (fun c => c != '"' && c != '\n') = body :=
    takeWhile_append_stop hb (by simp)
  simp only [readString, hbody, List.drop_left]

theorem readString_again (h : readString rest = (.token kind literal, more)) :
    readString (rest.take more ++ after) = (.token kind literal, more) := by
  obtain ⟨body, tail, rfl, hb, hbody, htail⟩ := exists_run (fun c => c != '"' && c != '\n') rest
  simp only [readString, hbody, htail] at h
  split at h
  case h_1 tail =>
    cases h
    have hlength : (body ++ ['"']).length = body.length + 1 := List.length_append
    rw [List.append_cons, List.take_left' hlength, List.append_assoc]
    exact readString_closed hb after
  case h_2 => cases h

/-- Digits that no further digit and no fraction follow. -/
theorem readNumber_whole {whole : List Char} (hw : ∀ c ∈ whole, isDigit c = true)
    (ha : ∀ d ∈ after.head?, isDigit d = false ∧ d ≠ '.') :
    readNumber c (whole ++ after) =
      (.token .number (.number (Number.ofDigits (c :: whole) [])), whole.length) := by
  have hwhole : (whole ++ after).takeWhile isDigit = whole :=
    takeWhile_append_stop hw fun d hd => (ha d hd).1
  simp only [readNumber, hwhole, List.drop_left]
  split
  · exact absurd rfl (ha '.' rfl).2
  · rfl

/-- Digits, a point and further digits. -/
theorem readNumber_fraction {whole fraction : List Char} (hw : ∀ c ∈ whole, isDigit c = true)
    (hf : ∀ c ∈ fraction, isDigit c = true) (hne : fraction ≠ [])
    (ha : ∀ d ∈ after.head?, isDigit d = false) :
    readNumber c (whole ++ '.' :: (fraction ++ after)) =
      (.token .number (.number (Number.ofDigits (c :: whole) fraction)),
        whole.length + 1 + fraction.length) := by
  have hwhole : (whole ++ '.' :: (fraction ++ after)).takeWhile isDigit = whole :=
    takeWhile_append_stop hw (by simp [isDigit])
  have hfraction : (fraction ++ after).takeWhile isDigit = fraction :=
    takeWhile_append_stop hf ha
  have hsome : fraction.isEmpty = false := by simpa using hne
  simp only [readNumber, hwhole, List.drop_left, hfraction, hsome, Bool.false_eq_true, if_false]

theorem readNumber_again (ha : Parted after)
    (h : readNumber c rest = (.token kind literal, more)) :
    readNumber c (rest.take more ++ after) = (.token kind literal, more) := by
  have hdigit : ∀ d ∈ after.head?, isDigit d = false := fun d hd =>
    (apart_of_isSpace (ha d hd)).1
  have hpoint : ∀ d ∈ after.head?, isDigit d = false ∧ d ≠ '.' := fun d hd =>
    ⟨hdigit d hd, fun h => (apart_of_isSpace (ha d hd)).2.2 (by simp [h])⟩
  obtain ⟨whole, tail, rfl, hw, hwhole, htail⟩ := exists_run isDigit rest
  simp only [readNumber, hwhole, htail] at h
  split at h
  case h_1 behind =>
    obtain ⟨fraction, tail, rfl, hf, hfraction, -⟩ := exists_run isDigit behind
    rw [hfraction] at h
    -- A point with no digit behind it belongs to what follows the number.
    cases hfr : fraction with
    | nil =>
      rw [hfr] at h
      cases h
      rw [List.take_left]
      exact readNumber_whole hw hpoint
    | cons d ds =>
      rw [hfr] at h
      cases h
      have hlength : (whole ++ '.' :: d :: ds).length = whole.length + 1 + (d :: ds).length := by
        rw [List.length_append, List.length_cons, Nat.add_right_comm, Nat.add_assoc]
      rw [← List.cons_append, ← List.append_assoc, List.take_left' hlength, List.append_assoc]
      exact readNumber_fraction hw (hfr ▸ hf) (List.cons_ne_nil d ds) hdigit
  case h_2 =>
    cases h
    rw [List.take_left]
    exact readNumber_whole hw hpoint

theorem readWord_again (ha : Parted after) (h : readWord c rest = (.token kind literal, more)) :
    readWord c (rest.take more ++ after) = (.token kind literal, more) := by
  obtain ⟨body, tail, rfl, hb, hbody, -⟩ := exists_run isWordPart rest
  have hagain : (body ++ after).takeWhile isWordPart = body :=
    takeWhile_append_stop hb fun d hd => (apart_of_isSpace (ha d hd)).2.1
  simp only [readWord, hbody, Prod.mk.injEq] at h
  obtain ⟨hpiece, rfl⟩ := h
  simp only [readWord, List.take_left, hagain, hpiece]

/-- A slash is read again as a slash. -/
theorem readSlash_again (ha : Parted after) (h : readSlash rest = (.token kind literal, more)) :
    readSlash (rest.take more ++ after) = (.token kind literal, more) := by
  unfold readSlash at h
  split at h
  case h_1 => cases h
  case h_2 => split at h <;> cases h
  case h_3 =>
    cases h
    rw [List.take_zero, List.nil_append]
    cases after with
    | nil => rfl
    | cons d after =>
      have hapart := (apart_of_isSpace (ha d rfl)).2.2
      exact readSlash_alone after (fun h => hapart (by simp [h])) fun h => hapart (by simp [h])

/-- A token is read again in front of white space and at the end of a text. -/
theorem readPiece_again (ha : Parted after) (h : readPiece c rest = (.token kind literal, more)) :
    readPiece c (rest.take more ++ after) = (.token kind literal, more) := by
  -- The first character decides what is read; what comes after the token only matters where the
  -- token could go on.
  unfold readPiece at h ⊢
  split at h
  case isTrue => cases h
  case isFalse hspace =>
    rw [if_neg hspace]
    cases hs : single? c with
    | some k =>
      rw [hs] at h
      cases h
      rfl
    | none =>
      rw [hs] at h
      cases hp : pair? c with
      | some kinds =>
        rw [hp] at h
        dsimp only at h ⊢
        split at h
        case isTrue hequal =>
          cases h
          obtain ⟨tail, rfl⟩ := List.head?_eq_some_iff.mp hequal
          rfl
        case isFalse =>
          cases h
          -- A lone `=`, `<` or the like would be read on if an equals sign followed.
          have hother : after.head? ≠ some '=' := fun h =>
            (apart_of_isSpace (ha '=' h)).2.2 (by simp)
          rw [List.take_zero, List.nil_append, if_neg hother]
      | none =>
        rw [hp] at h
        dsimp only at h ⊢
        split at h
        case isTrue hslash =>
          rw [if_pos hslash]
          exact readSlash_again ha h
        case isFalse hslash =>
          rw [if_neg hslash]
          split at h
          case isTrue hquote =>
            rw [if_pos hquote]
            exact readString_again h
          case isFalse hquote =>
            rw [if_neg hquote]
            split at h
            case isTrue hdigit =>
              rw [if_pos hdigit]
              exact readNumber_again ha h
            case isFalse hdigit =>
              rw [if_neg hdigit]
              split at h
              case isTrue hword =>
                rw [if_pos hword]
                exact readWord_again ha h
              case isFalse => cases h

end Again

/-! ### Words that are read again -/

/-- A word that is read back in front of white space and at the end of a text. -/
def Word.Stable (w : Word) : Prop :=
  ∀ after, Parted after → (segments (w.lexeme.toList ++ after)).toList =
    ⟨.token w.kind w.literal, w.lexeme.toList⟩ :: (segments after).toList

theorem words_stable {text : List Char} {w : Word} (h : w ∈ words text) : w.Stable := by
  obtain ⟨c, rest, kind, literal, more, hp, rfl⟩ := read_of_mem_words h
  intro after ha
  have hle : more ≤ rest.length := by
    have hread := (readPiece_newline c rest [] (by rw [hp]; exact fun h => by cases h)).2
    rwa [hp] at hread
  have hlength : (rest.take more).length = more := by
    rw [List.length_take, Nat.min_eq_left hle]
  rw [String.toList_ofList, List.cons_append, segments_cons, readPiece_again ha hp,
    List.take_left' hlength, List.drop_left' hlength]

/-! ### Separators -/

/-- A block comment ends at the first end of a comment. -/
theorem commentLength_first {body : List Char} (tail : List Char) : ∀ before : Nat,
    ¬['*', '/'] <:+: body ++ ['*'] →
      commentLength before (body ++ '*' :: '/' :: tail) = some (before + body.length + 2) := by
  induction body with
  | nil => exact fun _ _ => rfl
  | cons c body ih =>
    intro before hb
    rw [List.cons_append, List.infix_cons_iff, not_or] at hb
    have hrest := ih (before + 1) hb.2
    rw [List.cons_append, commentLength]
    · rw [hrest, List.length_cons, Nat.add_right_comm before, Nat.add_assoc before]
    · -- The comment does not end at its first character.
      rintro tail' rfl htail
      cases body with
      | nil => cases htail
      | cons d body =>
        obtain rfl : d = '/' := (List.cons.inj htail).1
        exact hb.1 ⟨body ++ ['*'], rfl⟩

/-- A blank stretch is one segment. -/
theorem segments_blank {text rest : List Char} (h : Blank text rest) :
    (segments (text ++ rest)).toList = ⟨.blank, text⟩ :: (segments rest).toList := by
  cases h with
  | @space c _ hc =>
    have hread : readPiece c rest = (.blank, 0) := by
      unfold readPiece
      rw [if_pos (isSpace_iff.mpr hc)]
    rw [List.singleton_append, segments_cons, hread, List.take_zero, List.drop_zero]
  | @line body _ hb hr =>
    have hbody : (body ++ rest).takeWhile (· != '\n') = body :=
      takeWhile_append_stop (fun c hc => bne_iff_ne.mpr fun h => hb (h ▸ hc))
        fun d hd => by simp [hr d hd]
    have hread : readPiece '/' ('/' :: body ++ rest) = (.blank, ('/' :: body).length) := by
      change readSlash ('/' :: (body ++ rest)) = _
      simp only [readSlash, hbody, List.length_cons, Nat.add_comm 1]
    rw [List.cons_append, segments_cons, hread, List.take_left, List.drop_left]
  -- The comment ends at the first star with a slash, and this is the first.
  | @block body _ hb =>
    have hread : readPiece '/' ('*' :: (body ++ ['*', '/']) ++ rest) =
        (.blank, ('*' :: (body ++ ['*', '/'])).length) := by
      change readSlash ('*' :: (body ++ ['*', '/'] ++ rest)) = _
      have hlength := commentLength_first rest 1 hb
      simp only [readSlash, List.append_assoc, List.cons_append, List.nil_append, hlength,
        List.length_cons, List.length_append, List.length_nil, Prod.mk.injEq, true_and]
      omega
    rw [List.cons_append, segments_cons, hread, List.take_left, List.drop_left]

/-- What is read as blank segments, whatever follows it. -/
def Skipped (text : List Char) : Prop :=
  ∀ rest, ∃ blanks : List Segment, (∀ s ∈ blanks, s.piece = .blank) ∧
    (segments (text ++ rest)).toList = blanks ++ (segments rest).toList

theorem skipped_nil : Skipped [] :=
  fun _ => ⟨[], by simp, rfl⟩

/-- A blank stretch before others. -/
theorem Skipped.blank {text more : List Char} (h : Skipped more)
    (hb : ∀ rest, Blank text (more ++ rest)) : Skipped (text ++ more) := by
  intro rest
  obtain ⟨blanks, hblank, hmore⟩ := h rest
  refine ⟨⟨.blank, text⟩ :: blanks, List.forall_mem_cons.mpr ⟨rfl, hblank⟩, ?_⟩
  rw [List.append_assoc, segments_blank (hb rest), hmore, List.cons_append]

theorem Skipped.space {c : Char} {more : List Char} (h : Skipped more)
    (hc : c ∈ [' ', '\t', '\r', '\n']) : Skipped (c :: more) := by
  change Skipped ([c] ++ more)
  exact h.blank fun _ => .space hc

theorem Filler.skipped {text : List Char} (h : Filler text) : Skipped text := by
  induction h with
  | nil => exact skipped_nil
  | space hc _ ih => exact ih.space hc
  | line hb _ ih =>
    -- The line feed stands behind the comment, and is white space itself.
    refine Skipped.blank (ih.space (by decide)) fun rest => .line hb ?_
    simp
  | block hb _ ih => exact ih.blank fun _ => .block hb

theorem Separator.skipped {text : List Char} (h : Separator text) : Skipped text := by
  cases h with
  | mk hc h => exact h.skipped.space hc

theorem Separator.parted {text : List Char} (h : Separator text) (rest : List Char) :
    Parted (text ++ rest) := by
  cases h with
  | mk hc _ =>
    rintro d ⟨⟩
    exact isSpace_iff.mpr hc

/-! ### Whole texts -/

/-- A word and blank segments in front of a text add the word. -/
theorem words_of_segments {text rest : List Char} {w : Word} {blanks : List Segment}
    (htext : (segments text).toList =
      ⟨.token w.kind w.literal, w.lexeme.toList⟩ :: (blanks ++ (segments rest).toList))
    (hblank : ∀ s ∈ blanks, s.piece = .blank) (hclean : Clean rest) :
    Clean text ∧ words text = w :: words rest := by
  constructor
  · intro s hs
    rw [htext, List.mem_cons, List.mem_append] at hs
    rcases hs with rfl | hs | hs
    · rfl
    · rw [Segment.isMistake, hblank s hs]
    · exact hclean s hs
  · have hword : Segment.word? ⟨.token w.kind w.literal, w.lexeme.toList⟩ = some w := by
      simp [Segment.word?]
    have hnone : blanks.filterMap Segment.word? = [] := by
      refine List.filterMap_eq_nil_iff.mpr fun s hs => ?_
      rw [Segment.word?, hblank s hs]
    rw [words, htext, List.filterMap_cons_some hword, List.filterMap_append, hnone]
    rfl

/-- Words that are laid out anew are read as they are, and there is no mistake. -/
theorem words_laidOut {ws : List Word} (hs : ∀ w ∈ ws, w.Stable) : ∀ {text : List Char},
    LaidOut (ws.map fun w => w.lexeme.toList) text → Clean text ∧ words text = ws := by
  induction ws with
  | nil =>
    intro text h
    cases h
    exact ⟨fun s hmem => by simp at hmem, by simp [words]⟩
  | cons w ws ih =>
    intro text h
    rw [List.forall_mem_cons] at hs
    cases ws with
    | nil =>
      cases h
      -- The last word stands at the end of the text.
      obtain ⟨hclean, hwords⟩ := ih hs.2 .nil
      have hlast := hs.1 [] (fun d hd => by cases hd)
      rw [List.append_nil] at hlast
      have hread := @words_of_segments _ _ _ [] hlast (by simp) hclean
      rwa [hwords] at hread
    | cons next ws =>
      cases h with
      | @cons _ _ separator text _ hsep hrest =>
        obtain ⟨hclean, hwords⟩ := ih hs.2 hrest
        obtain ⟨blanks, hblank, hskip⟩ := hsep.skipped text
        have htoken := hs.1 _ (hsep.parted text)
        rw [hskip, ← List.append_assoc] at htoken
        have hread := words_of_segments htoken hblank hclean
        rwa [hwords] at hread

/-- Layout does not matter.  The tokens of a source before the end of the input may be
written anew, with any separators between them: white space first, and then white space,
comments that a line feed closes, and block comments in any order.  Scanning such a text
reports nothing, and gives tokens of the same kinds with the same lexemes and values in the
same order, and the end of the input. -/
theorem scan_laidOut (source text : String) (file file' : Option String)
    (report report' : Report)
    (h : LaidOut ((scan source file report).1.toList.dropLast.map fun t => t.lexeme.toList)
      text.toList) :
    (scan text file' report').2 = report' ∧
      (scan text file' report').1.toList.map word =
        (scan source file report).1.toList.dropLast.map word ++ [Word.endOfInput] := by
  have hwords := scan_words source file report
  have hbefore : (scan source file report).1.toList.dropLast.map word = words source.toList := by
    rw [List.map_dropLast, hwords, List.dropLast_concat]
  have hlexemes : (scan source file report).1.toList.dropLast.map (fun t => t.lexeme.toList) =
      (words source.toList).map fun w => w.lexeme.toList := by
    rw [← hbefore, List.map_map]
    rfl
  rw [hlexemes] at h
  obtain ⟨hclean, hagain⟩ := words_laidOut (fun w hw => words_stable hw) h
  refine ⟨(scan_report text file' report').2.mpr hclean, ?_⟩
  rw [scan_words, hagain, hbefore]

/-- A quotient on one line, and over three lines with a comment of each kind. -/
theorem scan_laidOut_quotient :
    LaidOut ((scan "x=1.5/y;@" none {}).1.toList.dropLast.map fun t => t.lexeme.toList)
        "x =\t1.5 // half\n/ y\n/* end */;".toList ∧
      ((scan "x =\t1.5 // half\n/ y\n/* end */;" none {}).1.toList.map word).map Word.kind =
        [.identifier, .equal, .number, .slash, .identifier, .semicolon, .endOfInput] := by
  have hlexemes : (scan "x=1.5/y;@" none {}).1.toList.dropLast.map (fun t => t.lexeme.toList) =
      [['x'], ['='], ['1', '.', '5'], ['/'], ['y'], [';']] := by decide +kernel
  have hkinds : (scan "x=1.5/y;@" none {}).1.toList.dropLast.map (fun t => t.word.kind) =
      [.identifier, .equal, .number, .slash, .identifier, .semicolon] := by decide +kernel
  have htext : "x =\t1.5 // half\n/ y\n/* end */;".toList =
      ['x'] ++ [' '] ++ (['='] ++ ['\t'] ++ (['1', '.', '5'] ++
        (' ' :: ('/' :: '/' :: [' ', 'h', 'a', 'l', 'f'] ++ '\n' :: [])) ++ (['/'] ++ [' '] ++
          (['y'] ++ ('\n' :: ('/' :: '*' :: ([' ', 'e', 'n', 'd', ' '] ++ ['*', '/']) ++ [])) ++
            [';'])))) := by decide
  have h : LaidOut ((scan "x=1.5/y;@" none {}).1.toList.dropLast.map fun t => t.lexeme.toList)
      "x =\t1.5 // half\n/ y\n/* end */;".toList := by
    rw [hlexemes, htext]
    exact .cons (.mk (by decide) .nil) <| .cons (.mk (by decide) .nil) <|
      .cons (.mk (by decide) (.line (by decide) .nil)) <| .cons (.mk (by decide) .nil) <|
      .cons (.mk (by decide) (.block (by decide) .nil)) (.last [';'])
  refine ⟨h, ?_⟩
  rw [(scan_laidOut _ _ none none {} {} h).2, List.map_append, List.map_map]
  exact congrArg (· ++ [Kind.endOfInput]) hkinds

end Lox.Token
