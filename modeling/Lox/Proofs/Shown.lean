/-
The line that is shown under a message.

Lines are counted by line feeds, but the lines that are shown are cut at every
character that a reader takes for the end of a line.  The two agree up to a place if
no other character than a line feed, alone or after a carriage return, has ended a
line before it.

* `PlainBreaks` — a text in which only line feeds end lines, up to a place;
* `Shows`, `PlainBreaks.shows` — the shown line then has the character of the place in
  its column;
* `Location.Begins` — a location right before a character that is no white space;
* `scan_begins` — tokens and mistakes of a source begin at such places.
-/
import Lox.Proofs.Tiling

namespace Lox

namespace Text

/-- In the first `n` characters of a text only line feeds end lines, alone or after a
carriage return. -/
def PlainBreaks (text : List Char) (n : Nat) : Prop :=
  ∀ i < n, ∀ c ∈ text[i]?, isLineBreak c → c = '\n' ∨ c = '\r' ∧ text[i + 1]? = some '\n'

instance (text : List Char) (n : Nat) : Decidable (PlainBreaks text n) :=
  -- Only the characters of the text are tried, not all characters that there are.
  @Nat.decidableBallLT n _ fun _ _ => Option.decidableForallMem _

theorem PlainBreaks.tail {c : Char} {text : List Char} {n : Nat}
    (h : PlainBreaks (c :: text) (n + 1)) : PlainBreaks text n :=
  fun i hi d hd hbreak => h (i + 1) (Nat.succ_lt_succ hi) d hd hbreak

/-! ### Lines -/

theorem splitLinesFrom_crlf (line rest : List Char) :
    splitLinesFrom line ('\r' :: '\n' :: rest) = line.reverse :: splitLinesFrom [] rest := by
  rw [splitLinesFrom]

theorem splitLinesFrom_cons {c : Char} (hc : c ≠ '\r') (line rest : List Char) :
    splitLinesFrom line (c :: rest) =
      if isLineBreak c then line.reverse :: splitLinesFrom [] rest
      else splitLinesFrom (c :: line) rest := by
  rw [splitLinesFrom]
  rintro rest' rfl
  exact absurd rfl hc

/-- A line that has begun goes on with what is read. -/
theorem splitLinesFrom_begun (line rest : List Char) (h : line ≠ []) :
    ∃ tail more, splitLinesFrom line rest = (line.reverse ++ tail) :: more := by
  fun_induction splitLinesFrom line rest with
  | case1 line hempty => exact absurd (List.isEmpty_iff.mp hempty) h
  | case2 line hempty => exact ⟨[], [], by rw [List.append_nil]⟩
  | case3 line rest ih => exact ⟨[], _, by rw [List.append_nil]⟩
  | case4 line c rest hcrlf hbreak ih => exact ⟨[], _, by rw [List.append_nil]⟩
  | case5 line c rest hcrlf hbreak ih =>
    obtain ⟨tail, more, heq⟩ := ih (List.cons_ne_nil c line)
    exact ⟨c :: tail, more, by rw [heq, List.reverse_cons, List.append_assoc]; rfl⟩

/-- The characters after the last line feed of a text. -/
theorem rtakeWhile_append_newline (front back : List Char) :
    (front ++ '\n' :: back).rtakeWhile (· ≠ '\n') = back.rtakeWhile (· ≠ '\n') := by
  induction back using List.reverseRecOn with
  | nil => simp
  | append_singleton back c ih =>
    rw [← List.cons_append, ← List.append_assoc, List.rtakeWhile_concat, List.rtakeWhile_concat, ih]

/-- The shown line with the number of a place has in its column the character `c` of the
place.  The text before the place is `before`, and `line` is what was read of the first
line before that, the last character first. -/
def Shows (line before : List Char) (c : Char) (rest : List Char) : Prop :=
  ∃ shown, (splitLinesFrom line (before ++ c :: rest))[before.count '\n']? = some shown ∧
    shown[((line.reverse ++ before).rtakeWhile (· ≠ '\n')).length]? = some c

namespace Shows

variable {line before rest : List Char} {c d : Char}

/-- The characters that were read of a line are in their columns. -/
theorem here (hc : isLineBreak c = false) (hline : ∀ d ∈ line, d ≠ '\n') :
    Shows line [] c rest := by
  have hreturn : c ≠ '\r' := by
    rintro rfl
    cases hc
  obtain ⟨tail, more, heq⟩ := splitLinesFrom_begun (c :: line) rest (List.cons_ne_nil c line)
  have hwhole : line.reverse.rtakeWhile (· ≠ '\n') = line.reverse := by
    rw [List.rtakeWhile_eq_self_iff]
    simpa using hline
  refine ⟨(c :: line).reverse ++ tail, ?_, ?_⟩
  · rw [List.nil_append, splitLinesFrom_cons hreturn, hc, if_neg Bool.false_ne_true, heq]
    rfl
  · rw [List.append_nil, hwhole, List.reverse_cons, List.append_assoc]
    simp

/-- A line feed begins a new line. -/
theorem lineFeed (h : Shows [] before c rest) : Shows line ('\n' :: before) c rest := by
  obtain ⟨shown, hshown, hcolumn⟩ := h
  refine ⟨shown, ?_, ?_⟩
  · rw [List.cons_append, splitLinesFrom_cons (by decide), if_pos (by decide),
      List.count_cons_self, List.getElem?_cons_succ]
    exact hshown
  · rw [rtakeWhile_append_newline]
    simpa using hcolumn

/-- A carriage return before a line feed ends the line together with it. -/
theorem crlf (h : Shows line ('\n' :: before) c rest) :
    Shows line ('\r' :: '\n' :: before) c rest := by
  obtain ⟨shown, hshown, hcolumn⟩ := h
  rw [List.cons_append, splitLinesFrom_cons (by decide), if_pos (by decide)] at hshown
  rw [rtakeWhile_append_newline] at hcolumn
  refine ⟨shown, ?_, ?_⟩
  · rw [List.cons_append, List.cons_append, splitLinesFrom_crlf, List.count_cons_of_ne (by decide)]
    exact hshown
  · have hsplit : line.reverse ++ '\r' :: '\n' :: before =
        (line.reverse ++ ['\r']) ++ '\n' :: before := by simp
    rw [hsplit, rtakeWhile_append_newline]
    exact hcolumn

/-- Any other character stands on the line. -/
theorem cons (hbreak : ¬isLineBreak d) (h : Shows (d :: line) before c rest) :
    Shows line (d :: before) c rest := by
  have hfeed : d ≠ '\n' := by
    rintro rfl
    exact hbreak rfl
  have hreturn : d ≠ '\r' := by
    rintro rfl
    exact hbreak rfl
  obtain ⟨shown, hshown, hcolumn⟩ := h
  refine ⟨shown, ?_, ?_⟩
  · rw [List.cons_append, splitLinesFrom_cons hreturn, if_neg hbreak, List.count_cons_of_ne hfeed]
    exact hshown
  · rwa [List.reverse_cons, List.append_assoc] at hcolumn

end Shows

/-- Up to a place where only line feeds have ended lines, the lines that are shown are those
that are counted. -/
theorem PlainBreaks.shows {c : Char} {rest : List Char} (hc : Token.isSpace c = false)
    (before : List Char) : ∀ line : List Char, (∀ d ∈ line, d ≠ '\n') →
      PlainBreaks (before ++ c :: rest) (before.length + 1) → Shows line before c rest := by
  have hfeed : c ≠ '\n' := by
    rintro rfl
    cases hc
  have hreturn : c ≠ '\r' := by
    rintro rfl
    cases hc
  -- The text before the place is read from the left.
  induction before with
  | nil =>
    intro line hline hp
    refine .here ?_ hline
    by_contra hbreak
    rcases hp 0 Nat.one_pos c rfl (by simpa using hbreak) with h | h
    · exact hfeed h
    · exact hreturn h.1
  | cons d before ih =>
    intro line hline hp
    have hbreaks := hp 0 (Nat.succ_pos _) d rfl
    by_cases hbreak : isLineBreak d
    · rcases hbreaks hbreak with rfl | ⟨rfl, hnext⟩
      · exact .lineFeed (ih [] (by simp) hp.tail)
      · cases before with
        | nil => exact absurd (Option.some.inj hnext) hfeed
        | cons e before =>
          obtain rfl : e = '\n' := Option.some.inj hnext
          exact .crlf (ih line hline hp.tail)
    · refine .cons hbreak (ih (d :: line) (List.forall_mem_cons.mpr ⟨?_, hline⟩) hp.tail)
      rintro rfl
      exact hbreak rfl

end Text

/-! ### Places -/

namespace Location

/-- A location is right before a character of a text that is no white space. -/
def Begins (l : Location) (text : List Char) : Prop :=
  ∃ before c rest, text = before ++ c :: rest ∧ l.Follows before ∧ Token.isSpace c = false

/-- The shown line of such a place has its character in its column, if only line feeds
have ended lines up to there. -/
theorem Begins.shows {l : Location} {source : String} (h : l.Begins source.toList)
    (hp : Text.PlainBreaks source.toList (l.offset + 1)) :
    ∃ line c, (Listing.ofText source).line? l.line = some line ∧
      line.toList[l.column - 1]? = some c ∧ source.toList[l.offset]? = some c := by
  obtain ⟨before, c, rest, htext, hl, hc⟩ := h
  rw [hl.offset, htext] at hp
  obtain ⟨shown, hshown, hcolumn⟩ := Text.PlainBreaks.shows hc before [] (by simp) hp
  refine ⟨String.ofList shown, c, ?_, ?_, ?_⟩
  · have hline : l.line - 1 = before.count '\n' := by rw [hl.line, Nat.add_sub_cancel_left]
    unfold Listing.line? Listing.ofText Text.splitLines
    rw [if_neg (by rw [hl.line]; omega), hline, htext, List.getElem?_toArray, List.getElem?_map,
      hshown]
    rfl
  · rw [hl.column, Nat.add_sub_cancel_left, String.toList_ofList]
    exact hcolumn
  · rw [htext, hl.offset, List.getElem?_append_right (Nat.le_refl _), Nat.sub_self]
    rfl

end Location

namespace Token

/-- What is not blank does not begin with white space. -/
theorem readPiece_begins {c : Char} {rest : List Char} (h : (readPiece c rest).1 ≠ .blank) :
    isSpace c = false := by
  by_contra hc
  refine h ?_
  unfold readPiece
  rw [if_pos (by simpa using hc)]

theorem segments_begin (text : List Char) : ∀ s ∈ (segments text).toList, s.piece ≠ .blank →
    ∃ c more, s.text = c :: more ∧ isSpace c = false := by
  intro s hs hp
  obtain ⟨c, rest, rfl⟩ := read_of_mem_segments text s hs
  exact ⟨c, _, rfl, readPiece_begins hp⟩

theorem mem_layOut {listing : Listing} {tile : Tile} {ss : List Segment} :
    ∀ {place : Location}, tile ∈ layOut listing place ss →
      ∃ s ∈ ss, ∃ place', tile = s.tile listing place' := by
  induction ss with
  | nil => exact fun h => nomatch h
  | cons s ss ih =>
    intro place h
    rcases List.mem_cons.mp h with rfl | h
    · exact ⟨s, List.mem_cons_self, place, rfl⟩
    · obtain ⟨s', hs, place', rfl⟩ := ih h
      exact ⟨s', List.mem_cons_of_mem s hs, place', rfl⟩

/-- A mistake shows the line with its number. -/
theorem sourceLine_of_mistake? {listing : Listing} {place : Location} {s : Segment}
    {d : Diagnostic} (h : (s.tile listing place).mistake? = some d) :
    d.sourceLine = listing.line? d.line := by
  have hcontent := Tile.content_of_mistake? h
  unfold Segment.tile at hcontent
  obtain ⟨piece, text⟩ := s
  cases piece with
  | mistake m =>
    cases hcontent
    rfl
  | _ => cases hcontent

/-- Tokens of a source, but for the end of the input, and mistakes begin at a character
that is no white space; and a mistake shows the line with its number. -/
theorem scan_begins (source : String) (file : Option String) (report : Report) :
    (∀ t ∈ (scan source file report).1, t.span.start.Begins source.toList ∨
      t.isEnd = true ∧ t.span.start = t.span.stop) ∧
    ∀ d ∈ (scan source file report).2.diagnostics, d ∈ report.diagnostics ∨
      d.span.start.Begins source.toList ∧ d.sourceLine = (Listing.ofText source).line? d.line := by
  obtain ⟨htokens, hreport⟩ := scan_layOut source file report
  have htiling := layOut_tiling (Listing.ofText source) source.toList (Location.follows_nil file)
  -- Only blanks begin with white space, by how segments are cut.
  have hbegins : ∀ {tile}, tile ∈ layOut (Listing.ofText source) { file }
      (segments source.toList).toList → tile.content ≠ .blank →
        tile.span.start.Begins source.toList := by
    intro tile hmem hblank
    obtain ⟨front, rest, htext, hstands⟩ := htiling.exists_stands tile hmem
    obtain ⟨s, hs, place', rfl⟩ := mem_layOut hmem
    obtain ⟨c, more, hc, hspace⟩ := segments_begin source.toList s hs fun hp => hblank (by
      unfold Segment.tile
      rw [hp])
    refine ⟨front, c, more ++ rest, ?_, hstands.start, hspace⟩
    rw [← List.nil_append source.toList, htext, List.append_assoc,
      show (s.tile (Listing.ofText source) place').text = c :: more from hc]
    rfl
  constructor
  · intro t ht
    rw [← Array.mem_toList_iff, htokens, List.mem_append, List.mem_singleton] at ht
    rcases ht with ht | rfl
    · obtain ⟨tile, hmem, htile⟩ := List.mem_filterMap.mp ht
      obtain ⟨_, _, -, hstands⟩ := htiling.exists_stands tile hmem
      rw [(hstands.token htile).1]
      exact .inl (hbegins hmem fun h => by rw [Tile.content_of_token? htile] at h; cases h)
    · exact .inr ⟨rfl, rfl⟩
  · intro d hd
    rw [← Array.mem_toList_iff, hreport, List.mem_append] at hd
    refine hd.imp (Array.mem_toList_iff.mp ·) fun hd => ?_
    obtain ⟨tile, hmem, htile⟩ := List.mem_filterMap.mp hd
    obtain ⟨_, _, -, hstands⟩ := htiling.exists_stands tile hmem
    have hblank : tile.content ≠ .blank := fun h => by
      rw [Tile.content_of_mistake? htile] at h
      cases h
    obtain ⟨s, -, place', rfl⟩ := mem_layOut hmem
    exact ⟨hstands.mistake htile ▸ hbegins hmem hblank, sourceLine_of_mistake? htile⟩

end Token

end Lox
