/-
Every character of a source is accounted for.

Scanning lays a source out in tiles, from left to right, with no gap and no
overlap.  A tile is a token, a mistake that is reported, a single white space
character or a whole comment; its span says on which lines and in which columns
its text stands.

* `Location.Follows` — a location tells the text before it;
* `Blank` — white space and comments;
* `Tiling` — tiles that cover a text;
* `scan_layOut` — the tokens and the messages are those of the segments laid out;
* `scan_tiling` — the tokens and the messages of a source are those of its tiles;
* `scan_accounts` — what follows for the tokens and the messages alone.
-/
import Lox.Proofs.Scanning
import Mathlib.Data.List.DropRight

namespace Lox

/-! ### Locations -/

/-- A location is right after a text: its line is counted by line feeds, its
column by the characters since the last of them. -/
structure Location.Follows (l : Location) (before : List Char) : Prop where
  line : l.line = 1 + before.count '\n'
  column : l.column = 1 + (before.rtakeWhile (· ≠ '\n')).length
  offset : l.offset = before.length

namespace Location

/-- The location is inside a text or at its end, and tells the part before it. -/
def Marks (l : Location) (text : List Char) : Prop :=
  l.offset ≤ text.length ∧ l.Follows (text.take l.offset)

theorem follows_nil (file : Option String) : Follows { file } [] :=
  ⟨rfl, rfl, rfl⟩

theorem Follows.advance {l : Location} {before : List Char} (h : l.Follows before) (c : Char) :
    (l.advance c).Follows (before ++ [c]) := by
  unfold Location.advance
  by_cases hc : c = '\n'
  · subst hc
    refine ⟨?_, ?_, ?_⟩
    · simp [h.line, Nat.add_assoc]
    · simp
    · simp [h.offset]
  · rw [if_neg hc]
    refine ⟨?_, ?_, ?_⟩
    · simp [h.line, hc]
    · simp [h.column, hc, Nat.add_assoc]
    · simp [h.offset]

theorem Follows.advanceOver {text : List Char} : ∀ {l : Location} {before : List Char},
    l.Follows before → (l.advanceOver text).Follows (before ++ text) := by
  induction text with
  | nil =>
    intro l before h
    rw [List.append_nil]
    exact h
  | cons c text ih =>
    intro l before h
    have hstep := ih (h.advance c)
    rw [List.append_assoc] at hstep
    exact hstep

/-- A location after the first part of a text marks the text. -/
theorem Follows.marks {l : Location} {before : List Char} (h : l.Follows before)
    (rest : List Char) : l.Marks (before ++ rest) := by
  unfold Marks
  rw [h.offset, List.take_left', List.length_append]
  · exact ⟨Nat.le_add_right _ _, h⟩
  · rfl

end Location

namespace Token

/-! ### Tiles -/

/-- White space, or a whole comment: one to the end of the line, or one to the
first end of a block comment.  `rest` is the text after it. -/
inductive Blank : (text rest : List Char) → Prop
  | space {c : Char} {rest : List Char} (hc : c ∈ [' ', '\t', '\r', '\n']) : Blank [c] rest
  | line {body rest : List Char} (hb : '\n' ∉ body) (hr : ∀ c ∈ rest.head?, c = '\n') :
      Blank ('/' :: '/' :: body) rest
  | block {body rest : List Char} (hb : ¬['*', '/'] <:+: body ++ ['*']) :
      Blank ('/' :: '*' :: (body ++ ['*', '/'])) rest

/-- What a stretch of a source became. -/
inductive Content where
  | blank
  | token (t : Token)
  | mistake (d : Diagnostic)

/-- A stretch of a source, where it stands, and what it became. -/
structure Tile where
  text : List Char
  span : Span
  content : Content

/-- The token of a tile, if it is one. -/
def Tile.token? (tile : Tile) : Option Token :=
  match tile.content with
  | .token t => some t
  | _ => none

/-- The message about a tile, if it is a mistake. -/
def Tile.mistake? (tile : Tile) : Option Diagnostic :=
  match tile.content with
  | .mistake d => some d
  | _ => none

/-- The codes of mistakes. -/
def mistakeCodes : List String :=
  ["E001", "E002", "E004"]

/-- A content agrees with the text of its tile. -/
inductive Content.Fits (text rest : List Char) (span : Span) : Content → Prop
  | blank (h : Blank text rest) : Fits text rest span .blank
  | token {t : Token} (hs : t.span = span) (hl : t.lexeme.toList = text)
      (hk : t.kind ≠ .endOfInput) : Fits text rest span (.token t)
  | mistake {d : Diagnostic} (hs : d.span = span) (hc : d.code ∈ mistakeCodes) :
      Fits text rest span (.mistake d)

/-- A tile stands between a text and the rest of it. -/
structure Tile.Stands (tile : Tile) (before rest : List Char) : Prop where
  nonempty : tile.text ≠ []
  start : tile.span.start.Follows before
  stop : tile.span.stop.Follows (before ++ tile.text)
  fits : tile.content.Fits tile.text rest tile.span

/-- Tiles that cover a text, which stands after another. -/
inductive Tiling : (before : List Char) → List Tile → (text : List Char) → Prop
  | nil {before : List Char} : Tiling before [] []
  | cons {before rest : List Char} {tile : Tile} {tiles : List Tile}
      (h : tile.Stands before rest) (hrest : Tiling (before ++ tile.text) tiles rest) :
      Tiling before (tile :: tiles) (tile.text ++ rest)

/-! ### Blank stretches -/

theorem isSpace_iff {c : Char} : isSpace c = true ↔ c ∈ [' ', '\t', '\r', '\n'] := by
  simp only [isSpace, Bool.or_eq_true, beq_iff_eq, List.mem_cons, List.not_mem_nil, or_false]
  tauto

/-- A block comment ends where an end of comment stands for the first time. -/
theorem commentLength_eq_some {rest : List Char} : ∀ {before n : Nat},
    commentLength before rest = some n → ∃ body tail, rest = body ++ '*' :: '/' :: tail ∧
      n = before + body.length + 2 ∧ ¬['*', '/'] <:+: body ++ ['*'] := by
  -- By induction on what is left, as the end is looked for at each character.
  induction rest with
  | nil =>
    intro before n h
    cases h
  | cons c rest ih =>
    intro before n h
    unfold commentLength at h
    split at h
    case h_1 heq =>
      cases heq
      cases h
      exact ⟨[], _, rfl, rfl, by decide⟩
    case h_2 hne heq =>
      cases heq
      obtain ⟨body, tail, rfl, rfl, hfirst⟩ := ih h
      refine ⟨c :: body, tail, rfl, by rw [List.length_cons]; omega, ?_⟩
      rw [List.cons_append, List.infix_cons_iff]
      rintro (hfront | hinside)
      · -- An end of comment at the first character was ruled out.
        obtain ⟨rfl, hsecond⟩ := List.cons_prefix_cons.mp hfront
        cases body with
        | nil => simp at hsecond
        | cons d body =>
          obtain ⟨rfl, -⟩ := List.cons_prefix_cons.mp hsecond
          exact hne _ rfl rfl
      · exact hfirst hinside
    case h_3 heq => cases heq

theorem drop_takeWhile (p : Char → Bool) (l : List Char) :
    l.drop (l.takeWhile p).length = l.dropWhile p := by
  have happend := List.takeWhile_append_dropWhile (p := p) (l := l)
  calc l.drop (l.takeWhile p).length
      = (l.takeWhile p ++ l.dropWhile p).drop (l.takeWhile p).length := by rw [happend]
    _ = l.dropWhile p := List.drop_left

/-- A line comment goes on to the end of its line. -/
theorem blank_line (rest : List Char) :
    Blank ('/' :: '/' :: rest.takeWhile (· != '\n')) (rest.dropWhile (· != '\n')) := by
  refine .line (fun hmem => ?_) ?_
  · have hne := List.mem_takeWhile_imp hmem
    simp at hne
  · intro c hc
    have hstop := List.head?_dropWhile_not (· != '\n') rest
    rw [Option.mem_def.mp hc] at hstop
    simpa using hstop

theorem readSlash_blank {rest : List Char} {more : Nat} (h : readSlash rest = (.blank, more)) :
    Blank ('/' :: rest.take more) (rest.drop more) := by
  unfold readSlash at h
  split at h
  case h_1 rest =>
    cases h
    rw [Nat.add_comm 1, List.take_succ_cons, List.drop_succ_cons, drop_takeWhile,
      ← List.prefix_iff_eq_take.mp (List.takeWhile_prefix _)]
    exact blank_line rest
  case h_2 rest =>
    split at h
    case h_1 n hn =>
      cases h
      obtain ⟨body, tail, rfl, rfl, hfirst⟩ := commentLength_eq_some hn
      -- The closing star and slash belong to the comment.
      have hlength : 1 + body.length + 2 = (body ++ ['*', '/']).length + 1 := by
        rw [List.length_append]
        simp only [List.length_cons, List.length_nil]
        omega
      have htext : body ++ '*' :: '/' :: tail = (body ++ ['*', '/']) ++ tail := by simp
      rw [hlength, htext, List.take_succ_cons, List.drop_succ_cons, List.take_left, List.drop_left]
      exact .block hfirst
    case h_2 => cases h
  case h_3 => cases h

/-- What is skipped is white space or a whole comment. -/
theorem readPiece_blank {c : Char} {rest : List Char} {more : Nat}
    (h : readPiece c rest = (.blank, more)) : Blank (c :: rest.take more) (rest.drop more) := by
  -- Of all that is read only white space and comments are blank.
  unfold readPiece at h
  split at h
  case isTrue hspace =>
    cases h
    rw [List.take_zero]
    exact .space (isSpace_iff.mp hspace)
  case isFalse =>
    split at h
    case h_1 => cases h
    case h_2 =>
      split at h
      case h_1 => split at h <;> cases h
      case h_2 =>
        split at h
        case isTrue hslash =>
          rw [hslash]
          exact readSlash_blank h
        case isFalse =>
          split at h
          case isTrue =>
            simp only [readString] at h
            split at h <;> cases h
          case isFalse =>
            split at h
            case isTrue =>
              simp only [readNumber] at h
              split at h
              · split at h <;> cases h
              · cases h
            case isFalse =>
              split at h
              · cases h
              · cases h

/-! ### Segments laid out -/

/-- The tile of a segment at a place. -/
def Segment.tile (listing : Listing) (place : Location) (s : Segment) : Tile :=
  let span : Span := ⟨place, place.advanceOver s.text⟩
  { text := s.text
    span
    content := match s.piece with
      | .blank => .blank
      | .token kind literal => .token { kind, lexeme := String.ofList s.text, literal, span }
      | .mistake m => .mistake (m.diagnose span (listing.line? place.line)) }

/-- The tiles of segments that stand one after another. -/
def layOut (listing : Listing) : Location → List Segment → List Tile
  | _, [] => []
  | place, s :: ss => s.tile listing place :: layOut listing (place.advanceOver s.text) ss

/-- Scanning collects the tokens and the messages of the tiles. -/
theorem foldl_step_layOut (listing : Listing) (ss : List Segment) : ∀ p : Progress,
    (ss.foldl (Progress.step listing) p).tokens.toList =
        p.tokens.toList ++ (layOut listing p.place ss).filterMap Tile.token? ∧
      (ss.foldl (Progress.step listing) p).report.diagnostics.toList =
        p.report.diagnostics.toList ++ (layOut listing p.place ss).filterMap Tile.mistake? ∧
      (ss.foldl (Progress.step listing) p).place =
        p.place.advanceOver (ss.map Segment.text).flatten := by
  induction ss with
  | nil =>
    intro p
    simp [layOut, Location.advanceOver]
  | cons s ss ih =>
    intro p
    obtain ⟨htokens, hreport, hplace⟩ := ih (p.step listing s)
    obtain ⟨piece, text⟩ := s
    have hover : ∀ more, (p.place.advanceOver text).advanceOver more =
        p.place.advanceOver (text ++ more) := fun more => List.foldl_append.symm
    -- A segment gives a token, a message or nothing, and moves the place over its text.
    cases piece with
    | blank =>
      refine ⟨htokens, hreport, hplace.trans (hover _)⟩
    | token kind literal =>
      refine ⟨htokens.trans ?_, hreport, hplace.trans (hover _)⟩
      simp [Progress.step, layOut, Segment.tile, Tile.token?]
    | mistake m =>
      refine ⟨htokens, hreport.trans ?_, hplace.trans (hover _)⟩
      simp [Progress.step, layOut, Segment.tile, Tile.mistake?, Report.add]

/-- The tile of what was read. -/
theorem tile_stands (listing : Listing) {place : Location} {before : List Char}
    (h : place.Follows before) (c : Char) (rest : List Char) :
    (Segment.tile listing place
      ⟨(readPiece c rest).1, c :: rest.take (readPiece c rest).2⟩).Stands before
        (rest.drop (readPiece c rest).2) := by
  refine ⟨List.cons_ne_nil _ _, h, h.advanceOver, ?_⟩
  cases hp : readPiece c rest with
  | mk piece more =>
    cases piece with
    | blank => exact .blank (readPiece_blank hp)
    | token kind literal => exact .token rfl String.toList_ofList (readPiece_spelled hp).notEnd
    | mistake m =>
      refine .mistake rfl ?_
      cases m <;> simp [Mistake.diagnose, Mistake.code, mistakeCodes]

/-- The tiles of a text cover it. -/
theorem layOut_tiling (listing : Listing) (text : List Char) :
    ∀ {place : Location} {before : List Char}, place.Follows before →
      Tiling before (layOut listing place (segments text).toList) text := by
  -- The text left over is shorter, and stands after the tile.
  induction h : text.length using Nat.strongRecOn generalizing text with
  | _ n ih =>
    intro place before hplace
    cases text with
    | nil =>
      rw [segments_nil]
      exact .nil
    | cons c rest =>
      have hlt : (rest.drop (readPiece c rest).2).length < n := by
        rw [← h, List.length_drop, List.length_cons]
        omega
      rw [segments_cons]
      have hnext : (place.advanceOver (c :: rest.take (readPiece c rest).2)).Follows
          (before ++ (c :: rest.take (readPiece c rest).2)) := hplace.advanceOver
      have htail := ih _ hlt _ rfl hnext
      have hcons := Tiling.cons (tile_stands listing hplace c rest) htail
      have htext : (c :: rest.take (readPiece c rest).2) ++ rest.drop (readPiece c rest).2 =
          c :: rest := by
        rw [List.cons_append, List.take_append_drop]
      rw [← htext]
      exact hcons

/-! ### What a tiling says -/

namespace Tiling

variable {before text : List Char} {tiles : List Tile}

theorem flatten (h : Tiling before tiles text) : (tiles.map Tile.text).flatten = text := by
  induction h with
  | nil => rfl
  | cons _ _ ih => rw [List.map_cons, List.flatten_cons, ih]

/-- Every tile stands somewhere in the text. -/
theorem exists_stands (h : Tiling before tiles text) : ∀ tile ∈ tiles, ∃ front rest,
    before ++ text = front ++ tile.text ++ rest ∧ tile.Stands front rest := by
  induction h with
  | nil => simp
  | @cons before rest tile tiles hstands _ ih =>
    rw [List.forall_mem_cons]
    refine ⟨⟨before, rest, by simp, hstands⟩, fun tile' hmem => ?_⟩
    obtain ⟨front, rest', htext, hstands'⟩ := ih tile' hmem
    exact ⟨front, rest', by rw [← htext, List.append_assoc], hstands'⟩

/-- No tile stands before the text that is covered. -/
theorem length_le_start (h : Tiling before tiles text) :
    ∀ tile ∈ tiles, before.length ≤ tile.span.start.offset := by
  induction h with
  | nil => simp
  | cons hstands _ ih =>
    rw [List.forall_mem_cons]
    refine ⟨Nat.le_of_eq hstands.start.offset.symm, fun tile hmem => ?_⟩
    have hlater := ih tile hmem
    rw [List.length_append] at hlater
    omega

/-- Each tile ends before the next ones begin. -/
theorem pairwise (h : Tiling before tiles text) :
    tiles.Pairwise fun a b => a.span.stop.offset ≤ b.span.start.offset := by
  induction h with
  | nil => exact .nil
  | cons hstands hrest ih =>
    refine .cons (fun tile hmem => ?_) ih
    rw [hstands.stop.offset]
    exact hrest.length_le_start tile hmem

end Tiling

namespace Tile

theorem content_of_token? {tile : Tile} {t : Token} (h : tile.token? = some t) :
    tile.content = .token t := by
  unfold token? at h
  split at h
  · cases h
    assumption
  · cases h

theorem content_of_mistake? {tile : Tile} {d : Diagnostic} (h : tile.mistake? = some d) :
    tile.content = .mistake d := by
  unfold mistake? at h
  split at h
  · cases h
    assumption
  · cases h

namespace Stands

variable {tile : Tile} {before rest : List Char}

/-- What a token tells is what its tile is. -/
theorem token (h : tile.Stands before rest) {t : Token} (ht : tile.token? = some t) :
    t.span = tile.span ∧ t.lexeme.toList = tile.text ∧ t.kind ≠ .endOfInput := by
  have hfits := h.fits
  rw [content_of_token? ht] at hfits
  cases hfits with
  | token hs hl hk => exact ⟨hs, hl, hk⟩

theorem mistake (h : tile.Stands before rest) {d : Diagnostic} (hd : tile.mistake? = some d) :
    d.span = tile.span := by
  have hfits := h.fits
  rw [content_of_mistake? hd] at hfits
  cases hfits with
  | mistake hs _ => exact hs

/-- A tile that is neither a token nor a mistake is skipped. -/
theorem blank (h : tile.Stands before rest) (ht : tile.token? = none)
    (hd : tile.mistake? = none) : Blank tile.text rest := by
  have hfits := h.fits
  unfold token? at ht
  unfold mistake? at hd
  cases hc : tile.content with
  | blank =>
    rw [hc] at hfits
    cases hfits with
    | blank hb => exact hb
  | token t =>
    rw [hc] at ht
    cases ht
  | mistake d =>
    rw [hc] at hd
    cases hd

theorem marks (h : tile.Stands before rest) :
    tile.span.start.Marks (before ++ tile.text ++ rest) ∧
      tile.span.stop.Marks (before ++ tile.text ++ rest) := by
  refine ⟨?_, h.stop.marks rest⟩
  rw [List.append_assoc]
  exact h.start.marks _

theorem start_lt_stop (h : tile.Stands before rest) :
    tile.span.start.offset < tile.span.stop.offset := by
  have hpos := List.length_pos_of_ne_nil h.nonempty
  rw [h.start.offset, h.stop.offset, List.length_append]
  omega

/-- The text of a tile is cut out of the source by its span. -/
theorem cut (h : tile.Stands before rest) :
    tile.text = ((before ++ tile.text ++ rest).take tile.span.stop.offset).drop
      tile.span.start.offset := by
  rw [h.stop.offset, h.start.offset, List.take_left, List.drop_left]

end Stands

end Tile

namespace Tiling

variable {text : List Char} {tiles : List Tile}

/-- A token is not the end of the input, and its span cuts out its text. -/
theorem of_token (h : Tiling [] tiles text) {t : Token} (ht : t ∈ tiles.filterMap Tile.token?) :
    t.kind ≠ .endOfInput ∧ t.span.start.offset < t.span.stop.offset ∧
      t.lexeme.toList = (text.take t.span.stop.offset).drop t.span.start.offset ∧
      t.span.start.Marks text ∧ t.span.stop.Marks text := by
  obtain ⟨tile, hmem, htile⟩ := List.mem_filterMap.mp ht
  obtain ⟨front, rest, htext, hs⟩ := h.exists_stands tile hmem
  obtain ⟨hspan, hlexeme, hkind⟩ := hs.token htile
  rw [List.nil_append] at htext
  rw [hspan, hlexeme, htext]
  exact ⟨hkind, hs.start_lt_stop, hs.cut, hs.marks⟩

/-- What is reported is at a place of the text. -/
theorem of_mistake (h : Tiling [] tiles text) {d : Diagnostic}
    (hd : d ∈ tiles.filterMap Tile.mistake?) :
    d.span.start.Marks text ∧ d.span.stop.Marks text := by
  obtain ⟨tile, hmem, htile⟩ := List.mem_filterMap.mp hd
  obtain ⟨front, rest, htext, hs⟩ := h.exists_stands tile hmem
  rw [List.nil_append] at htext
  rw [hs.mistake htile, htext]
  exact hs.marks

/-- Each token ends before the next ones begin. -/
theorem pairwise_tokens (h : Tiling [] tiles text) : (tiles.filterMap Tile.token?).Pairwise
    fun t u => t.span.stop.offset ≤ u.span.start.offset := by
  refine List.pairwise_filterMap.mpr (h.pairwise.imp_of_mem ?_)
  intro a b ha hb hab t ht u hu
  obtain ⟨_, _, -, hs⟩ := h.exists_stands a ha
  obtain ⟨_, _, -, hs'⟩ := h.exists_stands b hb
  rw [(hs.token ht).1, (hs'.token hu).1]
  exact hab

/-- Where nothing is reported, only white space and comments are skipped. -/
theorem blank_of_quiet (h : Tiling [] tiles text) (hquiet : tiles.filterMap Tile.mistake? = [])
    {tile : Tile} (hmem : tile ∈ tiles) (hnone : tile.token? = none) :
    ∃ rest, Blank tile.text rest := by
  obtain ⟨front, rest, -, hs⟩ := h.exists_stands tile hmem
  exact ⟨rest, hs.blank hnone (List.filterMap_eq_nil_iff.mp hquiet tile hmem)⟩

end Tiling

/-! ### Whole sources -/

theorem map_text_layOut (listing : Listing) (ss : List Segment) : ∀ place,
    (layOut listing place ss).map Tile.text = ss.map Segment.text := by
  induction ss with
  | nil => exact fun _ => rfl
  | cons s ss ih => exact fun place => congrArg (s.text :: ·) (ih _)

/-- Nothing of a text is lost when it is cut. -/
theorem flatten_segments (text : List Char) :
    ((segments text).toList.map Segment.text).flatten = text := by
  have htiling := layOut_tiling .empty text (Location.follows_nil none)
  rw [← map_text_layOut .empty _ { file := none }]
  exact htiling.flatten

/-- The tokens of a source are those of its tiles, laid out from the first place, and
the end of the input; what is reported is what its tiles are reported for. -/
theorem scan_layOut (source : String) (file : Option String) (report : Report) :
    let tiles := layOut (Listing.ofText source) { file } (segments source.toList).toList
    (scan source file report).1.toList = tiles.filterMap Tile.token? ++
        [endAt (Location.advanceOver { file } source.toList)] ∧
      (scan source file report).2.diagnostics.toList =
        report.diagnostics.toList ++ tiles.filterMap Tile.mistake? := by
  obtain ⟨htokens, hreport, hplace⟩ := foldl_step_layOut (Listing.ofText source)
    (segments source.toList).toList { place := { file }, report }
  rw [flatten_segments] at hplace
  constructor
  · simp only [scan, Array.toList_push, ← Array.foldl_toList]
    rw [htokens, hplace]
    rfl
  · simp only [scan, ← Array.foldl_toList]
    rw [hreport]

theorem scan_tiling (source : String) (file : Option String) (report : Report) :
    ∃ tiles place, Tiling [] tiles source.toList ∧ place.Follows source.toList ∧
      (scan source file report).1.toList = tiles.filterMap Tile.token? ++ [endAt place] ∧
      (scan source file report).2.diagnostics.toList =
        report.diagnostics.toList ++ tiles.filterMap Tile.mistake? := by
  obtain ⟨htokens, hreport⟩ := scan_layOut source file report
  exact ⟨_, _, layOut_tiling _ _ (Location.follows_nil file),
    (Location.follows_nil file).advanceOver, htokens, hreport⟩

/-- Scanning accounts for every character of a source.  There is one token for the
end of the input, the last, at the end of the source; every other token has a text
that is not empty and that its span cuts out of the source, and ends before the
next begins.  The tokens, what is reported, single white space characters and
whole comments cover the source without a gap and without an overlap, so if nothing
is reported only white space and comments are skipped.  And each location tells
line and column of its place. -/
theorem scan_accounts (source : String) (file : Option String) (report : Report) :
    let text := source.toList
    let tokens := (scan source file report).1.toList
    ∃ tiles last, Tiling [] tiles text ∧
      tokens = tiles.filterMap Tile.token? ++ [last] ∧
      (scan source file report).2.diagnostics.toList =
        report.diagnostics.toList ++ tiles.filterMap Tile.mistake? ∧
      last.kind = .endOfInput ∧ last.span.start = last.span.stop ∧
      last.span.stop.offset = text.length ∧
      (∀ t ∈ tiles.filterMap Tile.token?, t.kind ≠ .endOfInput ∧
        t.span.start.offset < t.span.stop.offset) ∧
      (∀ t ∈ tokens, t.lexeme.toList =
        (text.take t.span.stop.offset).drop t.span.start.offset) ∧
      tokens.Pairwise (fun t u => t.span.stop.offset ≤ u.span.start.offset) ∧
      ((scan source file report).2.diagnostics = report.diagnostics →
        ∀ tile ∈ tiles, tile.token? = none → ∃ rest, Blank tile.text rest) ∧
      ∀ span ∈ tokens.map Token.span ++ (tiles.filterMap Tile.mistake?).map Diagnostic.span,
        span.start.Marks text ∧ span.stop.Marks text := by
  obtain ⟨tiles, place, htiling, hplace, htokens, hreport⟩ := scan_tiling source file report
  have hend : place.Marks source.toList := by
    have hmarks := hplace.marks []
    rwa [List.append_nil] at hmarks
  refine ⟨tiles, endAt place, htiling, htokens, hreport, rfl, rfl, hplace.offset,
    fun t ht => ⟨(htiling.of_token ht).1, (htiling.of_token ht).2.1⟩, ?_, ?_, ?_, ?_⟩
  · intro t ht
    rw [htokens, List.mem_append, List.mem_singleton] at ht
    rcases ht with ht | rfl
    · exact (htiling.of_token ht).2.2.1
    · -- The end of the input has no text.
      change [] = (source.toList.take place.offset).drop place.offset
      rw [List.drop_eq_nil_of_le (List.length_take_le _ _)]
  -- The last token begins where the text ends, and every other one ends before that.
  · rw [htokens, List.pairwise_append]
    refine ⟨htiling.pairwise_tokens, List.pairwise_singleton _ _, fun t ht u hu => ?_⟩
    rw [List.mem_singleton.mp hu]
    change t.span.stop.offset ≤ place.offset
    rw [hplace.offset]
    exact (htiling.of_token ht).2.2.2.2.1
  · intro hquiet tile hmem hnone
    rw [hquiet, List.self_eq_append_right] at hreport
    exact htiling.blank_of_quiet hreport hmem hnone
  · intro span hspan
    rw [List.mem_append, List.mem_map, List.mem_map] at hspan
    rcases hspan with ⟨t, ht, rfl⟩ | ⟨d, hd, rfl⟩
    · rw [htokens, List.mem_append, List.mem_singleton] at ht
      rcases ht with ht | rfl
      · exact (htiling.of_token ht).2.2.2
      · exact ⟨hend, hend⟩
    · exact htiling.of_mistake hd

end Token

end Lox
