/-
Scanning begins anew at a line feed.

A line feed ends whatever scanning is at, as the end of a text does; only a block
comment that is still open goes on behind it.  So a text is scanned the same way after
another one and a line feed, only further on.

* `Location.shift`, `Token.shift`, `Diagnostic.shift` — the same, so many lines and
  characters further on;
* `Diagnostic.bare` — a message without the line it shows;
* `token?_layOut_shift`, `mistake?_layOut_shift` — tiles that are laid out further on;
* `closed_of_codes` — no comment is left open if no message says so;
* `scan_newline` — two texts with a line feed between them.
-/
import Lox.Proofs.Tiling

namespace Lox

/-! ### Further on in a text -/

/-- The place so many lines and characters further on, in the same column. -/
def Location.shift (lines chars : Nat) (l : Location) : Location :=
  { l with line := l.line + lines, offset := l.offset + chars }

/-- The stretch so many lines and characters further on. -/
def Span.shift (lines chars : Nat) (s : Span) : Span :=
  ⟨s.start.shift lines chars, s.stop.shift lines chars⟩

/-- The token so many lines and characters further on. -/
def Token.shift (lines chars : Nat) (t : Token) : Token :=
  { t with span := t.span.shift lines chars }

/-- The message about a stretch so many lines and characters further on. -/
def Diagnostic.shift (lines chars : Nat) (d : Diagnostic) : Diagnostic :=
  { d with span := d.span.shift lines chars }

/-- A message without the line it shows. -/
def Diagnostic.bare (d : Diagnostic) : Diagnostic :=
  { d with sourceLine := none }

namespace Location

variable (lines chars : Nat)

theorem advance_shift (l : Location) (c : Char) :
    (l.shift lines chars).advance c = (l.advance c).shift lines chars := by
  unfold advance shift
  split <;> simp only [Nat.add_right_comm]

theorem advanceOver_shift (text : List Char) : ∀ l : Location,
    (l.shift lines chars).advanceOver text = (l.advanceOver text).shift lines chars := by
  induction text with
  | nil => exact fun _ => rfl
  | cons c text ih =>
    intro l
    rw [advanceOver, List.foldl_cons, advance_shift]
    exact ih (l.advance c)

theorem advanceOver_append (l : Location) (text more : List Char) :
    l.advanceOver (text ++ more) = (l.advanceOver text).advanceOver more :=
  List.foldl_append

theorem file_advanceOver (text : List Char) : ∀ l : Location,
    (l.advanceOver text).file = l.file := by
  induction text with
  | nil => exact fun _ => rfl
  | cons c text ih =>
    intro l
    refine (ih (l.advance c)).trans ?_
    unfold advance
    split <;> rfl

/-- After a text and a line feed a line begins, as at the beginning of all. -/
theorem advanceOver_lineFeed (file : Option String) (text : List Char) :
    Location.advanceOver { file } (text ++ ['\n']) =
      Location.shift (text.count '\n' + 1) (text.length + 1) { file } := by
  have hfollows : (Location.advanceOver { file } (text ++ ['\n'])).Follows
      ([] ++ (text ++ ['\n'])) :=
    (follows_nil file).advanceOver
  have hfile := file_advanceOver (text ++ ['\n']) { file }
  obtain ⟨line, column, offset⟩ := hfollows
  rw [List.nil_append] at line column offset
  cases hplace : Location.advanceOver { file } (text ++ ['\n']) with
  | mk line' column' offset' file' =>
    rw [hplace] at line column offset hfile
    simp only [List.count_append, List.count_singleton_self] at line
    simp only [List.rtakeWhile_concat, ne_eq, not_true_eq_false, decide_false, Bool.false_eq_true,
      if_false, List.length_nil] at column
    simp only [List.length_append, List.length_singleton] at offset
    simp only [shift, Location.mk.injEq]
    exact ⟨line, column, by omega, hfile⟩

end Location

namespace Token

/-! ### Tiles further on -/

section LayOut

variable (listing listing' : Listing) (lines chars : Nat)

theorem layOut_append (ss ss' : List Segment) : ∀ place : Location,
    layOut listing place (ss ++ ss') = layOut listing place ss ++
      layOut listing (place.advanceOver (ss.map Segment.text).flatten) ss' := by
  induction ss with
  | nil => exact fun _ => rfl
  | cons s ss ih =>
    intro place
    rw [List.cons_append, layOut, layOut, ih, List.map_cons, List.flatten_cons,
      Location.advanceOver_append, List.cons_append]

/-- The token of a tile that is laid out further on. -/
theorem token?_tile_shift (s : Segment) (place : Location) :
    (s.tile listing' (place.shift lines chars)).token? =
      ((s.tile listing place).token?).map (Token.shift lines chars) := by
  unfold Segment.tile
  rw [Location.advanceOver_shift]
  cases s.piece with
  | _ => rfl

/-- The mistake of a tile that is laid out further on; the line that it shows may be
another one. -/
theorem mistake?_tile_shift (s : Segment) (place : Location) :
    ((s.tile listing' (place.shift lines chars)).mistake?).map Diagnostic.bare =
      ((s.tile listing place).mistake?).map fun d => (d.shift lines chars).bare := by
  unfold Segment.tile
  rw [Location.advanceOver_shift]
  cases s.piece with
  | _ => rfl

theorem token?_layOut_shift (ss : List Segment) : ∀ place : Location,
    (layOut listing' (place.shift lines chars) ss).filterMap Tile.token? =
      ((layOut listing place ss).filterMap Tile.token?).map (Token.shift lines chars) := by
  induction ss with
  | nil => exact fun _ => rfl
  | cons s ss ih =>
    intro place
    rw [layOut, layOut, List.filterMap_cons, List.filterMap_cons,
      token?_tile_shift listing listing', Location.advanceOver_shift, ih]
    cases (s.tile listing place).token? with
    | _ => rfl

theorem mistake?_layOut_shift (ss : List Segment) : ∀ place : Location,
    ((layOut listing' (place.shift lines chars) ss).filterMap Tile.mistake?).map
        Diagnostic.bare =
      ((layOut listing place ss).filterMap Tile.mistake?).map
        fun d => (d.shift lines chars).bare := by
  induction ss with
  | nil => exact fun _ => rfl
  | cons s ss ih =>
    intro place
    have htile := mistake?_tile_shift listing listing' lines chars s place
    rw [layOut, layOut, List.map_filterMap, List.map_filterMap, List.filterMap_cons,
      List.filterMap_cons, htile, ← List.map_filterMap, ← List.map_filterMap,
      Location.advanceOver_shift, ih]

/-- The tokens do not depend on the lines that are shown. -/
theorem token?_layOut (ss : List Segment) (place : Location) :
    (layOut listing' place ss).filterMap Tile.token? =
      (layOut listing place ss).filterMap Tile.token? :=
  (token?_layOut_shift listing listing' 0 0 ss place).trans (List.map_id _)

theorem mistake?_layOut (ss : List Segment) (place : Location) :
    ((layOut listing' place ss).filterMap Tile.mistake?).map Diagnostic.bare =
      ((layOut listing place ss).filterMap Tile.mistake?).map Diagnostic.bare :=
  mistake?_layOut_shift listing listing' 0 0 ss place

end LayOut

/-! ### Two texts -/

/-- Every segment is laid out somewhere. -/
theorem tile_mem_layOut (listing : Listing) {s : Segment} {ss : List Segment} :
    ∀ place : Location, s ∈ ss → ∃ place', s.tile listing place' ∈ layOut listing place ss := by
  induction ss with
  | nil => exact fun _ h => absurd h List.not_mem_nil
  | cons s' ss ih =>
    intro place h
    rcases List.mem_cons.mp h with rfl | h
    · exact ⟨place, List.mem_cons_self⟩
    · obtain ⟨place', hmem⟩ := ih _ h
      exact ⟨place', List.mem_cons_of_mem _ hmem⟩

/-- No comment is left open if no message says so. -/
theorem closed_of_codes {source : String} {file : Option String} {report : Report}
    (h : ∀ d ∈ (scan source file report).2.diagnostics, d.code ≠ "E004") :
    Closed source.toList := by
  intro s hs hopen
  obtain ⟨-, hreport⟩ := scan_layOut source file report
  obtain ⟨place, hmem⟩ := tile_mem_layOut (Listing.ofText source) { file } hs
  obtain ⟨d, hd, hcode⟩ : ∃ d, (s.tile (Listing.ofText source) place).mistake? = some d ∧
      d.code = "E004" := by
    unfold Segment.tile
    rw [hopen]
    exact ⟨_, rfl, rfl⟩
  refine h d ?_ hcode
  rw [← Array.mem_toList_iff, hreport, List.mem_append]
  exact .inr (List.mem_filterMap.mpr ⟨_, hmem, hd⟩)

/-- Scanning begins anew at a line feed.  If no block comment of the first text is left
open, the tokens of two texts with a line feed between them are those of the first one
without the end of the input, and those of the second one, so many lines and characters
further on as the first text and the line feed have, in the same columns.  The messages
are those of the first text and, further on in the same way, those of the second one; the
lines that they show are left out, as a text may show lines where none are counted. -/
theorem scan_newline (first second : String) (file : Option String) (limit : Int)
    (h : ∀ d ∈ (scan first file { limit }).2.diagnostics, d.code ≠ "E004") :
    let lines := first.toList.count '\n' + 1
    let chars := first.length + 1
    let joined := scan (first ++ "\n" ++ second) file { limit }
    joined.1.toList = (scan first file { limit }).1.toList.dropLast ++
        (scan second file { limit }).1.toList.map (Token.shift lines chars) ∧
      joined.2.diagnostics.toList.map Diagnostic.bare =
        (scan first file { limit }).2.diagnostics.toList.map Diagnostic.bare ++
          (scan second file { limit }).2.diagnostics.toList.map
            fun d => (d.shift lines chars).bare := by
  intro lines chars joined
  obtain ⟨htokens, hreport⟩ := scan_layOut (first ++ "\n" ++ second) file { limit }
  obtain ⟨htokens₁, hreport₁⟩ := scan_layOut first file { limit }
  obtain ⟨htokens₂, hreport₂⟩ := scan_layOut second file { limit }
  have htext : (first ++ "\n" ++ second).toList =
      first.toList ++ '\n' :: second.toList := by simp
  have hchars : chars = first.toList.length + 1 := by
    rw [String.length_toList]
  -- The tiles of the second text are laid out behind the line feed.
  have hplace : ((Location.advanceOver { file } first.toList).advanceOver ['\n']) =
      Location.shift lines chars { file } := by
    rw [hchars, ← Location.advanceOver_lineFeed, Location.advanceOver_append]
  have hlaid : ∀ listing, layOut listing { file }
      (segments (first ++ "\n" ++ second).toList).toList =
        layOut listing { file } (segments first.toList).toList ++
          Segment.tile listing (Location.advanceOver { file } first.toList) ⟨.blank, ['\n']⟩ ::
            layOut listing (Location.shift lines chars { file })
              (segments second.toList).toList := by
    intro listing
    rw [htext, segments_newline _ _ (closed_of_codes h), segments_lineFeed, layOut_append,
      flatten_segments, layOut, hplace]
  have hend : Location.advanceOver { file } (first ++ "\n" ++ second).toList =
      (Location.advanceOver { file } second.toList).shift lines chars := by
    rw [htext, List.append_cons, Location.advanceOver_append, Location.advanceOver_append,
      hplace, Location.advanceOver_shift]
  constructor
  · rw [htokens, htokens₁, htokens₂, hlaid, hend, List.dropLast_concat, List.filterMap_append,
      List.filterMap_cons_none rfl, token?_layOut (Listing.ofText first),
      token?_layOut_shift (Listing.ofText second), List.map_append, List.append_assoc]
    rfl
  · rw [hreport, hreport₁, hreport₂, hlaid, List.filterMap_append,
      List.filterMap_cons_none rfl, List.nil_append, List.nil_append, List.nil_append,
      List.map_append, mistake?_layOut (Listing.ofText first),
      mistake?_layOut_shift (Listing.ofText second)]

/-- A number with a point behind it and a string that is not closed, and a stray character
and an open comment on the next line. -/
theorem scan_newline_openString :
    (∀ d ∈ (scan "1. \"ab" none { limit := 20 }).2.diagnostics, d.code ≠ "E004") ∧
      (scan "1. \"ab\n@ /* c" none { limit := 20 }).1.toList =
        (scan "1. \"ab" none { limit := 20 }).1.toList.dropLast ++
          (scan "@ /* c" none { limit := 20 }).1.toList.map (Token.shift 1 7) ∧
      (scan "1. \"ab\n@ /* c" none { limit := 20 }).2.diagnostics.toList.map Diagnostic.code =
        ["E002", "E001", "E004"] := by
  have hcodes : ∀ d ∈ (scan "1. \"ab" none { limit := 20 }).2.diagnostics, d.code ≠ "E004" := by
    decide +kernel
  have htokens := (scan_newline "1. \"ab" "@ /* c" none 20 hcodes).1
  exact ⟨hcodes, htokens, by decide +kernel⟩

end Token

end Lox
