/-
What is underlined in a message.

Under a message the line with its number is shown, and below it the place of the
message is marked.  As long as only line feeds have ended lines up to the place, the
mark is below the character that the message is about.

* `Diagnostic.Underlines` — the shown line has in its column the character at the
  offset of the message, and the underline begins below it;
* `check_placed` — the tokens and the messages of a source that is checked have places;
* `run_underlines` — checking and running a source underlines the right characters;
* `unshown_after_return` — a carriage return ends a shown line, though it begins no new
  line number.
-/
import Lox.Proofs.Checking
import Lox.Proofs.Interpretation
import Lox.Proofs.Placing
import Lox.Proofs.Sessions
import Lox.Proofs.Shown
import Mathlib.Data.Nat.Digits.Defs

namespace Lox

namespace Diagnostic

/-- A message shows a line that has in its column the character at the offset of the
message.  If there is room for the number of the line, the first mark of the underline is
below this character. -/
def Underlines (d : Diagnostic) (source : String) : Prop :=
  ∃ line c, d.sourceLine = some line ∧ line.toList[d.span.start.column - 1]? = some c ∧
    source.toList[d.span.start.offset]? = some c ∧
    (d.line < 1000 → ∃ bar numbered marks,
      d.render true = "\n".intercalate
        (d.header :: bar :: numbered :: marks :: d.hints.map ("    = hint: " ++ ·)) ∧
      numbered.toList[marks.toList.idxOf '^']? = some c)

theorem toList_pushn (s : String) (c : Char) (n : Nat) :
    (s.pushn c n).toList = s.toList ++ List.replicate n c := by
  rw [String.pushn_eq_repeat_push]
  induction n with
  | zero => simp [Nat.repeat]
  | succ n ih =>
    rw [Nat.repeat, String.toList_push, ih, List.append_assoc, List.replicate_succ']

/-- Numbers of up to three digits take the same room. -/
theorem length_alignRight {n : Nat} (h : n < 1000) :
    (alignRight 3 (toString n)).toList.length = 3 := by
  have hdigits : (toString n).length ≤ 3 := Nat.repr_length n 3 (by decide) h
  unfold alignRight
  rw [String.toList_append, toList_pushn, String.toList_empty, List.nil_append,
    List.length_append, List.length_replicate, String.length_toList, Nat.sub_add_cancel hdigits]

/-- The underline begins below the column of a message. -/
theorem excerpt_aligned (d : Diagnostic) {line : String} {c : Char} (h : d.line < 1000)
    (hc : line.toList[d.span.start.column - 1]? = some c) : ∃ bar numbered marks,
      d.excerpt line = [bar, numbered, marks] ∧
      numbered.toList[marks.toList.idxOf '^']? = some c := by
  refine ⟨_, _, _, rfl, ?_⟩
  have hmarks : ("    | " ++ "".pushn ' ' (d.span.start.column - 1) ++
      "".pushn '^' (d.underlined line)).toList.idxOf '^' = 6 + (d.span.start.column - 1) := by
    obtain ⟨n, hn⟩ : ∃ n, d.underlined line = n + 1 :=
      Nat.exists_eq_add_of_le' (Nat.le_max_left 1 _)
    rw [hn, String.toList_append, String.toList_append, toList_pushn, toList_pushn,
      List.idxOf_append_of_notMem (by simp)]
    simp [List.replicate_succ]
    omega
  rw [hmarks, String.toList_append, String.toList_append, List.append_assoc,
    List.getElem?_append_right (by rw [length_alignRight h]; omega), length_alignRight h,
    List.getElem?_append_right (by simp; omega)]
  rw [← hc]
  congr 1
  simp
  omega

end Diagnostic

/-! ### Places -/

/-- A stretch that begins at a character of a text that is no white space, or that is
empty. -/
def Span.Begins (text : List Char) (s : Span) : Prop :=
  s.start.Begins text ∨ s.start = s.stop

/-- The token of the fault that a unit ended with. -/
def Ending.token? : Ending → Option Token
  | .faulted _ t => some t
  | _ => none

section

variable (host : Host) (settings : Settings) (file : Option String) (source : String)

/-- The tokens and the messages of a source that is checked have places. -/
theorem check_placed : let checked := check host settings file source
    (∀ t ∈ checked.tokens, t.span.Begins source.toList) ∧
      ∀ d ∈ checked.report.diagnostics,
        d.Placed (Span.Begins source.toList) (Listing.ofText source) := by
  obtain ⟨hscan, hfound⟩ := Token.scan_begins source file settings.blank
  obtain ⟨htokens, hscanned, hparse⟩ := check_stages host settings file source
  obtain ⟨r, hresolve, -, hreport⟩ := check_resolves host settings file source
  have hend : Token.endOfNothing.span.Begins source.toList := .inr rfl
  have hplaces : ∀ t ∈ (check host settings file source).tokens, t.span.Begins source.toList := by
    rw [htokens]
    exact fun t ht => (hscan t ht).imp_right And.right
  refine ⟨hplaces, fun d hd => ?_⟩
  -- A message is from resolving, from reading or from scanning.
  obtain ⟨hread, hparsed⟩ := Tree.parse_placed (settings.frames host) (Listing.ofText source)
    (check host settings file source).scanned
    (fun t ht => hplaces t (Array.mem_toList_iff.mp ht)) hend
  rw [hparse] at hread hparsed
  dsimp only at hread hparsed
  obtain ⟨ss, c, -, hresolved, hfinal⟩ := Scope.resolve_placed (settings.frames host)
    (Listing.ofText source) (check host settings file source).parsed hread hend
  obtain rfl : _ = r := Except.ok.inj (hresolved.symm.trans hresolve)
  rw [hreport] at hd
  rcases hfinal.places d hd with hd | hd
  · rcases hparsed.places d hd with hd | hd
    · rw [hscanned] at hd
      obtain ⟨hplace, hshown⟩ := (hfound d hd).resolve_left (by simp [Settings.blank])
      exact ⟨.inl hplace, hshown⟩
    · exact hd
  · exact hd

/-- The messages of a run are those of checking, and that of the fault it ends with. -/
theorem mem_run_report (s : Session) {d : Diagnostic}
    (hd : d ∈ (s.run host settings file source).1.report.diagnostics) :
    d ∈ (check host settings file source).report.diagnostics ∨
      ∃ f t, (s.run host settings file source).1.ending = .faulted f t ∧
        d = f.diagnose t ((Listing.ofText source).line? t.line) := by
  obtain ⟨⟨ending, value, m⟩, hrun⟩ : ∃ e, runStatements host
    (settings.frames host / framesPerLevel) settings.replMode
    (check host settings file source).statements none { s.machine with output := "" } = e :=
    ⟨_, rfl⟩
  unfold Session.run Session.runChecked at hd ⊢
  rw [interpret_of_runStatements settings hrun] at hd ⊢
  split at hd
  · exact .inl hd
  · rename_i herrors
    rw [if_neg herrors]
    cases ending with
    | faulted f t => exact (Array.mem_push.mp hd).imp_right fun hd => ⟨f, t, rfl, hd⟩
    | _ => exact .inl hd

end

/-- A message that begins at a character and shows the line with its number underlines the
character, if only line feeds have ended lines up to there. -/
theorem Diagnostic.underlines_of_begins {d : Diagnostic} {source : String}
    (hbegins : d.span.start.Begins source.toList)
    (hline : d.sourceLine = (Listing.ofText source).line? d.line)
    (hplain : Text.PlainBreaks source.toList (d.span.start.offset + 1)) :
    d.Underlines source := by
  obtain ⟨line, c, hnumber, hcolumn, hoffset⟩ := hbegins.shows hplain
  have hshown : d.sourceLine = some line := hline.trans hnumber
  refine ⟨line, c, hshown, hcolumn, hoffset, fun hroom => ?_⟩
  obtain ⟨bar, numbered, marks, hexcerpt, haligned⟩ := d.excerpt_aligned hroom hcolumn
  refine ⟨bar, numbered, marks, ?_, haligned⟩
  unfold Diagnostic.render
  rw [if_pos rfl, hshown]
  dsimp only [Option.elim_some]
  rw [hexcerpt]
  rfl

/-- A message at a place does so, unless it is about no character. -/
theorem Diagnostic.Placed.underlines {d : Diagnostic} {source : String}
    (h : d.Placed (Span.Begins source.toList) (Listing.ofText source))
    (hspan : d.span.start ≠ d.span.stop)
    (hplain : Text.PlainBreaks source.toList (d.span.start.offset + 1)) :
    d.Underlines source :=
  Diagnostic.underlines_of_begins (h.place.resolve_right hspan) h.shown hplain

/-- The shown line is the right one.  Whatever was run before, the messages of a source
that is checked, and that of its run if this stops at one of its tokens, underline the
character that they are about; unless they are about none, or another character than a
line feed has ended a line before. -/
theorem run_underlines (host : Host) (settings : Settings) (s : Session) (source : Source)
    {d : Diagnostic}
    (h : let checked := check host settings source.file source.text
      let result := (s.run host settings source.file source.text).1
      d ∈ checked.report.diagnostics ∨ d ∈ result.report.diagnostics ∧
        ∀ t ∈ result.ending.token?, ∃ t' ∈ checked.tokens, t.span = t'.span)
    (hspan : d.span.start ≠ d.span.stop)
    (hplain : Text.PlainBreaks source.text.toList (d.span.start.offset + 1)) :
    d.Underlines source.text := by
  obtain ⟨htokens, hreport⟩ := check_placed host settings source.file source.text
  rcases h with hd | ⟨hd, hfault⟩
  · exact (hreport d hd).underlines hspan hplain
  · rcases mem_run_report host settings source.file source.text s hd with hd | ⟨f, t, hend, rfl⟩
    · exact (hreport d hd).underlines hspan hplain
    · obtain ⟨t', ht', hspans⟩ := hfault t (by rw [hend]; rfl)
      have hplace : t.span.Begins source.text.toList := hspans ▸ htokens t' ht'
      have hplaced : (f.diagnose t ((Listing.ofText source.text).line? t.line)).Placed
          (Span.Begins source.text.toList) (Listing.ofText source.text) :=
        ⟨hplace, rfl⟩
      exact hplaced.underlines hspan hplain

/-- A text with a character on its second line that begins no word. -/
def strayed : Source where
  text := "1;\n  @"

/-- A text whose run stops on its second line. -/
def negated : Source where
  text := "1;\n  -nil;"

theorem run_underlines_second_line :
    (∃ d ∈ (check .small { recursionLimit := 100 } strayed.file
      strayed.text).report.diagnostics, d.Underlines strayed.text) ∧
    ∃ d ∈ (Session.start.run .small { recursionLimit := 100 } negated.file
      negated.text).1.report.diagnostics, d.Underlines negated.text := by
  constructor
  · have hfound : ∃ d ∈ (check .small { recursionLimit := 100 } strayed.file
        strayed.text).report.diagnostics, d.span.start ≠ d.span.stop ∧
        Text.PlainBreaks strayed.text.toList (d.span.start.offset + 1) := by
      decide +kernel
    obtain ⟨d, hd, hspan, hplain⟩ := hfound
    exact ⟨d, hd, run_underlines .small { recursionLimit := 100 } .start strayed (.inl hd) hspan
      hplain⟩
  · have hfound : ∃ d ∈ (Session.start.run .small { recursionLimit := 100 } negated.file
        negated.text).1.report.diagnostics, d.span.start ≠ d.span.stop ∧
        Text.PlainBreaks negated.text.toList (d.span.start.offset + 1) := by
      decide +kernel
    obtain ⟨d, hd, hspan, hplain⟩ := hfound
    have htoken : ∀ t ∈ (Session.start.run .small { recursionLimit := 100 } negated.file
        negated.text).1.ending.token?, ∃ t' ∈ (check .small { recursionLimit := 100 } negated.file
        negated.text).tokens, t.span = t'.span := by
      decide +kernel
    exact ⟨d, hd, run_underlines .small { recursionLimit := 100 } .start negated
      (.inr ⟨hd, htoken⟩) hspan hplain⟩

/-- A text in which a carriage return stands on the line of a character that begins no
word. -/
def returned : Source where
  text := "\"a\rb\"; @"

/-- The shown line then ends before the character. -/
theorem unshown_after_return : ∃ d ∈ (check .small { recursionLimit := 100 } returned.file
    returned.text).report.diagnostics,
    d.span.start ≠ d.span.stop ∧ returned.text.toList[d.span.start.offset]? = some '@' ∧
      d.sourceLine = some "\"a" ∧ "\"a".toList[d.span.start.column - 1]? = none := by
  decide +kernel

end Lox
