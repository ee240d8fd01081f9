/-
Forms can be read back.

A form is a word, a text in quotes, or a head and parts in parentheses with blanks between
them.  Texts in quotes are written without escapes.  As long as no word has a blank, a
parenthesis or a quote in it, and no text a quote, the end of each piece can be seen, so a form
is told by its text.

* `Form`, `Form.text` — forms and how they are written;
* `Form.Valid` — forms whose words and texts end where they should;
* `text_append_inj` — a form can be told from any text that begins with it;
* `text_inj` — no two forms have the same text.
-/
import Lox.Proofs.Layout

namespace Lox

/-- A word, a text in quotes, or a head and parts in parentheses. -/
inductive Form where
  | word (s : String)
  | quoted (s : String)
  | node (head : String) (parts : List Form)

namespace Form

mutual

/-- How a form is written. -/
@[simp]
def text : Form → List Char
  | word s => s.toList
  | quoted s => '"' :: (s.toList ++ ['"'])
  | node head parts => '(' :: (head.toList ++ texts parts)

/-- How the parts of a form are written, each behind a blank, up to the end of the form. -/
@[simp]
def texts : List Form → List Char
  | [] => [')']
  | f :: fs => ' ' :: (f.text ++ texts fs)

end

/-- Whether a character has no part in telling words from each other. -/
def isPlain (c : Char) : Bool :=
  c != ' ' && c != '(' && c != ')' && c != '"'

/-- A word of plain characters. -/
def Bare (s : String) : Prop :=
  s.toList ≠ [] ∧ ∀ c ∈ s.toList, isPlain c = true

instance (s : String) : Decidable (Bare s) :=
  decidable_of_iff (s.toList ≠ [] ∧ s.toList.all isPlain = true)
    (and_congr_right fun _ => List.all_eq_true)

/-- A form whose words are plain and whose texts have no quote in them. -/
inductive Valid : Form → Prop
  | word {s : String} (hs : Bare s) : Valid (word s)
  | quoted {s : String} (hs : '"' ∉ s.toList) : Valid (quoted s)
  | node {head : String} {parts : List Form} (hh : Bare head) (hp : ∀ f ∈ parts, f.Valid) :
      Valid (node head parts)

/-- What may stand behind a form. -/
def Ends (after : List Char) : Prop :=
  ∀ c ∈ after.head?, c = ' ' ∨ c = ')'

theorem ends_nil : Ends [] :=
  fun _ hc => nomatch hc

theorem Ends.not_plain {after : List Char} (h : Ends after) :
    ∀ c ∈ after.head?, isPlain c = false := by
  intro c hc
  rcases h c hc with rfl | rfl <;> rfl

theorem ends_texts (fs : List Form) (after : List Char) : Ends (texts fs ++ after) := by
  intro c hc
  cases fs with
  | nil => exact .inr (Option.some.inj hc).symm
  | cons f fs => exact .inl (Option.some.inj hc).symm

/-- A run of characters of a class ends where the class ends. -/
theorem run_append_inj {p : Char → Bool} {s s' after after' : List Char}
    (hs : ∀ c ∈ s, p c = true) (hs' : ∀ c ∈ s', p c = true)
    (ha : ∀ c ∈ after.head?, p c = false) (ha' : ∀ c ∈ after'.head?, p c = false)
    (h : s ++ after = s' ++ after') : s = s' ∧ after = after' := by
  have hrun := congrArg (List.takeWhile p) h
  rw [Token.takeWhile_append_stop hs ha, Token.takeWhile_append_stop hs' ha'] at hrun
  exact ⟨hrun, List.append_cancel_left (hrun ▸ h)⟩

theorem Bare.first {s : String} (hs : Bare s) :
    ∃ c rest, s.toList = c :: rest ∧ isPlain c = true := by
  cases hchars : s.toList with
  | nil => exact absurd hchars hs.1
  | cons c rest => exact ⟨c, rest, rfl, hs.2 c (hchars ▸ List.mem_cons_self)⟩

/-- A bare word does not begin like any other form. -/
theorem Bare.append_ne {s : String} (hs : Bare s) {c : Char} (hc : isPlain c = false)
    (after rest : List Char) : s.toList ++ after ≠ c :: rest := by
  obtain ⟨d, more, hchars, hd⟩ := hs.first
  rw [hchars, List.cons_append]
  intro h
  rw [(List.cons.inj h).1, hc] at hd
  cases hd

/-- A form can be told from any text that begins with it. -/
def Told (f : Form) : Prop :=
  ∀ {g : Form} {after after' : List Char}, g.Valid → Ends after → Ends after' →
    f.text ++ after = g.text ++ after' → f = g ∧ after = after'

theorem texts_append_inj {fs : List Form} (hfs : ∀ f ∈ fs, f.Told) :
    ∀ {gs : List Form} {after after' : List Char}, (∀ g ∈ gs, g.Valid) →
      texts fs ++ after = texts gs ++ after' → fs = gs ∧ after = after' := by
  induction fs with
  | nil =>
    intro gs after after' _ h
    cases gs with
    | nil => exact ⟨rfl, (List.cons.inj h).2⟩
    | cons g gs => exact absurd (List.cons.inj h).1 (by decide)
  | cons f fs ih =>
    intro gs after after' hgs h
    cases gs with
    | nil => exact absurd (List.cons.inj h).1 (by decide)
    | cons g gs =>
      rw [List.forall_mem_cons] at hfs hgs
      have hparts : f.text ++ (texts fs ++ after) = g.text ++ (texts gs ++ after') := by
        rw [← List.append_assoc, ← List.append_assoc]
        exact (List.cons.inj h).2
      obtain ⟨rfl, hrest⟩ := hfs.1 hgs.1 (ends_texts fs after) (ends_texts gs after') hparts
      obtain ⟨rfl, hafter⟩ := ih hfs.2 hgs.2 hrest
      exact ⟨rfl, hafter⟩

/-- The text of a form determines the form, and where it ends in a longer text. -/
theorem text_append_inj {f : Form} (hf : f.Valid) : f.Told := by
  -- The first character tells words, quoted texts and nodes apart; after that each ends where a
  -- character of another class begins.
  induction hf with
  | @word s hs =>
    intro g after after' hg ha ha' h
    cases hg with
    | word hs' =>
      obtain ⟨hchars, hafter⟩ := run_append_inj hs.2 hs'.2 ha.not_plain ha'.not_plain h
      exact ⟨congrArg word (String.toList_inj.mp hchars), hafter⟩
    | quoted _ => exact absurd h (hs.append_ne rfl _ _)
    | node _ _ => exact absurd h (hs.append_ne rfl _ _)
  | @quoted s hs =>
    intro g after after' hg ha ha' h
    cases hg with
    | word hs' => exact absurd h.symm (hs'.append_ne rfl _ _)
    | @quoted s' hs' =>
      have hbody : s.toList ++ '"' :: after = s'.toList ++ '"' :: after' := by
        rw [List.append_cons, List.append_cons s'.toList]
        exact (List.cons.inj h).2
      have hclass : ∀ {s : String}, '"' ∉ s.toList → ∀ c ∈ s.toList, (c != '"') = true :=
        fun hs c hc => bne_iff_ne.mpr fun hquote => hs (hquote ▸ hc)
      have hstop : ∀ (after : List Char), ∀ c ∈ ('"' :: after).head?, (c != '"') = false :=
        fun after c hc => by rw [← Option.some.inj hc]; rfl
      obtain ⟨hchars, hafter⟩ := run_append_inj (hclass hs) (hclass hs') (hstop _) (hstop _) hbody
      exact ⟨congrArg quoted (String.toList_inj.mp hchars), (List.cons.inj hafter).2⟩
    | node _ _ => exact absurd (List.cons.inj h).1 (by decide)
  | @node head parts hh hp ih =>
    intro g after after' hg ha ha' h
    cases hg with
    | word hs' => exact absurd h.symm (hs'.append_ne rfl _ _)
    | quoted _ => exact absurd (List.cons.inj h).1 (by decide)
    | @node head' parts' hh' hp' =>
      -- Inside the parentheses the head is a word, and what follows it are the texts of the
      -- parts.
      have hinside : head.toList ++ (texts parts ++ after) =
          head'.toList ++ (texts parts' ++ after') := by
        rw [← List.append_assoc, ← List.append_assoc]
        exact (List.cons.inj h).2
      obtain ⟨hchars, hparts⟩ := run_append_inj hh.2 hh'.2 (ends_texts parts after).not_plain
        (ends_texts parts' after').not_plain hinside
      obtain rfl := String.toList_inj.mp hchars
      obtain ⟨rfl, hafter⟩ := texts_append_inj ih hp' hparts
      exact ⟨rfl, hafter⟩

/-- No two forms have the same text. -/
theorem text_inj {f g : Form} (hf : f.Valid) (hg : g.Valid) (h : f.text = g.text) : f = g :=
  (text_append_inj hf hg ends_nil ends_nil (by rw [h])).1

end Form

end Lox
