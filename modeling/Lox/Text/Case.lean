/-
Runs of letters that change case alike.

Most letters have one letter of the other case at a fixed distance, and whole
runs of letters share that distance.

* `CaseRun` — a run;
* `shifted?` — the letter of the other case.
-/
namespace Lox.Text

/-- A run of letters, every `step`-th from `first` to `last`, whose letters of
the other case stand `shift` code points away. -/
structure CaseRun where
  first : Nat
  last : Nat
  step : Nat
  shift : Int

/-- Whether a run holds a code point. -/
def CaseRun.holds (r : CaseRun) (n : Nat) : Bool :=
  r.first ≤ n && n ≤ r.last && (n - r.first) % r.step == 0

/-- The letter of the other case, if one of some runs holds a character. -/
def shifted? (runs : List CaseRun) (c : Char) : Option Char :=
  (runs.find? (·.holds c.toNat)).map fun r => Char.ofNat ((c.toNat : Int) + r.shift).toNat

end Lox.Text
