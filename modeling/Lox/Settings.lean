/-
The settings of a run.

* `Settings` — what can be set, with the values that hold otherwise.
-/
namespace Lox

/-- What shapes a run. -/
structure Settings where
  /-- Whether the values of top-level expressions are recorded. -/
  replMode : Bool := false
  /-- After how many errors no further declaration is read. -/
  maxErrors : Int := 20
  /-- Whether messages show the source. -/
  showSource : Bool := true
  logLevel : String := "WARNING"
  /-- How many frames nested code may use. -/
  recursionLimit : Int := 25000
  deriving DecidableEq, Repr, Inhabited

end Lox
