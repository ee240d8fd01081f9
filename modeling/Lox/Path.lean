/-
The names of files.

* `normalPath` — a name without the parts that lead nowhere;
* `Entry` — what is found under a name;
* `ReadError` — why a text file cannot be read;
* `Entry.bytes`, `Entry.text` — what a file holds.
-/
import Lox.Text.Lines
import Lox.Text.Utf8

namespace Lox

/-- A name without empty and `.` parts.  One slash at the front stays, as do
exactly two; nothing is left of `.`. -/
def normalPath (path : String) : String :=
  let root :=
    if path.startsWith "//" && !path.startsWith "///" then "//"
    else if path.startsWith "/" then "/" else ""
  let parts := (path.splitOn "/").filter fun p => p != "" && p != "."
  let name := root ++ "/".intercalate parts
  if name.isEmpty then "." else name

/-- What is found under a name. -/
inductive Entry where
  | file (bytes : List UInt8)
  | directory
  | missing
  /-- A part of the name other than the last is a file. -/
  | underFile
  /-- The name, or a part of it, is longer than any that can be there. -/
  | nameTooLong

/-- Whether there is a file or a directory. -/
def Entry.isThere : Entry → Bool
  | file _ | directory => true
  | missing | underFile | nameTooLong => false

/-- Why a text file cannot be read. -/
inductive ReadError where
  | missing (path : String)
  | directory (path : String)
  | underFile (path : String)
  | nameTooLong (path : String)
  | undecodable (e : Text.DecodeError)
  deriving DecidableEq, Repr

/-- The text of a read error. -/
def ReadError.message : ReadError → String
  | missing path => "[Errno 2] No such file or directory: " ++ Text.quoted path
  | directory path => "[Errno 21] Is a directory: " ++ Text.quoted path
  | underFile path => "[Errno 20] Not a directory: " ++ Text.quoted path
  | nameTooLong path => "[Errno 36] File name too long: " ++ Text.quoted path
  | undecodable e => e.message

/-- The bytes of a file. -/
def Entry.bytes (path : String) : Entry → Except ReadError (List UInt8)
  | file bytes => .ok bytes
  | directory => .error (.directory path)
  | missing => .error (.missing path)
  | underFile => .error (.underFile path)
  | nameTooLong => .error (.nameTooLong path)

/-- The text of a file, with its line ends read as line feeds. -/
def Entry.text (path : String) (e : Entry) : Except ReadError String := do
  match Text.decode (← e.bytes path) with
  | .ok chars => .ok (String.ofList (Text.unifyBreaks chars))
  | .error e => .error (.undecodable e)

end Lox
