/-
The kinds of values.

A value is marked with its kind, or its kind is told by its shape.

* `Tag` — the kinds that a mark can name;
* `Tag.ofName` — the kind with some full name;
* `Tag.ofWord` — the kind that the shape of an unmarked word tells.
-/
import Lox.Text.Lines
import Lox.Yaml.Moment

namespace Lox.Yaml

/-- The kinds of values. -/
inductive Tag where
  | null
  | bool
  | int
  | float
  | stamp
  | text
  | binary
  | list
  | pairs
  | set
  | map
  /-- The key whose value is merged into the mapping that holds it. -/
  | merge
  /-- The key whose value stands for the mapping that holds it. -/
  | standIn
  /-- A kind of which no value can be made. -/
  | strange
  deriving DecidableEq, Repr

/-- The kind with some full name. -/
def Tag.ofName : String → Tag
  | "tag:yaml.org,2002:null" => null
  | "tag:yaml.org,2002:bool" => bool
  | "tag:yaml.org,2002:int" => int
  | "tag:yaml.org,2002:float" => float
  | "tag:yaml.org,2002:timestamp" => stamp
  | "tag:yaml.org,2002:str" => text
  | "tag:yaml.org,2002:binary" => binary
  | "tag:yaml.org,2002:seq" => list
  | "tag:yaml.org,2002:omap" | "tag:yaml.org,2002:pairs" => pairs
  | "tag:yaml.org,2002:set" => set
  | "tag:yaml.org,2002:map" => map
  | "tag:yaml.org,2002:merge" => merge
  | "tag:yaml.org,2002:value" => standIn
  | _ => strange

/-! ### Shapes of words -/

/-- The words for true and false. -/
def boolWords : List String :=
  ["yes", "Yes", "YES", "no", "No", "NO", "true", "True", "TRUE", "false", "False", "FALSE",
   "on", "On", "ON", "off", "Off", "OFF"]

/-- The words for null, besides the empty one. -/
def nullWords : List String :=
  ["~", "null", "Null", "NULL"]

/-- Whether a character is a digit or an underscore. -/
def isDigitOrBar (c : Char) : Bool :=
  isDigit c || c == '_'

/-- Whether a character is an octal digit or an underscore. -/
def isOctalOrBar (c : Char) : Bool :=
  ('0' ≤ c && c ≤ '7') || c == '_'

/-- Whether a character is a hexadecimal digit. -/
def isHexDigit (c : Char) : Bool :=
  isDigit c || ('a' ≤ c && c ≤ 'f') || ('A' ≤ c && c ≤ 'F')

/-- A text without its sign; tells also whether there was one. -/
def splitSign : List Char → Bool × List Char
  | '-' :: rest | '+' :: rest => (true, rest)
  | rest => (false, rest)

/-- Whether a text is at most two digits, below sixty. -/
def isSixtieth (s : List Char) : Bool :=
  match s with
  | [d] => isDigit d
  | [t, d] => '0' ≤ t && t ≤ '5' && isDigit d
  | _ => false

/-- The parts of a text between colons. -/
def betweenColons (s : List Char) : List (List Char) :=
  (String.ofList s).splitOn ":" |>.map String.toList

/-- Whether a text has the shape of a whole number without its sign: binary,
hexadecimal, octal after a zero, decimal, or decimal with further parts counted
by sixties. -/
def isWholeWord (s : List Char) : Bool :=
  match s with
  | [] => false
  | ['0'] => true
  | '0' :: 'b' :: rest => !rest.isEmpty && rest.all fun c => c == '0' || c == '1' || c == '_'
  | '0' :: 'x' :: rest => !rest.isEmpty && rest.all fun c => isHexDigit c || c == '_'
  | '0' :: rest => rest.all isOctalOrBar
  | c :: _ =>
    isDigit c && match betweenColons s with
      | first :: parts => first.all isDigitOrBar && parts.all isSixtieth
      | [] => false

/-- Whether a text is nothing, or an exponent: a mark, a sign and digits. -/
def isExponent (s : List Char) : Bool :=
  match s with
  | [] => true
  | mark :: sign :: digits =>
    (mark == 'e' || mark == 'E') && (sign == '+' || sign == '-')
      && !digits.isEmpty && digits.all isDigit
  | _ => false

/-- Whether a text is what follows the point of a number. -/
def isFraction (s : List Char) : Bool :=
  isExponent (s.dropWhile isDigitOrBar)

/-- Whether a text is a number with a point and parts counted by sixties. -/
def isSixtiesFloat (s : List Char) : Bool :=
  match (betweenColons s).reverse with
  | last :: rest =>
    match rest.reverse with
    | first :: middle =>
      let whole := last.takeWhile (· != '.')
      let places := last.drop whole.length
      first.head?.any isDigit && first.all isDigitOrBar && middle.all isSixtieth
        && isSixtieth whole && places.head? == some '.' && places.tail.all isDigitOrBar
    | [] => false
  | [] => false

/-- Whether a text has the shape of a number with a point, without its sign. -/
def isFloatWord (signed : Bool) (s : List Char) : Bool :=
  match s with
  | [] => false
  | '.' :: rest =>
    let word := String.ofList rest
    word == "inf" || word == "Inf" || word == "INF"
      || (!signed && (word == "nan" || word == "NaN" || word == "NAN"))
      || (!signed && rest.head?.any isDigit && isFraction rest)
  | c :: _ =>
    let rest := s.dropWhile isDigitOrBar
    isDigit c && ((rest.head? == some '.' && isFraction rest.tail) || isSixtiesFloat s)

/-- The kind that the shape of an unmarked word tells; a line feed at its end
makes no difference. -/
def Tag.ofWord (s : List Char) : Tag :=
  let chars := Text.dropFinalBreak s
  let word := String.ofList chars
  let (signed, rest) := splitSign chars
  if boolWords.contains word then bool
  else if isFloatWord signed rest then float
  else if isWholeWord rest then int
  else if word == "<<" then merge
  else if s.isEmpty || nullWords.contains word then null
  else if isStampWord chars then stamp
  else if word == "=" then standIn
  else text

end Lox.Yaml
