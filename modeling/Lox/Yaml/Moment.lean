/-
Days and moments.

A moment is a day with a time, and it may tell how far that time is ahead of
the universal one.

* `Day`, `Moment` — days and moments, and their texts in a message;
* `Moment.same` — whether two moments are one;
* `Stamp` — a day or a moment as it is written, in range or not;
* `Stamp.read?` — a stamp as a text writes it;
* `Stamp.check` — the first part that is out of range.
-/
namespace Lox.Yaml

/-! ### In range -/

/-- A day of the calendar. -/
structure Day where
  year : Nat
  month : Nat
  day : Nat
  deriving DecidableEq, Repr

/-- A day and a time. -/
structure Moment where
  day : Day
  hour : Nat
  minute : Nat
  second : Nat
  microsecond : Nat
  /-- By how many seconds the time is ahead of the universal one, if told. -/
  ahead : Option Int
  deriving DecidableEq, Repr

/-- The parts of a day. -/
def Day.parts (d : Day) : List Nat :=
  [d.year, d.month, d.day]

/-- Numbers with commas between them. -/
def commaList (parts : List Nat) : String :=
  ", ".intercalate (parts.map toString)

/-- The text of a day in a message. -/
def Day.render (d : Day) : String :=
  "datetime.date(" ++ commaList d.parts ++ ")"

/-- The seconds of a day. -/
def daySeconds : Int := 86400

/-- The text of a length of time, told in seconds. -/
def renderDuration (seconds : Int) : String :=
  let days := Int.fdiv seconds daySeconds
  let rest := Int.fmod seconds daySeconds
  let parts :=
    (if days = 0 then [] else ["days=" ++ toString days])
      ++ (if rest = 0 then [] else ["seconds=" ++ toString rest])
  "datetime.timedelta(" ++ (if parts.isEmpty then "0" else ", ".intercalate parts) ++ ")"

/-- The text of a distance from the universal time. -/
def renderAhead (seconds : Int) : String :=
  if seconds = 0 then "datetime.timezone.utc"
  else "datetime.timezone(" ++ renderDuration seconds ++ ")"

/-- The text of a moment in a message.  Seconds and microseconds are left out
at the end if they are zero. -/
def Moment.render (m : Moment) : String :=
  let tail :=
    if m.microsecond ≠ 0 then [m.second, m.microsecond]
    else if m.second ≠ 0 then [m.second] else []
  "datetime.datetime(" ++ commaList (m.day.parts ++ [m.hour, m.minute] ++ tail)
    ++ (match m.ahead with
        | some seconds => ", tzinfo=" ++ renderAhead seconds
        | none => "")
    ++ ")"

/-! ### As written -/

/-- A time as it is written. -/
structure StampTime where
  hour : Nat
  minute : Nat
  second : Nat
  microsecond : Nat
  ahead : Option Int

/-- A day, and maybe a time, as they are written. -/
structure Stamp where
  day : Day
  time : Option StampTime

/-- Which part of a stamp is out of range. -/
inductive StampError where
  | ahead (seconds : Int)
  | year (n : Nat)
  | month
  | day
  | hour
  | minute
  | second
  deriving DecidableEq, Repr

/-- The text of an error. -/
def StampError.message : StampError → String
  | ahead seconds =>
    "offset must be a timedelta strictly between -timedelta(hours=24) and "
      ++ "timedelta(hours=24), not " ++ renderDuration seconds ++ "."
  | year n => "year " ++ toString n ++ " is out of range"
  | month => "month must be in 1..12"
  | day => "day is out of range for month"
  | hour => "hour must be in 0..23"
  | minute => "minute must be in 0..59"
  | second => "second must be in 0..59"

/-- Whether a year has a day more. -/
def isLeapYear (year : Nat) : Bool :=
  year % 4 == 0 && (year % 100 != 0 || year % 400 == 0)

/-- How many days a month has. -/
def monthLength (year month : Nat) : Nat :=
  if month = 2 then if isLeapYear year then 29 else 28
  else if month = 4 ∨ month = 6 ∨ month = 9 ∨ month = 11 then 30
  else 31

/-- How many days of the calendar come up to a day, and it is one of them. -/
def Day.number (d : Day) : Nat :=
  let years := d.year - 1
  let months := (List.range d.month).drop 1
  365 * years + years / 4 - years / 100 + years / 400
    + (months.map (monthLength d.year)).foldl (· + ·) 0 + d.day

/-- The seconds of a moment by its own clock. -/
def Moment.seconds (m : Moment) : Int :=
  daySeconds * m.day.number + 3600 * m.hour + 60 * m.minute + m.second

/-- Whether two moments are one, though their clocks may differ. -/
def Moment.same (m n : Moment) : Bool :=
  match m.ahead, n.ahead with
  | some a, some b => m.seconds - a == n.seconds - b && m.microsecond == n.microsecond
  | _, _ => m == n

/-- The first part of a day that is out of range. -/
def Day.error? (d : Day) : Option StampError :=
  if d.year = 0 then some (.year d.year)
  else if d.month = 0 ∨ 12 < d.month then some .month
  else if d.day = 0 ∨ monthLength d.year d.month < d.day then some .day
  else none

/-- The first part of a time that is out of range. -/
def StampTime.error? (t : StampTime) : Option StampError :=
  if 23 < t.hour then some .hour
  else if 59 < t.minute then some .minute
  else if 59 < t.second then some .second
  else none

/-- The distance from the universal time, if it is out of range. -/
def StampTime.aheadError? (t : StampTime) : Option StampError :=
  (t.ahead.filter fun seconds => daySeconds ≤ seconds.natAbs).map .ahead

/-- The day or the moment of a stamp, or the part that is out of range. -/
def Stamp.check (s : Stamp) : Except StampError (Day ⊕ Moment) :=
  match s.time with
  | none =>
    match s.day.error? with
    | some e => .error e
    | none => .ok (.inl s.day)
  | some t =>
    match t.aheadError? <|> s.day.error? <|> t.error? with
    | some e => .error e
    | none => .ok (.inr ⟨s.day, t.hour, t.minute, t.second, t.microsecond, t.ahead⟩)

/-! ### Reading -/

/-- Whether a character is an ASCII digit. -/
def isDigit (c : Char) : Bool :=
  '0' ≤ c && c ≤ '9'

/-- The number that ASCII digits denote. -/
def ofDigits (digits : List Char) : Nat :=
  digits.foldl (fun n c => 10 * n + (c.toNat - '0'.toNat)) 0

/-- Between `least` and `most` digits, and what follows them. -/
def digits? (least most : Nat) (s : List Char) : Option (List Char × List Char) :=
  let run := (s.take most).takeWhile isDigit
  if least ≤ run.length then some (run, s.drop run.length) else none

/-- A character, and what follows it. -/
def expect? (c : Char) : List Char → Option (List Char)
  | [] => none
  | d :: rest => if c = d then some rest else none

/-- Whether a character is a space or a tab. -/
def isSpace (c : Char) : Bool :=
  c == ' ' || c == '\t'

/-- How far a time is ahead of the universal one, as the end of a stamp tells
it. -/
def readAhead? (s : List Char) : Option (Option Int) :=
  match s.dropWhile isSpace with
  | [] => if s.isEmpty then some none else none
  | ['Z'] => some (some 0)
  | sign :: rest => do
    if sign ≠ '+' ∧ sign ≠ '-' then none
    let (hours, rest) ← digits? 1 2 rest
    let minutes ← match rest with
      | [] => some []
      | ':' :: rest => match digits? 2 2 rest with
        | some (minutes, []) => some minutes
        | _ => none
      | _ => none
    let seconds := (3600 * ofDigits hours + 60 * ofDigits minutes : Int)
    return some (if sign = '-' then -seconds else seconds)

/-- Digits after a point as microseconds. -/
def microseconds (places : List Char) : Nat :=
  let kept := places.take 6
  ofDigits (kept ++ List.replicate (6 - kept.length) '0')

/-- The time at the end of a stamp. -/
def readTime? (s : List Char) : Option StampTime := do
  let (hour, s) ← digits? 1 2 s
  let s ← expect? ':' s
  let (minute, s) ← digits? 2 2 s
  let s ← expect? ':' s
  let (second, s) ← digits? 2 2 s
  let places := match s with
    | '.' :: rest => rest.takeWhile isDigit
    | _ => []
  let s := match s with
    | '.' :: rest => rest.drop places.length
    | s => s
  let ahead ← readAhead? s
  return ⟨ofDigits hour, ofDigits minute, ofDigits second, microseconds places, ahead⟩

/-- A stamp as a text writes it; its month and its day may have one digit. -/
def Stamp.read? (s : List Char) : Option Stamp := do
  let (year, s) ← digits? 4 4 s
  let s ← expect? '-' s
  let (month, s) ← digits? 1 2 s
  let s ← expect? '-' s
  let (day, s) ← digits? 1 2 s
  let day : Day := ⟨ofDigits year, ofDigits month, ofDigits day⟩
  match s with
  | [] => return ⟨day, none⟩
  | c :: rest =>
    if c = 'T' ∨ c = 't' then return ⟨day, some (← readTime? rest)⟩
    else if isSpace c then return ⟨day, some (← readTime? (rest.dropWhile isSpace))⟩
    else none

/-- Whether a word is a stamp without being marked as one: a day has two digits
for its month and its day, unless a time follows. -/
def isStampWord (s : List Char) : Bool :=
  match Stamp.read? s with
  | some ⟨_, none⟩ => s.length == 10
  | some _ => true
  | none => false

end Lox.Yaml
