import LadderLogic.Json.Argument

/-!
# Date stamps

A date with its time of day, and how far its zone is east of universal time if it has one. The text
has the fraction of the second only if it is not zero, and the seconds of the zone likewise. The years
go from 1 to 9999, and a zone lies less than a day from universal time.

The parts of a stamp are words of 32 bits. So a part that does not fit into a word is refused for its
size, before anything is asked about its place in a year or a day.

Source: the date that `dump_project` writes (section 6 of the specification).
-/

namespace LadderLogic

/-- A date with its time of day. The offset of its zone is in microseconds. -/
structure Stamp where
  year : Nat
  month : Nat
  day : Nat
  hour : Nat := 0
  minute : Nat := 0
  second : Nat := 0
  microsecond : Nat := 0
  offset : Option Int := some 0
  deriving DecidableEq, Repr

namespace Stamp

/-! ## Faults -/

/-- Whether an integer is a signed word of `bits` bits. -/
def fits (bits : Nat) (n : Int) : Bool :=
  -(Nat.pow 2 (bits - 1) : Nat) ≤ n && n < (Nat.pow 2 (bits - 1) : Nat)

/-- The bits of a part. -/
def partBits : Nat := 32

/-- The bits of the longest integer that is told to be above or below the words of a part. -/
def longBits : Nat := 64

/-- The most days in a span of time. -/
def spanLimit : Int := 999999999

/-- Why some values are no stamp. -/
inductive Fault where
  /-- The part at a place, counted from 1, is not there. -/
  | missing (name : String) (place : Nat)
  /-- A zone stands among the parts, though it is given apart. -/
  | zoneTwice
  /-- There are too many parts, the zone counted with them. -/
  | tooMany (given : Nat)
  /-- A part does not fit into a word. -/
  | beyondWord (n : Int)
  /-- A part is no integer, or the zone is not finite. -/
  | input (error : Json.ConversionError)
  /-- A value of this kind is no zone. -/
  | notZone (kind : Json.Kind)
  /-- The zone has too many days to be a span of time. -/
  | spanDays (days : Int)
  /-- The zone is a day or more from universal time. -/
  | offset (microseconds : Int)
  | year (n : Int)
  | day
  /-- A part is not one from `first` to `last`. -/
  | outside (name : String) (first last : Nat)
  deriving DecidableEq, Repr

/-- The microseconds of a second. -/
def perSecond : Int := 1000000

/-- The microseconds of a day. -/
def perDay : Int := 86400 * perSecond

/-- A span of time in a message: its days, the seconds of a day and the microseconds of a second, as
far as they are not zero. -/
def spanText (microseconds : Int) : Text :=
  let days := microseconds / perDay
  let seconds := microseconds % perDay / perSecond
  let rest := microseconds % perSecond
  let parts := [("days", days), ("seconds", seconds), ("microseconds", rest)].filter (·.2 ≠ 0)
  let shown : List Text := if parts.isEmpty then ["0"] else parts.map fun (name, n) => s!"{name}={n}"
  "datetime.timedelta(" ++ Json.commaSeparated shown ++ ")"

/-- The wording of a fault. -/
def Fault.message : Fault → Text
  | .missing name place => s!"function missing required argument '{name}' (pos {place})"
  | .zoneTwice => "argument for function given by name ('tzinfo') and position (8)"
  | .tooMany given => s!"function takes at most 9 arguments ({given} given)"
  | .beyondWord n =>
    if !fits longBits n then "Python int too large to convert to C long"
    else if n < 0 then "signed integer is less than minimum"
    else "signed integer is greater than maximum"
  | .input error => error.message
  | .notZone kind => "unsupported type for timedelta seconds component: " ++ kind.name
  | .spanDays days =>
    if !fits partBits days then "Python int too large to convert to C int"
    else s!"days={days}; must have magnitude <= {spanLimit}"
  | .offset microseconds =>
    "offset must be a timedelta strictly between -timedelta(hours=24) and timedelta(hours=24), not " ++
      spanText microseconds ++ "."
  | .year n => s!"year {n} is out of range"
  | .day => "day is out of range for month"
  | .outside name first last => s!"{name} must be in {first}..{last}"

/-! ## Checks -/

/-- Whether a year has a leap day. -/
def isLeap (year : Nat) : Bool := year % 4 == 0 && (year % 100 != 0 || year % 400 == 0)

/-- The number of days in a month. -/
def daysIn (year month : Nat) : Nat :=
  if month = 2 then if isLeap year then 29 else 28
  else if month = 4 || month = 6 || month = 9 || month = 11 then 30
  else 31

/-- The part of a stamp at a place, if it is one from `first` to `last`. -/
def part (parts : List Int) (place : Nat) (name : String) (first last : Nat) : Except Fault Nat :=
  let n := parts.getD place first
  if first ≤ n && n ≤ last then .ok n.toNat else .error (.outside name first last)

/-- The offset of a zone that is given in microseconds. -/
def checkOffset (microseconds : Int) : Except Fault Int :=
  let days := microseconds / perDay
  if spanLimit < days.natAbs then .error (.spanDays days)
  else if -perDay < microseconds && microseconds < perDay then .ok microseconds
  else .error (.offset microseconds)

/-- The stamp with the given parts, from the year to the microsecond, and the offset of its zone in
microseconds. A time that is not given is zero. -/
def ofParts (parts : List Int) (offset : Option Int) : Except Fault Stamp := do
  if parts.length < 1 then throw (.missing "year" 1)
  if parts.length < 2 then throw (.missing "month" 2)
  if parts.length < 3 then throw (.missing "day" 3)
  let year := parts.getD 0 0
  if !(1 ≤ year && year ≤ 9999) then throw (.year year)
  let month ← part parts 1 "month" 1 12
  let day := parts.getD 2 0
  if !(1 ≤ day && day ≤ daysIn year.toNat month) then throw .day
  return {
    year := year.toNat
    month
    day := day.toNat
    hour := ← part parts 3 "hour" 0 23
    minute := ← part parts 4 "minute" 0 59
    second := ← part parts 5 "second" 0 59
    microsecond := ← part parts 6 "microsecond" 0 999999
    offset }

/-! ## Values -/

/-- The microseconds of a number of seconds, to the nearest one, a half to the even one. -/
def microseconds (seconds : Binary64) : Except Binary64.Fault Int := do
  let whole ← seconds.truncate
  let rest ← ((seconds.sub (.ofInt whole)).times perSecond.toNat).round
  return whole * perSecond + rest

/-- The offset of the zone that a value gives in seconds. Null is no zone. -/
def zoneOf : Json → Except Fault (Option Int)
  | .null => .ok none
  | .real x =>
    match microseconds x with
    | .error fault => .error (.input (.number fault))
    | .ok n => (checkOffset n).map some
  | v =>
    match v.integer? with
    | some n => (checkOffset (n * perSecond)).map some
    | none => .error (.notZone v.kind)

/-- The parts that some values are. The first that is no integer, or does not fit into a word, decides
the fault. -/
def partsOf : List Json → Except Fault (List Int)
  | [] => .ok []
  | v :: rest =>
    match v.count with
    | .error e => .error (.input e)
    | .ok n => if fits partBits n then (partsOf rest).map (n :: ·) else .error (.beyondWord n)

/-- The stamp with the given parts and zone. The zone is looked at first, then the number of parts,
and then the parts from left to right. -/
def ofValues (parts : List Json) (zone : Json) : Except Fault Stamp := do
  let offset ← zoneOf zone
  if 8 < parts.length then throw (.tooMany (parts.length + 1))
  let found ← partsOf (parts.take 7)
  if 7 < parts.length then throw .zoneTwice
  ofParts found offset

/-! ## Text -/

/-- A number with zeros in front, up to a width. -/
def padded (width n : Nat) : Text :=
  let digits := Text.ofString (Nat.repr n)
  List.replicate (width - digits.length) (.char '0') ++ digits

/-- The text of an offset in microseconds. -/
def offsetText (offset : Int) : Text :=
  let rest := offset.natAbs % perSecond.toNat
  let n := offset.natAbs / perSecond.toNat
  let fraction : Text := if rest = 0 then [] else '.' :: padded 6 rest
  let seconds : Text := if n % 60 = 0 && rest = 0 then [] else ':' :: (padded 2 (n % 60) ++ fraction)
  let sign : CodePoint := if offset < 0 then '-' else '+'
  sign :: (padded 2 (n / 3600) ++ .char ':' :: (padded 2 (n / 60 % 60) ++ seconds))

/-- The text of a stamp. -/
def text (s : Stamp) : Text :=
  padded 4 s.year ++ "-" ++ padded 2 s.month ++ "-" ++ padded 2 s.day ++ "T" ++ padded 2 s.hour ++
    ":" ++ padded 2 s.minute ++ ":" ++ padded 2 s.second ++
    (if s.microsecond = 0 then [] else .char '.' :: padded 6 s.microsecond) ++
    (s.offset.map offsetText).getD []

end Stamp
end LadderLogic
