import LadderLogic.Json.Argument

/-!
# Clocks

A clock with recorded readings, in seconds. It gives them one after the other, and the last one again
and again; without any it stands at zero. What was recorded may be no reading: that shows when the
clock is read, and the next time the clock goes on.

Source: the clock of a `LadderRunner` that runs in real time (section 2 of the specification).
-/

namespace LadderLogic

/-- What a clock gives when it is read: a number of seconds, or why there is none. -/
inductive Reading where
  | seconds (x : Binary64)
  | failed (cause : Json.ConversionError)
  deriving DecidableEq, Repr

/-- The reading that a value records. -/
def Reading.ofJson (v : Json) : Reading :=
  match v.toReal with
  | .ok x => .seconds x
  | .error e => .failed e

/-- The readings to come, and the last one given. -/
structure Clock where
  upcoming : List Reading := []
  last : Reading := .seconds (.zero false)
  deriving DecidableEq, Repr

namespace Clock

/-- The next reading. -/
def now (c : Clock) : Reading := c.upcoming.headD c.last

/-- The clock after it was read. -/
def advance (c : Clock) : Clock := { upcoming := c.upcoming.tail, last := c.now }

end Clock

/-- The milliseconds between two readings, to the nearest integer, a half to the even one. -/
def milliseconds (before after : Binary64) : Except Binary64.Fault Int :=
  ((after.sub before).times 1000).round

end LadderLogic
