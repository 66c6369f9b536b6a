import LadderLogic.Diagram.Layout
import LadderLogic.Diagram.Power
import LadderLogic.Scan
import LadderLogic.Session.Clock
import LadderLogic.Session.History

/-!
# Sessions

A session runs a program scan after scan. Inputs given between scans are queued and applied at the
start of the next one. The time of a scan is a fixed step, or what the clock says has passed since the
scan before. An operation answers a result or an error, and always the session after it: an error may
leave part of its work behind.

Source: `LadderRunner` and `TimeMode` (sections 2 and 7 of the specification).
-/

namespace LadderLogic

/-- Where the time of a scan comes from. A step that is no integer is fixed too, but no scan that takes
it can be counted. -/
inductive TimeMode where
  | fixedStep
  | fractionalStep
  | realtime
  deriving DecidableEq, Repr

namespace TimeMode

/-- The name of a time mode. -/
def name : TimeMode → Text
  | .fixedStep => "fixed_step"
  | .fractionalStep => "fixed_step"
  | .realtime => "realtime"

end TimeMode

/-- The time of a scan when none is given, in milliseconds. -/
def defaultStep : Int := 100

/-- The most scans of `runUntil` when no number is given. -/
def defaultCycles : Int := 10000

/-- A session. `drawing` is the diagram of the program, once it was asked for, and `lastReading` the
clock when the last scan was timed. -/
structure Session where
  program : Program
  drawing : Option Diagram
  state : State
  history : History
  queuedBits : Table Bool
  queuedRegisters : Table Int
  queuedStrays : Keyed Bool
  mode : TimeMode
  dt : Int
  lastReading : Option Binary64
  clock : Clock
  deriving DecidableEq

namespace Session

/-- Why an operation fails. -/
inductive Fault where
  | history (fault : History.Fault)
  | numeral (fault : Numeral.Fault)
  | reading (fault : Binary64.Fault)
  | input (error : Json.ConversionError)
  | negativeStep
  | unknownMode (shown : Text)
  deriving DecidableEq, Repr

/-- The wording of a fault. -/
def Fault.message : Fault → Text
  | .history fault => fault.message
  | .numeral fault => fault.message
  | .reading fault => fault.message
  | .input error => error.message
  | .negativeStep => "dt_ms must be >= 0"
  | .unknownMode shown => shown ++ " is not a valid TimeMode"

/-- The time mode with a name. -/
def modeOfName (name : Text) : Except Fault TimeMode :=
  if name = TimeMode.fixedStep.name then .ok .fixedStep
  else if name = TimeMode.realtime.name then .ok .realtime
  else .error (.unknownMode (Text.quoted name))

/-- The time mode that a value names. -/
def modeOf : Json → Except Fault TimeMode
  | .str name => modeOfName name
  | v => match v.spelled with
    | .ok shown => .error (.unknownMode shown)
    | .error fault => .error (.numeral fault)

/-- A new session. -/
def start (program : Program) (s : State) (limit : Option Int) (clock : Clock) :
    Except Fault Session :=
  match History.checkLimit limit with
  | .error fault => .error (.history fault)
  | .ok limit => .ok
    { program
      drawing := none
      state := s
      history := .start limit s
      queuedBits := ∅
      queuedRegisters := ∅
      queuedStrays := []
      mode := .fixedStep
      dt := defaultStep
      lastReading := none
      clock }

/-- The session with its diagram drawn. -/
def draw (s : Session) : Session :=
  { s with drawing := some (s.drawing.getD s.program.layout) }

/-- The diagram of the program. It is drawn once for each program. -/
def diagram (s : Session) : Diagram := s.drawing.getD s.program.layout

/-- The terminals of the diagram that have power on them in the current state. -/
def power (s : Session) : Except Diagram.PowerError (List Terminal) :=
  s.diagram.power s.state.bit

/-- Starts over from a state. -/
def reset (s : Session) (state : State) : Session :=
  { s with
    state
    history := s.history.reset state
    queuedBits := ∅
    queuedRegisters := ∅
    queuedStrays := []
    lastReading := none }

/-- Takes another program, and starts over if `restart` says so. -/
def load (s : Session) (program : Program) (restart : Bool) : Session :=
  let s := { s with program, drawing := none }
  if restart then s.reset {} else s

/-- Chooses where the time of a scan comes from. The clock is read when it starts to count; without a
reading the choice is made all the same. -/
def setTimeMode (s : Session) (mode : TimeMode) (dt : Int) : Except Fault Unit × Session :=
  if dt < 0 then (.error .negativeStep, s)
  else
    let s := { s with mode, dt }
    match mode with
    | .realtime =>
      let read := { s with clock := s.clock.advance }
      match s.clock.now with
      | .failed cause => (.error (.input cause), read)
      | .seconds now => (.ok (), { read with lastReading := some now })
    | _ => (.ok (), s)

/-- Chooses where the time of a scan comes from, with a step that may be any value. -/
def setTimeModeIn (s : Session) (mode : TimeMode) (step : Json) : Except Fault Unit × Session :=
  match step, step.integer? with
  | _, some dt => s.setTimeMode mode dt
  | .real x, none =>
    if x.isBelow 0 then (.error .negativeStep, s)
    else s.setTimeMode (if mode = .fixedStep then .fractionalStep else mode) s.dt
  | v, none => (.error (.input (.notOrdered "<" v.kind .int)), s)

/-- Queues bits and registers for the next scan. The bits are queued before the registers are
understood. -/
def enter (s : Session) (bits registers : Json.Fields) : Except Fault Unit × Session :=
  let s := { s with queuedBits := s.queuedBits ∪ Table.ofTruths bits }
  match Table.ofIntegers registers with
  | .error e => (.error (.input e), s)
  | .ok updates => (.ok (), { s with queuedRegisters := s.queuedRegisters ∪ updates })

/-- Queues the other value of a bit, and answers it. A queued value counts before the current one. -/
def toggle (s : Session) (name : Text) : Bool × Session :=
  let b := !s.queuedBits.getD name (s.state.bit name)
  (b, { s with queuedBits := s.queuedBits.insert name b })

/-- Queues the other value of the bit under a key, and answers it. -/
def toggleAt (s : Session) : Key → Bool × Session
  | .name name => s.toggle name
  | .other k =>
    let b := !(s.queuedStrays.find? k).getD (s.state.bitAt (.other k))
    (b, { s with queuedStrays := s.queuedStrays.put k b })

/-- The time of the next scan. In real time the clock is read; a first reading only starts to count,
and one that makes no time is not kept. -/
def scanTime (s : Session) : Except Fault Int × Session :=
  match s.mode with
  | .fixedStep => (.ok s.dt, s)
  | .fractionalStep => (.ok 0, s)
  | .realtime =>
    let read := { s with clock := s.clock.advance }
    match s.clock.now with
    | .failed cause => (.error (.input cause), read)
    | .seconds now =>
      let before := s.lastReading.getD now
      match milliseconds before now with
      | .error fault => (.error (.reading fault), { read with lastReading := some before })
      | .ok dt => (.ok dt, { read with lastReading := some now })

/-- The state with the queued inputs applied. -/
def inputs (s : Session) : State :=
  ((s.state.withBits s.queuedBits).withRegisters s.queuedRegisters).withStrayBits s.queuedStrays

/-- Takes the state after a scan. It is retained if the scan was counted. -/
def accept (s : Session) (next : State) : Except Fault State × Session :=
  if next.scans = s.state.scans then (.ok next, { s with state := next })
  else match s.history.append next with
    | .error fault => (.error (.history fault), s)
    | .ok history => (.ok next, { s with state := next, history })

/-- Runs one scan. The queues are emptied before anything can fail. -/
def step (s : Session) : Except Fault State × Session :=
  let before := s.inputs
  let s := { s with queuedBits := ∅, queuedRegisters := ∅, queuedStrays := [] }
  match s.scanTime with
  | (.error fault, s) => (.error fault, s)
  | (.ok dt, s) =>
    match s.program.scan before dt with
    | .error fault => (.error (.numeral fault), s)
    | .ok next =>
      if s.mode = .fractionalStep && !s.program.isEmpty then
        (.error (.input (.notField "elapsed_ms" .real)), s)
      else s.accept next

/-- Runs a number of scans, up to one that fails. -/
def runCycles (s : Session) : Nat → Except Fault State × Session
  | 0 => (.ok s.state, s)
  | n + 1 =>
    match s.step with
    | (.error fault, s) => (.error fault, s)
    | (.ok _, s) => s.runCycles n

/-- Runs a number of scans. -/
def run (s : Session) (cycles : Int) : Except Fault State × Session := s.runCycles cycles.toNat

/-- Runs scans until the elapsed time is one that `reached` holds of or a scan takes no time, at most
`fuel` scans. -/
def runToward (s : Session) (reached : Int → Bool) : Nat → Except Fault State × Session
  | 0 => (.ok s.state, s)
  | fuel + 1 =>
    if reached s.state.elapsed then (.ok s.state, s)
    else match s.step with
      | (.error fault, s) => (.error fault, s)
      | (.ok _, next) =>
        if next.state.elapsed = s.state.elapsed then (.ok next.state, next)
        else next.runToward reached fuel

/-- Runs until the simulated time has advanced by some milliseconds, or a scan takes no time. A fixed
step takes a millisecond at least or none, and the clock runs out of readings, which bounds the
number of scans. -/
def runFor (s : Session) (ms : Int) : Except Fault State × Session :=
  s.runToward (s.state.elapsed + ms ≤ ·) (ms.toNat + s.clock.upcoming.length + 1)

/-- Runs until the simulated time has advanced by a number of milliseconds that need not be an
integer. The end is the rounded sum, and without a finite end only a scan that takes no time ends the
run. -/
def runForReal (s : Session) (ms : Binary64) : Except Fault State × Session :=
  match Json.nearestReal s.state.elapsed with
  | .error e => (.error (.input e), s)
  | .ok start =>
    let target := start.add ms
    let span := (target.truncate.toOption.getD s.state.elapsed - s.state.elapsed).toNat
    s.runToward (! target.isAbove ·) (span + s.clock.upcoming.length + 2)

/-- Runs until the simulated time has advanced by some time. -/
def runForTime (s : Session) (time : Json) : Except Fault State × Session :=
  match time, time.integer? with
  | _, some ms => s.runFor ms
  | .real ms, none => s.runForReal ms
  | v, none => (.error (.input (.notSummand v.kind)), s)

/-- Runs scans until one leaves a state with a property, at most `n`. -/
def runUntilWithin (s : Session) (holds : State → Bool) : Nat → Except Fault State × Session
  | 0 => (.ok s.state, s)
  | n + 1 =>
    match s.step with
    | (.error fault, s) => (.error fault, s)
    | (.ok state, s) => if holds state then (.ok state, s) else s.runUntilWithin holds n

/-- Runs until a state has a property, or for a number of scans. -/
def runUntil (s : Session) (holds : State → Bool) (cycles : Int) : Except Fault State × Session :=
  s.runUntilWithin holds cycles.toNat

end Session
end LadderLogic
