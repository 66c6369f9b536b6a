import LadderLogic.Device
import LadderLogic.Instruction
import LadderLogic.Operand
import LadderLogic.State

/-!
# Scans

A scan runs a program once over a state. Contacts work on a stack of truths, the branch stack keeps
some of them for later, and coils write to the devices. Later instructions see what earlier ones
wrote; the number of the scan and the elapsed time are counted when all are done. A stack that is
empty reads as false.

Source: `step` (section 4.2 of the specification), with the `ScanContext` that it runs in (section 2).
-/

namespace LadderLogic

/-- A scan in progress: the state that it was started from, a ledger of each kind of devices, both
stacks with their tops first, and the milliseconds credited to timers. -/
structure Scan (β : Type := Bool) (ν : Type := Int) (τ : Type := Int) where
  origin : State β ν
  bits : Ledger β
  registers : Ledger ν
  timers : Ledger ν
  counters : Ledger ν
  edges : Ledger β
  branches : List β := []
  logic : List Bool := []
  dt : τ
  deriving DecidableEq

namespace Scan

/-- The largest count of a counter. -/
def countLimit : Int := 2147483647

section Stores

variable {β ν τ : Type}

/-- The start of a scan, with both stacks empty. -/
def start (s : State β ν) (dt : τ) : Scan β ν τ where
  origin := s
  bits := .opened s.bitBank
  registers := .opened s.registerBank
  timers := .opened s.timerBank
  counters := .opened s.counterBank
  edges := .opened s.edgeBank
  dt := dt

/-- The state that a scan hands out, but for the count of the scan: the state that it was started from
with the banks as they are to be handed out, and with the branch stack. -/
def state (s : Scan β ν τ) : State β ν :=
  { s.origin.withBanks s.bits.updated s.registers.updated s.timers.updated s.counters.updated
      s.edges.updated with
    branches := s.branches }

/-! ## Stacks -/

/-- Pushes a truth on the logic stack. -/
def push (s : Scan β ν τ) (b : Bool) : Scan β ν τ := { s with logic := b :: s.logic }

/-- The top of the logic stack. -/
def peek (s : Scan β ν τ) : Bool := s.logic.headD false

/-- The scan without the top of the logic stack. -/
def drop (s : Scan β ν τ) : Scan β ν τ := { s with logic := s.logic.tail }

/-- Pushes a truth on the branch stack. -/
def pushBranch (s : Scan β ν τ) (b : β) : Scan β ν τ := { s with branches := b :: s.branches }

/-! ## Writes -/

/-- Writes the bit under a key. -/
def setBitAt (s : Scan β ν τ) (k : Key) (b : β) : Scan β ν τ := { s with bits := s.bits.write k b }

/-- Writes the register under a key. -/
def setRegisterAt (s : Scan β ν τ) (k : Key) (n : ν) : Scan β ν τ :=
  { s with registers := s.registers.write k n }

/-- Writes the timer under a key. -/
def setTimerAt (s : Scan β ν τ) (k : Key) (n : ν) : Scan β ν τ :=
  { s with timers := s.timers.write k n }

/-- Writes the counter under a key. -/
def setCounterAt (s : Scan β ν τ) (k : Key) (n : ν) : Scan β ν τ :=
  { s with counters := s.counters.write k n }

/-- Remembers an enable under a key. -/
def setEdgeAt (s : Scan β ν τ) (k : Key) (b : β) : Scan β ν τ := { s with edges := s.edges.write k b }

/-- The scan with its values changed. -/
def map {β' ν' τ' : Type} (f : β → β') (g : ν → ν') (h : τ → τ') (s : Scan β ν τ) : Scan β' ν' τ' where
  origin := s.origin.map f g
  bits := s.bits.map f
  registers := s.registers.map g
  timers := s.timers.map g
  counters := s.counters.map g
  edges := s.edges.map f
  branches := s.branches.map f
  logic := s.logic
  dt := h s.dt

end Stores

/-- The top of the branch stack. -/
def peekBranch (s : Scan) : Bool := s.branches.headD false

/-- The scan without the top of the branch stack. -/
def dropBranch (s : Scan) : Scan := { s with branches := s.branches.tail }

/-- Writes a bit. -/
def setBit (s : Scan) (name : Text) (b : Bool) : Scan := s.setBitAt (.name name) b

/-- Writes a register. -/
def setRegister (s : Scan) (name : Text) (n : Int) : Scan := s.setRegisterAt (.name name) n

/-- Writes a timer. -/
def setTimer (s : Scan) (name : Text) (n : Int) : Scan := s.setTimerAt (.name name) n

/-- Writes a counter. -/
def setCounter (s : Scan) (name : Text) (n : Int) : Scan := s.setCounterAt (.name name) n

/-- Remembers an enable. -/
def setEdge (s : Scan) (name : Text) (b : Bool) : Scan := s.setEdgeAt (.name name) b

/-! ## Reads -/

/-- The value of the bit under a key. -/
def bitAt (s : Scan) (k : Key) : Bool := (s.bits.read? k).getD false

/-- The value of a bit. -/
def bit (s : Scan) (name : Text) : Bool := s.bitAt (.name name)

/-- The value of a register. -/
def register (s : Scan) (name : Text) : Int := (s.registers.read? (.name name)).getD 0

/-- The milliseconds of the timer under a key. -/
def timerAt (s : Scan) (k : Key) : Int := (s.timers.read? k).getD 0

/-- The milliseconds of a timer. -/
def timer (s : Scan) (name : Text) : Int := s.timerAt (.name name)

/-- The count of the counter under a key. -/
def counterAt (s : Scan) (k : Key) : Int := (s.counters.read? k).getD 0

/-- The count of a counter. -/
def counter (s : Scan) (name : Text) : Int := s.counterAt (.name name)

/-- The enable remembered under a key. -/
def edgeAt (s : Scan) (k : Key) : Bool := (s.edges.read? k).getD false

/-- The enable remembered under a name. -/
def edge (s : Scan) (name : Text) : Bool := s.edgeAt (.name name)

/-- Whether an enable goes from off to on, against the one remembered under a key. -/
def risesAt (s : Scan) (k : Key) (enable : Bool) : Bool := enable && !s.edgeAt k

/-- Whether an enable goes from off to on, against the one remembered under a name. -/
def rises (s : Scan) (name : Text) (enable : Bool) : Bool := s.risesAt (.name name) enable

/-- The state after the scan. -/
def commit (s : Scan) : State := s.state.nextScan s.dt

/-! Reads find what is handed out. -/

theorem bit_eq (s : Scan) (name : Text) : s.bit name = s.state.bit name := by
  rw [bit, bitAt, Ledger.read?_eq, State.bit, Std.ExtTreeMap.getD_eq_getD_getElem?]
  rfl

theorem register_eq (s : Scan) (name : Text) : s.register name = s.state.register name := by
  rw [register, Ledger.read?_eq, State.register, Std.ExtTreeMap.getD_eq_getD_getElem?]
  rfl

theorem timer_eq (s : Scan) (name : Text) : s.timer name = s.state.timers.getD name 0 := by
  rw [timer, timerAt, Ledger.read?_eq, Std.ExtTreeMap.getD_eq_getD_getElem?]
  rfl

theorem counter_eq (s : Scan) (name : Text) : s.counter name = s.state.counters.getD name 0 := by
  rw [counter, counterAt, Ledger.read?_eq, Std.ExtTreeMap.getD_eq_getD_getElem?]
  rfl

theorem edge_eq (s : Scan) (name : Text) : s.edge name = s.state.edges.getD name false := by
  rw [edge, edgeAt, Ledger.read?_eq, Std.ExtTreeMap.getD_eq_getD_getElem?]
  rfl

theorem rises_eq (s : Scan) (name : Text) (enable : Bool) :
    s.rises name enable = (enable && !s.state.edges.getD name false) := by
  rw [← edge_eq]
  rfl

theorem rises_iff {s : Scan} {name : Text} {enable : Bool} :
    s.rises name enable = true ↔ enable = true ∧ s.edge name = false := by
  rw [rises, risesAt, edge, Bool.and_eq_true, Bool.not_eq_true']

/-! Writes go to what is handed out. -/

@[simp]
theorem state_setBit (s : Scan) (name : Text) (b : Bool) :
    (s.setBit name b).state = { s.state with bits := s.state.bits.insert name b } := rfl

@[simp]
theorem state_setRegister (s : Scan) (name : Text) (n : Int) :
    (s.setRegister name n).state = { s.state with registers := s.state.registers.insert name n } := rfl

@[simp]
theorem state_setTimer (s : Scan) (name : Text) (n : Int) :
    (s.setTimer name n).state = { s.state with timers := s.state.timers.insert name n } := rfl

@[simp]
theorem state_setCounter (s : Scan) (name : Text) (n : Int) :
    (s.setCounter name n).state = { s.state with counters := s.state.counters.insert name n } := rfl

@[simp]
theorem state_setEdge (s : Scan) (name : Text) (b : Bool) :
    (s.setEdge name b).state = { s.state with edges := s.state.edges.insert name b } := rfl

/-! ## Operations

What an operation does once its operands are known. An operand that has no value fails only where it is
used: `ε` are the causes.
-/

variable {ε : Type}

/-- Runs a contact that finds `found`. It is looked at only if it can change the top of the stack. -/
def contact (s : Scan) (position : Position) (found : Except ε Bool) : Except ε Scan :=
  match position with
  | .start => found.map s.push
  | .series => if s.peek then found.map s.drop.push else .ok (s.drop.push false)
  | .parallel => if s.peek then .ok (s.drop.push true) else found.map s.drop.push

/-- Joins the two tops of the stack. -/
def block (s : Scan) : Join → Scan
  | .parallel => s.drop.drop.push (s.peek || s.drop.peek)
  | .series => s.drop.drop.push (s.peek && s.drop.peek)

/-- Runs an operation on the branch stack. -/
def branch (s : Scan) : Branch → Scan
  | .push => s.pushBranch s.peek
  | .read => s.push s.peekBranch
  | .pop => s.dropBranch.push s.peekBranch

/-- Drives a timer: while it is enabled the time of the scan is added, and it is done from its preset
on. -/
def outTimer (s : Scan) (name : Text) (preset : Except ε Int) : Except ε Scan :=
  if s.peek then
    let elapsed := s.timer name + s.dt
    preset.map fun units =>
      (s.setTimer name elapsed).setBit name (units * Operand.presetUnit ≤ elapsed)
  else .ok ((s.setTimer name 0).setBit name false)

/-- Drives a counter: it counts each rise of its enable, and its bit is set from its preset on. -/
def outCounter (s : Scan) (name : Text) (preset : Except ε Int) : Except ε Scan :=
  let seen := s.setEdge name s.peek
  if s.rises name s.peek then
    let count := min (s.counter name + 1) countLimit
    let counted := seen.setCounter name count
    preset.map fun n => if n ≤ count then counted.setBit name true else counted
  else .ok seen

/-- Runs an output coil. -/
def out (s : Scan) (name : Text) (preset : Except ε Int) : Except ε Scan :=
  match Family.ofName name with
  | .timer => s.outTimer name preset
  | .counter => s.outCounter name preset
  | _ => .ok (s.setBit name s.peek)

/-- A contact hands on the cause for which its test fails. -/
theorem contact_mapError {δ : Type} (s : Scan) (position : Position) (found : Except ε Bool)
    (f : ε → δ) : s.contact position (found.mapError f) = (s.contact position found).mapError f := by
  cases position with
  | start => cases found <;> rfl
  | series =>
    simp only [contact]
    split
    · cases found <;> rfl
    · rfl
  | parallel =>
    simp only [contact]
    split
    · rfl
    · cases found <;> rfl

theorem outTimer_mapError {δ : Type} (s : Scan) (name : Text) (preset : Except ε Int) (f : ε → δ) :
    s.outTimer name (preset.mapError f) = (s.outTimer name preset).mapError f := by
  unfold outTimer
  split
  · cases preset <;> rfl
  · rfl

theorem outCounter_mapError {δ : Type} (s : Scan) (name : Text) (preset : Except ε Int) (f : ε → δ) :
    s.outCounter name (preset.mapError f) = (s.outCounter name preset).mapError f := by
  unfold outCounter
  by_cases h : s.rises name s.peek = true
  · simp only [h]
    cases preset <;> rfl
  · simp only [h]
    rfl

/-- An output coil hands on the cause for which its preset fails. -/
theorem out_mapError {δ : Type} (s : Scan) (name : Text) (preset : Except ε Int) (f : ε → δ) :
    s.out name (preset.mapError f) = (s.out name preset).mapError f := by
  unfold out
  split
  · exact outTimer_mapError s name preset f
  · exact outCounter_mapError s name preset f
  · rfl

/-- Runs a reset coil that is enabled. -/
def reset (s : Scan) (name : Text) : Scan :=
  match Family.ofName name with
  | .timer => (s.setTimer name 0).setBit name false
  | .counter => ((s.setCounter name 0).setBit name false).setEdge name false
  | .data => s.setRegister name 0
  | .bit => s.setBit name false

/-! ## Instructions -/

/-- The value of an operand. -/
def resolve (s : Scan) (token : Text) : Except Numeral.Fault Int :=
  Operand.resolve s.register token

/-- What a contact finds. -/
def test (s : Scan) (i : Instruction) : Test → Except Numeral.Fault Bool
  | .on => .ok (s.bit i.value)
  | .off => .ok (!s.bit i.value)
  | .equal => do
    let left ← s.resolve i.value
    let right ← s.resolve (i.arg 1 ['0'])
    return left == right

/-- Moves the first operand to the second, if there are two. -/
def move (s : Scan) (i : Instruction) : Except Numeral.Fault Scan :=
  match i.args with
  | source :: target :: _ => (s.resolve source).map (s.setRegister target)
  | _ => .ok s

/-- Moves on a rise of the enable. -/
def movePulse (s : Scan) (i : Instruction) : Except Numeral.Fault Scan := do
  let key ← Instruction.pulseKey i.id
  let seen := s.setEdge key s.peek
  if s.rises key s.peek then seen.move i else return seen

/-- Runs a coil. -/
def coil (s : Scan) (i : Instruction) : Coil → Except Numeral.Fault Scan
  | .out => s.out i.value (s.resolve (i.arg 1 []))
  | .set => .ok (if s.peek then s.setBit i.value true else s)
  | .reset => .ok (if s.peek then s.reset i.value else s)
  | .move => if s.peek then s.move i else .ok s
  | .movePulse => s.movePulse i

/-- Runs an instruction. One whose operation is unknown does nothing. -/
def exec (s : Scan) (i : Instruction) : Except Numeral.Fault Scan :=
  match i.operation with
  | .known (.contact position t) => s.contact position (s.test i t)
  | .known (.block join) => .ok (s.block join)
  | .known (.branch b) => .ok (s.branch b)
  | .known (.coil c) => s.coil i c
  | .unknown _ => .ok s

/-- Runs the instructions of a program in order. -/
def run (s : Scan) : Program → Except Numeral.Fault Scan
  | [] => .ok s
  | i :: rest =>
    match s.exec i with
    | .ok next => next.run rest
    | .error fault => .error fault

end Scan

namespace Program

/-- Scans a state once. An empty program leaves the state as it is, and counts no scan. -/
def scan (program : Program) (s : State) (dt : Int) : Except Numeral.Fault State :=
  if program.isEmpty then .ok s else ((Scan.start s dt).run program).map Scan.commit

/-- Runs the instructions of a program in order, up to one that drives a timer which is enabled. -/
def runUntimed (s : Scan) (untimed : Json.ConversionError) :
    Program → Except Json.ConversionError Scan
  | [] => .ok s
  | i :: rest =>
    if i.operation = .known (.coil .out) && Family.ofName i.value = .timer && s.peek then
      .error untimed
    else
      match s.exec i with
      | .ok next => runUntimed next untimed rest
      | .error fault => .error (.numeral fault)

/-- The end of a scan whose time cannot be counted. -/
def uncounted (program : Program) (s : State) (run : Except Json.ConversionError Scan)
    (cause : Json.ConversionError) : Except Json.ConversionError State :=
  if program.isEmpty then .ok s
  else
    match run with
    | .error e => .error e
    | .ok _ => .error cause

/-- Scans a state once in a time that may be any value. A number that is no integer cannot be counted
at the end of the scan, and what is no number already where a timer adds it. -/
def scanIn (program : Program) (s : State) (time : Json) : Except Json.ConversionError State :=
  match time, time.integer? with
  | _, some dt => (program.scan s dt).mapError .numeral
  | .real _, none =>
    program.uncounted s (((Scan.start s 0).run program).mapError .numeral)
      (.notField "elapsed_ms" .real)
  | v, none =>
    program.uncounted s (runUntimed (Scan.start s 0) (.notSummand v.kind) program)
      (.notSummand v.kind)

end Program
end LadderLogic
