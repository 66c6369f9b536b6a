import LadderLogic.Proofs.Agreement
import LadderLogic.Proofs.Independence
import LadderLogic.Proofs.Turns
import LadderLogic.Sample

/-!
# The step sequencer

A scan of the sequencer works on a few devices only (`Panel`), and each of its rungs makes of them what
a function says (`Panel.clear` and the others), whatever else is in the state. Between two scans the
devices are settled: the lamps show the step, and a pulse move that is still to come remembers no enable,
so that nothing holds it back. A settled panel is left settled by every scan, and its step goes on as the
inputs call for it, also twice in one scan (`Settled.scan`). From there the steps of a whole history of
inputs are known (`step_ne_zero_iff`, `step_eq_twenty_iff`).

Source: `state_machine_program` (section 1 of the specification).
-/

namespace LadderLogic
namespace Sample

/-! ## Rungs -/

/-- An instruction on one bit. -/
def onBit (id : Int) (opcode : Opcode) (name : Text) : Instruction := ⟨id, .known opcode, name, [name]⟩

/-- The contact that compares the step with a literal. -/
def atStep (id : Int) (literal : Text) : Instruction :=
  ⟨id, .known (.contact .start .equal), "iStep", ["iStep", literal]⟩

/-- The pulse move of a literal to the step. -/
def goTo (id : Int) (literal : Text) : Instruction :=
  ⟨id, .known (.coil .movePulse), literal, [literal, "iStep"]⟩

/-- The rung that clears the step once. -/
def clearRung : Program :=
  [onBit 1 (.contact .start .off) "M0"] ++ ([goTo 2 "K0"] ++ [onBit 3 (.coil .set) "M0"])

/-- The rung that waits for the start button in step 0. -/
def startRung : Program :=
  [atStep 4 "K0"] ++ ([onBit 5 (.contact .series .on) "X0"] ++ [goTo 6 "K10"])

/-- The rung of the lamp in step 10. -/
def lampRung : Program := [atStep 7 "K10"] ++ [onBit 8 (.coil .set) "Y0"]

/-- The rung that waits for the sensor in step 10. -/
def sensorRung : Program :=
  [atStep 9 "K10"] ++ ([onBit 10 (.contact .series .on) "X1"] ++ [goTo 11 "K20"])

/-- The rung of the lamps in step 20. -/
def doneRung : Program :=
  [atStep 12 "K20"] ++ ([onBit 13 (.coil .reset) "Y0"] ++ [onBit 14 (.coil .set) "Y1"])

theorem sequencer_eq :
    sequencer = clearRung ++ (startRung ++ (lampRung ++ (sensorRung ++ doneRung))) := by
  decide +kernel

/-! ## The devices of the sequencer -/

/-- The devices that the sequencer works on: its flag `M0`, the lamps `Y0` and `Y1`, the inputs `X0` and
`X1`, the step, and the enables that its three pulse moves remember. -/
structure Panel where
  ready : Bool
  lamp : Bool
  done : Bool
  start : Bool
  sensor : Bool
  step : Int
  cleared : Bool
  started : Bool
  sensed : Bool

namespace Panel

/-- The devices of the sequencer in a state. -/
def ofState (s : State) : Panel where
  ready := s.bit "M0"
  lamp := s.bit "Y0"
  done := s.bit "Y1"
  start := s.bit "X0"
  sensor := s.bit "X1"
  step := s.register "iStep"
  cleared := s.edges.getD "MOVP:2" false
  started := s.edges.getD "MOVP:6" false
  sensed := s.edges.getD "MOVP:11" false

/-- The panel with a bit written. -/
def write (q : Panel) (name : Text) (b : Bool) : Panel :=
  { q with
    ready := if name = Text.ofString "M0" then b else q.ready
    lamp := if name = Text.ofString "Y0" then b else q.lamp
    done := if name = Text.ofString "Y1" then b else q.done
    start := if name = Text.ofString "X0" then b else q.start
    sensor := if name = Text.ofString "X1" then b else q.sensor }

/-- The panel with an enable remembered. -/
def remember (q : Panel) (name : Text) (b : Bool) : Panel :=
  { q with
    cleared := if name = Text.ofString "MOVP:2" then b else q.cleared
    started := if name = Text.ofString "MOVP:6" then b else q.started
    sensed := if name = Text.ofString "MOVP:11" then b else q.sensed }

theorem ofState_setBit (u : Scan) (name : Text) (b : Bool) :
    ofState (u.setBit name b).state = (ofState u.state).write name b := by
  simp [ofState, write, State.bit, State.register, Std.ExtTreeMap.getD_insert]

theorem ofState_setEdge (u : Scan) (name : Text) (b : Bool) :
    ofState (u.setEdge name b).state = (ofState u.state).remember name b := by
  simp [ofState, remember, State.bit, State.register, Std.ExtTreeMap.getD_insert]

theorem ofState_setStep (u : Scan) (n : Int) :
    ofState (u.setRegister "iStep" n).state = { ofState u.state with step := n } := by
  simp [ofState, State.bit, State.register]

/-- A scan in progress has a truth on top of its logic stack and the devices of a panel. -/
def Shows (u : Scan) (on : Bool) (q : Panel) : Prop := u.peek = on ∧ ofState u.state = q

/-- A program runs without a fault, and leads from a truth on top of the stack and a panel to others. -/
def Leads (program : Program) (on : Bool) (q : Panel) (on' : Bool) (q' : Panel) : Prop :=
  ∀ u : Scan, Shows u on q → ∃ v, u.run program = .ok v ∧ Shows v on' q'

variable {on on' on'' : Bool} {q q' q'' : Panel}

theorem Leads.append {program rest : Program} (h : Leads program on q on' q')
    (hrest : Leads rest on' q' on'' q'') : Leads (program ++ rest) on q on'' q'' := by
  intro u hu
  obtain ⟨v, hv, hshows⟩ := h u hu
  rw [Scan.run_append_of_ok hv]
  exact hrest v hshows

theorem leads_of_exec {i : Instruction}
    (h : ∀ u, Shows u on q → ∃ v, u.exec i = .ok v ∧ Shows v on' q') : Leads [i] on q on' q' := by
  intro u hu
  obtain ⟨v, hv, hshows⟩ := h u hu
  refine ⟨v, ?_, hshows⟩
  rw [Scan.run, hv]
  rfl

/-! ## Instructions -/

theorem leads_atStep (id : Int) {literal : Text} {n : Int}
    (hn : ∀ u : Scan, u.resolve literal = .ok n) :
    Leads [atStep id literal] on q (q.step == n) q := by
  refine leads_of_exec ?_
  rintro u ⟨-, rfl⟩
  refine ⟨u.push (u.register "iStep" == n), ?_, congrArg (· == n) (u.register_eq "iStep"), rfl⟩
  have htest : u.test (atStep id literal) .equal = .ok (u.register "iStep" == n) := by
    show (u.resolve literal).bind (fun right => .ok (u.register "iStep" == right)) = _
    rw [hn]
    rfl
  show u.contact .start (u.test (atStep id literal) .equal) = _
  rw [htest]
  rfl

theorem leads_off (id : Int) {name : Text} {b : Bool} (hb : ∀ s, ofState s = q → s.bit name = b) :
    Leads [onBit id (.contact .start .off) name] on q (!b) q := by
  refine leads_of_exec ?_
  rintro u ⟨-, hq⟩
  refine ⟨u.push (!u.bit name), rfl, ?_, hq⟩
  exact congrArg (!·) ((u.bit_eq name).trans (hb u.state hq))

theorem leads_series (id : Int) {name : Text} {b : Bool} (hb : ∀ s, ofState s = q → s.bit name = b) :
    Leads [onBit id (.contact .series .on) name] on q (on && b) q := by
  refine leads_of_exec ?_
  rintro u ⟨hon, hq⟩
  refine ⟨u.drop.push (u.peek && u.bit name), Scan.contact_ok u .series (u.bit name), ?_, hq⟩
  exact congrArg₂ and hon ((u.bit_eq name).trans (hb u.state hq))

/-- A coil that writes a bit if it is enabled. -/
theorem leads_latch {i : Instruction} {name : Text} {b : Bool}
    (hexec : ∀ u : Scan, u.exec i = .ok (if u.peek then u.setBit name b else u)) :
    Leads [i] on q on (if on then q.write name b else q) := by
  refine leads_of_exec ?_
  rintro u ⟨hon, rfl⟩
  refine ⟨_, hexec u, ?_⟩
  rw [hon]
  cases on with
  | true => exact ⟨hon, ofState_setBit u name b⟩
  | false => exact ⟨hon, rfl⟩

theorem leads_set (id : Int) (name : Text) :
    Leads [onBit id (.coil .set) name] on q on (if on then q.write name true else q) :=
  leads_latch fun _ => rfl

theorem leads_reset (id : Int) {name : Text} (hf : Family.ofName name = .bit) :
    Leads [onBit id (.coil .reset) name] on q on (if on then q.write name false else q) := by
  refine leads_latch fun u => ?_
  have hreset : u.reset name = u.setBit name false := by rw [Scan.reset, hf]
  rw [← hreset]
  rfl

/-- A pulse move that has seen the enable `seen` before. -/
theorem leads_goTo {id n : Int} {literal key : Text} {seen : Bool}
    (hkey : Instruction.pulseKey id = .ok key) (hn : ∀ u : Scan, u.resolve literal = .ok n)
    (hseen : ∀ s, ofState s = q → s.edges.getD key false = seen) :
    Leads [goTo id literal] on q on
      { q.remember key on with step := if on && !seen then n else q.step } := by
  refine leads_of_exec ?_
  rintro u ⟨hon, rfl⟩
  have hrises : u.rises key on = (on && !seen) := by
    rw [← hseen u.state rfl, Scan.rises_eq]
  have hmove : (u.setEdge key on).move (goTo id literal) =
      .ok ((u.setEdge key on).setRegister "iStep" n) := by
    show ((u.setEdge key on).resolve literal).map ((u.setEdge key on).setRegister "iStep") = _
    rw [hn]
    rfl
  have hexec : u.exec (goTo id literal) =
      if on && !seen then .ok ((u.setEdge key on).setRegister "iStep" n) else .ok (u.setEdge key on) := by
    show (Instruction.pulseKey id).bind (fun key => if u.rises key u.peek then
      (u.setEdge key u.peek).move (goTo id literal) else .ok (u.setEdge key u.peek)) = _
    rw [hkey, Except.bind, hon, hrises, hmove]
  rw [hexec]
  split
  · exact ⟨_, rfl, hon, by rw [ofState_setStep, ofState_setEdge]⟩
  · exact ⟨_, rfl, hon, ofState_setEdge u key on⟩

/-! ## What the rungs make of the devices -/

/-- The panel after the rung that clears the step. -/
def clear (q : Panel) : Panel :=
  let on := !q.ready
  let moved := { q with step := if on && !q.cleared then 0 else q.step, cleared := on }
  if on then { moved with ready := true } else moved

/-- The panel after the rung that waits for the start button. -/
def awaitStart (q : Panel) : Panel :=
  let on := q.step == 0 && q.start
  { q with step := if on && !q.started then 10 else q.step, started := on }

/-- The panel after the rung of the lamp. -/
def light (q : Panel) : Panel := if q.step == 10 then { q with lamp := true } else q

/-- The panel after the rung that waits for the sensor. -/
def awaitSensor (q : Panel) : Panel :=
  let on := q.step == 10 && q.sensor
  { q with step := if on && !q.sensed then 20 else q.step, sensed := on }

/-- The panel after the rung of the last step. -/
def finish (q : Panel) : Panel :=
  let on := q.step == 20
  let dark := if on then { q with lamp := false } else q
  if on then { dark with done := true } else dark

/-- The panel after a scan. -/
def scan (q : Panel) : Panel := q.clear.awaitStart.light.awaitSensor.finish

theorem resolve_literals (u : Scan) :
    u.resolve "K0" = .ok 0 ∧ u.resolve "K10" = .ok 10 ∧ u.resolve "K20" = .ok 20 :=
  ⟨rfl, rfl, rfl⟩

theorem leads_clearRung (on : Bool) (q : Panel) : Leads clearRung on q (!q.ready) q.clear :=
  (leads_off 1 fun _ => congrArg ready).append
    ((leads_goTo rfl (fun u => (resolve_literals u).1) fun _ => congrArg cleared).append
      (leads_set 3 "M0"))

theorem leads_startRung (on : Bool) (q : Panel) :
    Leads startRung on q (q.step == 0 && q.start) q.awaitStart :=
  (leads_atStep 4 fun u => (resolve_literals u).1).append
    ((leads_series 5 fun _ => congrArg start).append
      (leads_goTo rfl (fun u => (resolve_literals u).2.1) fun _ => congrArg started))

theorem leads_lampRung (on : Bool) (q : Panel) : Leads lampRung on q (q.step == 10) q.light :=
  (leads_atStep 7 fun u => (resolve_literals u).2.1).append (leads_set 8 "Y0")

theorem leads_sensorRung (on : Bool) (q : Panel) :
    Leads sensorRung on q (q.step == 10 && q.sensor) q.awaitSensor :=
  (leads_atStep 9 fun u => (resolve_literals u).2.1).append
    ((leads_series 10 fun _ => congrArg sensor).append
      (leads_goTo rfl (fun u => (resolve_literals u).2.2) fun _ => congrArg sensed))

theorem leads_doneRung (on : Bool) (q : Panel) : Leads doneRung on q (q.step == 20) q.finish :=
  (leads_atStep 12 fun u => (resolve_literals u).2.2).append
    ((leads_reset 13 rfl).append (leads_set 14 "Y1"))

/-- A scan of the sequencer never fails, and makes of its devices what its rungs make of them. -/
theorem exists_scan_sequencer (s : State) (dt : Int) :
    ∃ t, sequencer.scan s dt = .ok t ∧ ofState t = (ofState s).scan := by
  have hleads := (leads_clearRung false (ofState s)).append ((leads_startRung _ _).append
    ((leads_lampRung _ _).append ((leads_sensorRung _ _).append (leads_doneRung _ _))))
  rw [← sequencer_eq] at hleads
  obtain ⟨v, hv, -, hpanel⟩ := hleads (Scan.start s dt) ⟨rfl, rfl⟩
  refine ⟨v.commit, ?_, hpanel⟩
  have hne : sequencer.isEmpty = false := by
    rw [sequencer_eq]
    rfl
  rw [Program.scan, hne, hv]
  rfl

/-! ## Steps -/

/-- The step after a scan that begins in a step, with the inputs `start` and `sensor`. -/
def nextStep (step : Int) (start sensor : Bool) : Int :=
  if step = 0 then if start then if sensor then 20 else 10 else 0
  else if sensor then 20 else step

/-- The devices between two scans: the flag is set once a step has been taken, the lamps show the step,
and no pulse that is still to come remembers an enable. -/
structure Settled (q : Panel) : Prop where
  step : q.step = 0 ∨ q.step = 10 ∨ q.step = 20
  ready : q.step ≠ 0 → q.ready = true
  lamp : q.lamp = true ↔ q.step = 10
  done : q.done = true ↔ q.step = 20
  started : q.step = 0 → q.started = false
  sensed : q.step ≠ 20 → q.sensed = false

theorem le_nextStep {step : Int} (h : step = 0 ∨ step = 10 ∨ step = 20) (start sensor : Bool) :
    step ≤ nextStep step start sensor := by
  unfold nextStep
  grind

theorem settled_empty : (ofState {}).Settled where
  step := .inl rfl
  ready := fun h => absurd rfl h
  lamp := by decide
  done := by decide
  started := fun _ => rfl
  sensed := fun _ => rfl

namespace Settled

/-- The step is cleared where it is 0 anyway. -/
theorem clear_eq (h : q.Settled) : q.clear = { q with ready := true, cleared := !q.ready } := by
  have hready := h.ready
  rcases q with ⟨ready, _, _, _, _, step, _⟩
  cases ready with
  | true => rfl
  | false =>
    obtain rfl : step = 0 := by simpa using hready
    simp [Panel.clear]

/-- The start button takes the step from 0 to 10, and turns the lamp on. -/
theorem start_eq (h : q.Settled) :
    q.awaitStart.light = if q.step = 0 ∧ q.start = true then
      { q with step := 10, started := true, lamp := true } else { q with started := false } := by
  obtain ⟨hstep, -, hlamp, -, hstarted, -⟩ := h
  rcases q with ⟨_, lamp, _, start, _, step, _, started, _⟩
  dsimp only at *
  rcases hstep with rfl | rfl | rfl
  · cases start <;> simp_all [awaitStart, light]
  · simp_all [awaitStart, light]
  · simp [awaitStart, light]

/-- The sensor takes the step from 10 to 20, and turns the lamp off and the other one on. -/
theorem finish_eq (h : q.Settled) :
    q.awaitSensor.finish = if q.step = 10 ∧ q.sensor = true then
      { q with step := 20, sensed := true, lamp := false, done := true } else { q with sensed := false } := by
  obtain ⟨hstep, -, hlamp, hdone, -, hsensed⟩ := h
  rcases q with ⟨_, lamp, done, _, sensor, step, _, _, sensed⟩
  dsimp only at *
  rcases hstep with rfl | rfl | rfl
  · simp_all [awaitSensor, finish]
  · cases sensor <;> simp_all [awaitSensor, finish]
  · simp_all [awaitSensor, finish]

theorem clear (h : q.Settled) : q.clear.Settled ∧ q.clear.ready = true := by
  rw [h.clear_eq]
  exact ⟨⟨h.step, fun _ => rfl, h.lamp, h.done, h.started, h.sensed⟩, rfl⟩

theorem start (h : q.Settled) (hready : q.ready = true) : q.awaitStart.light.Settled := by
  have hlamp := h.lamp
  have hdone := h.done
  rw [h.start_eq]
  split
  · next hstart =>
    refine ⟨.inr (.inl rfl), fun _ => hready, by simp, ?_, by simp, fun _ => h.sensed ?_⟩
    · simpa [hstart.1] using hdone
    · rw [hstart.1]
      decide
  · exact ⟨h.step, fun _ => hready, hlamp, hdone, fun _ => rfl, h.sensed⟩

theorem finish (h : q.Settled) (hready : q.ready = true) : q.awaitSensor.finish.Settled := by
  rw [h.finish_eq]
  split
  · exact ⟨.inr (.inr rfl), fun _ => hready, by simp, by simp, by simp, by simp⟩
  · exact ⟨h.step, fun _ => hready, h.lamp, h.done, h.started, fun _ => rfl⟩

/-- A scan leaves the devices settled, and takes the step that the inputs call for. -/
theorem scan (h : q.Settled) :
    q.scan.Settled ∧ q.scan.ready = true ∧ q.scan.step = nextStep q.step q.start q.sensor := by
  obtain ⟨hclear, hready⟩ := h.clear
  have hlit := hclear.start hready
  have hlitReady : q.clear.awaitStart.light.ready = true := by
    rw [hclear.start_eq]
    split <;> exact hready
  refine ⟨hlit.finish hlitReady, ?_, ?_⟩
  · rw [Panel.scan, hlit.finish_eq]
    split <;> exact hlitReady
  · rw [Panel.scan, hlit.finish_eq, hclear.start_eq, h.clear_eq, nextStep]
    rcases h.step with hstep | hstep | hstep
    · cases q.start <;> cases q.sensor <;> simp [hstep]
    · cases q.sensor <;> simp [hstep]
    · cases q.sensor <;> simp [hstep]

end Settled

end Panel
end Sample

/-! ## Turns of the sequencer -/

namespace Turn

/-- The inputs of a turn leave the devices alone that the sequencer writes. -/
def SparesSequencer (t : Turn) : Prop :=
  (∀ name ∈ (["M0", "Y0", "Y1"] : List Text), name ∉ t.bits) ∧ Text.ofString "iStep" ∉ t.registers

/-- Whether a bit is on in the scan of a turn. -/
def isOn (turns : Nat → Turn) (states : Nat → State) (name : Text) (k : Nat) : Bool :=
  ((turns k).inputs (states k)).bit name

theorem bit_inputs_of_notMem {t : Turn} {name : Text} (h : name ∉ t.bits) (s : State) :
    (t.inputs s).bit name = s.bit name := by
  simp [inputs, State.bit, State.withBits, State.withRegisters, Std.ExtTreeMap.getD_union_of_not_mem_right h]

theorem register_inputs_of_notMem {t : Turn} {name : Text} (h : name ∉ t.registers) (s : State) :
    (t.inputs s).register name = s.register name := by
  simp [inputs, State.register, State.withBits, State.withRegisters, Std.ExtTreeMap.getD_union_of_not_mem_right h]

end Turn

namespace Sample.Panel

variable {t : Turn} {s : State}

theorem ofState_inputs (h : t.SparesSequencer) (s : State) :
    ofState (t.inputs s) =
      { ofState s with start := (t.inputs s).bit "X0", sensor := (t.inputs s).bit "X1" } := by
  have hbit (name : Text) (hn : name ∈ (["M0", "Y0", "Y1"] : List Text)) :
      (t.inputs s).bit name = s.bit name := Turn.bit_inputs_of_notMem (h.1 name hn) s
  have hstep : (t.inputs s).register "iStep" = s.register "iStep" := Turn.register_inputs_of_notMem h.2 s
  simp only [ofState, hbit "M0" (by decide), hbit "Y0" (by decide), hbit "Y1" (by decide), hstep]
  rfl

/-- A turn of the sequencer. -/
theorem Settled.turn (h : (ofState s).Settled) (hprogram : t.program = sequencer)
    (hspares : t.SparesSequencer) :
    ∃ next, t.scan s = .ok next ∧ (ofState next).Settled ∧ next.bit "M0" = true ∧
      next.register "iStep" =
        nextStep (s.register "iStep") ((t.inputs s).bit "X0") ((t.inputs s).bit "X1") := by
  obtain ⟨next, hscan, hnext⟩ := exists_scan_sequencer (t.inputs s) t.dt
  have hinputs := ofState_inputs hspares s
  have hsettled : (ofState (t.inputs s)).Settled := by
    rw [hinputs]
    exact ⟨h.step, h.ready, h.lamp, h.done, h.started, h.sensed⟩
  obtain ⟨hsettled', hready, hstep⟩ := hsettled.scan
  rw [← hnext] at hsettled' hready hstep
  refine ⟨next, ?_, hsettled', hready, ?_⟩
  · rw [Turn.scan, hprogram]
    exact hscan
  · rw [hinputs] at hstep
    exact hstep

/-! ## Histories of steps -/

section History

variable {step : Nat → Int} {start sensor : Nat → Bool}
  (hzero : step 0 = 0) (hnext : ∀ n, step (n + 1) = nextStep (step n) (start n) (sensor n))

include hzero hnext

theorem step_ne_zero_iff (n : Nat) : step n ≠ 0 ↔ ∃ k < n, start k = true := by
  induction n with
  | zero => simp [hzero]
  | succ n ih =>
    have hleave : step (n + 1) ≠ 0 ↔ step n ≠ 0 ∨ start n = true := by
      rw [hnext, nextStep]
      grind
    rw [hleave, ih]
    constructor
    · rintro (⟨k, hk, hstart⟩ | hstart)
      · exact ⟨k, by omega, hstart⟩
      · exact ⟨n, by omega, hstart⟩
    · rintro ⟨k, hk, hstart⟩
      rcases Nat.lt_or_eq_of_le (Nat.le_of_lt_succ hk) with hk | rfl
      · exact .inl ⟨k, hk, hstart⟩
      · exact .inr hstart

theorem step_eq_twenty_iff (n : Nat) :
    step n = 20 ↔ ∃ i j, i ≤ j ∧ j < n ∧ start i = true ∧ sensor j = true := by
  induction n with
  | zero => simp [hzero]
  | succ n ih =>
    have hreach : step (n + 1) = 20 ↔ step n = 20 ∨ step (n + 1) ≠ 0 ∧ sensor n = true := by
      rw [hnext, nextStep]
      grind
    rw [hreach, ih, step_ne_zero_iff hzero hnext]
    constructor
    · rintro (⟨i, j, hij, hj, hstart, hsensor⟩ | ⟨⟨i, hi, hstart⟩, hsensor⟩)
      · exact ⟨i, j, hij, by omega, hstart, hsensor⟩
      · exact ⟨i, n, by omega, by omega, hstart, hsensor⟩
    · rintro ⟨i, j, hij, hj, hstart, hsensor⟩
      rcases Nat.lt_or_eq_of_le (Nat.le_of_lt_succ hj) with hj | rfl
      · exact .inl ⟨i, j, hij, hj, hstart, hsensor⟩
      · exact .inr ⟨⟨i, by omega, hstart⟩, hsensor⟩

end History

end Sample.Panel

namespace Turn

open Sample (sequencer)
open Sample.Panel (ofState nextStep)

/-- Some turns scan the sequencer from state to state, and none of them fails. After each of them the flag
is set, the step is 0, 10 or 20, and the lamps show it. The step never goes back. It is no longer 0 once
there has been a turn with the start button on, and it is 20 once there has been a turn with the sensor on
that was such a turn itself or came later. -/
structure Sequenced (turns : Nat → Turn) (states : Nat → State) : Prop where
  scans : ∀ n, (turns n).scan (states n) = .ok (states (n + 1))
  ready : ∀ n, (states (n + 1)).bit "M0" = true
  steps : ∀ n, (states (n + 1)).register "iStep" = 0 ∨ (states (n + 1)).register "iStep" = 10 ∨
    (states (n + 1)).register "iStep" = 20
  lamp : ∀ n, (states (n + 1)).bit "Y0" = true ↔ (states (n + 1)).register "iStep" = 10
  done : ∀ n, (states (n + 1)).bit "Y1" = true ↔ (states (n + 1)).register "iStep" = 20
  grows : ∀ n, (states n).register "iStep" ≤ (states (n + 1)).register "iStep"
  leaves : ∀ n, (states n).register "iStep" ≠ 0 ↔ ∃ k < n, isOn turns states "X0" k = true
  ends : ∀ n, (states n).register "iStep" = 20 ↔
    ∃ i j, i ≤ j ∧ j < n ∧ isOn turns states "X0" i = true ∧ isOn turns states "X1" j = true

variable {turns : Nat → Turn}

theorem settled_after (hprogram : ∀ k, (turns k).program = sequencer)
    (hspares : ∀ k, (turns k).SparesSequencer) (n : Nat) : (ofState (after turns {} n)).Settled := by
  induction n with
  | zero => exact Sample.Panel.settled_empty
  | succ n ih =>
    obtain ⟨next, hscan, hsettled, -⟩ := ih.turn (hprogram n) (hspares n)
    rw [after, hscan]
    exact hsettled

/-- **The sequencer follows its inputs.** From the empty state, and whatever the inputs are as long as they
spare the devices that the sequencer writes, its turns never fail, its lamps show its step, and its step
is the one that the start button and the sensor have called for. -/
theorem sequenced_after (hprogram : ∀ k, (turns k).program = sequencer)
    (hspares : ∀ k, (turns k).SparesSequencer) : Sequenced turns (after turns {}) := by
  have hsettled := settled_after hprogram hspares
  have hturn (n : Nat) : (turns n).scan (after turns {} n) = .ok (after turns {} (n + 1)) ∧
      (after turns {} (n + 1)).bit "M0" = true ∧ (after turns {} (n + 1)).register "iStep" =
        nextStep ((after turns {} n).register "iStep") (isOn turns (after turns {}) "X0" n)
          (isOn turns (after turns {}) "X1" n) := by
    obtain ⟨next, hscan, -, hready, hstep⟩ := (hsettled n).turn (hprogram n) (hspares n)
    have hnext : after turns {} (n + 1) = next := by
      rw [after, hscan]
      rfl
    rw [hnext]
    exact ⟨hscan, hready, hstep⟩
  have hstep (n : Nat) := (hturn n).2.2
  exact {
    scans := fun n => (hturn n).1
    ready := fun n => (hturn n).2.1
    steps := fun n => (hsettled (n + 1)).step
    lamp := fun n => (hsettled (n + 1)).lamp
    done := fun n => (hsettled (n + 1)).done
    grows := fun n => hstep n ▸ Sample.Panel.le_nextStep (hsettled n).step _ _
    leaves := Sample.Panel.step_ne_zero_iff rfl hstep
    ends := Sample.Panel.step_eq_twenty_iff rfl hstep }

/-- The sensor comes before the start button, goes off with it, and comes back. -/
theorem sequenced_after_early_sensor :
    let turns : Nat → Turn := fun k =>
      { program := sequencer
        bits := .ofList [(Text.ofString "X0", k == 1), (Text.ofString "X1", k != 1)]
        registers := .ofList [(Text.ofString "D0", (k : Int))]
        dt := 100 }
    (∀ k, (turns k).program = sequencer) ∧ (∀ k, (turns k).SparesSequencer) ∧
      Sequenced turns (after turns {}) := by
  intro turns
  have hspares (k : Nat) : (turns k).SparesSequencer := by
    simp [turns, SparesSequencer, Text.ofString]
  have hprogram (k : Nat) : (turns k).program = sequencer := by simp only [turns]
  exact ⟨hprogram, hspares, sequenced_after hprogram hspares⟩

end Turn
end LadderLogic
