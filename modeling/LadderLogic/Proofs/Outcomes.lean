import LadderLogic.Proofs.Independence
import LadderLogic.Proofs.Retention

/-!
# What a request leaves behind

A scan of a session empties the queues before anything else. Then it fails, or there is no program and
the queued inputs are all that changes, or the scan is counted and its state is retained
(`step_cases`). Two things follow. A request that fails in a fixed step leaves the session as it was
but for the inputs that it has taken from the queues or put there. And the newest state that is
retained is the current one, as long as no inputs come into the state without a scan.

Source: `LadderRunner.step`, `run`, `run_for` and `run_until` (sections 2 and 7 of the specification).
-/

namespace LadderLogic

@[simp]
theorem Table.union_empty {α : Type} (table : Table α) : table ∪ ∅ = table :=
  Std.ExtTreeMap.ext_getElem? fun k => by simp [Std.ExtTreeMap.getElem?_union]

/-- The truths of some fields leave the other entries of a table. -/
theorem Table.getElem?_union_ofTruths (table : Table Bool) {fields : Json.Fields} {name : Text}
    (h : name ∉ fields.map Prod.fst) : (table ∪ ofTruths fields)[name]? = table[name]? := by
  refine Std.ExtTreeMap.getElem?_union_of_not_mem_right ?_
  rw [ofTruths, Std.ExtTreeMap.mem_ofList]
  simpa using h

namespace History

variable {h : History} {s : State}

/-- The newest state is found under its number, and is the last one. -/
theorem Sound.find_newest (hh : h.Sound) (hs : h.newest? = some s) :
    h.find s.scans = .ok s ∧ h.latest 1 = .ok [s] := by
  obtain ⟨newest, hn, hsnapshot⟩ := Option.bind_eq_some_iff.1 hs
  obtain rfl := hh.inStep.scans_eq hsnapshot
  have hfind : h.find s.scans = .ok s := by rw [find, hsnapshot]
  obtain ⟨ids, hids⟩ := List.getLast?_eq_some_iff.1 hn
  refine ⟨hfind, ?_⟩
  have hlast : h.ids.drop (h.ids.length - (1 : Int).toNat) = [s.scans] := by simp [hids]
  rw [latest, hlast, List.mapM_cons, hfind]
  rfl

/-- There is a newest state. -/
theorem Sound.exists_newest (hh : h.Sound) {newest : Int} (hn : h.ids.getLast? = some newest) :
    ∃ s, h.newest? = some s ∧ s.scans = newest := by
  obtain ⟨s, hs, -, hscans⟩ := hh.exists_find (List.mem_of_getLast? hn)
  exact ⟨s, by rw [newest?, hn, Option.bind_some, hs], hscans⟩

end History

namespace State

/-- Two states differ in their bits and registers at most. -/
def SameButInputs (s t : State) : Prop :=
  s = { t with
    bits := s.bits
    registers := s.registers
    strays := { t.strays with bits := s.strays.bits } }

theorem SameButInputs.refl (s : State) : s.SameButInputs s := rfl

theorem SameButInputs.trans {s t u : State} (h : s.SameButInputs t) (h' : t.SameButInputs u) :
    s.SameButInputs u :=
  calc s
    _ = _ := h
    _ = _ := congrArg (fun v : State => { v with
      bits := s.bits
      registers := s.registers
      strays := { v.strays with bits := s.strays.bits } }) h'

end State

namespace Session

/-- The session with its queues emptied. -/
def drained (s : Session) : Session :=
  { s with queuedBits := ∅, queuedRegisters := ∅, queuedStrays := [] }

/-- Two sessions are the same but for the clock, and so is the clock if no scan reads it. -/
structure Timed (s t : Session) : Prop where
  same : ∃ clock lastReading, t = { s with clock, lastReading }
  fixed : s.mode ≠ .realtime → t = s

variable {s t u : Session}

/-- Finding the time of a scan takes a reading from the clock at most. -/
theorem timed_of_scanTime {result : Except Fault Int} (h : s.scanTime = (result, t)) : Timed s t := by
  obtain rfl : s.scanTime.2 = t := by rw [h]
  unfold scanTime
  split
  · exact ⟨⟨_, _, rfl⟩, fun _ => rfl⟩
  · exact ⟨⟨_, _, rfl⟩, fun _ => rfl⟩
  · next hmode =>
    split
    · exact ⟨⟨_, _, rfl⟩, fun h => absurd hmode h⟩
    · dsimp only
      split <;> exact ⟨⟨_, _, rfl⟩, fun h => absurd hmode h⟩

theorem scanTime_fixedStep (h : s.mode = .fixedStep) : s.scanTime = (.ok s.dt, s) := by
  rw [scanTime, h]

/-- What a scan of a session comes to: it fails, or there is no program and the state takes the queued
inputs, or its state is retained. -/
theorem step_cases (s : Session) : ∃ t, Timed s.drained t ∧
    ((∃ fault, s.step = (.error fault, t)) ∨
      (s.program = [] ∧ s.step = (.ok s.inputs, { t with state := s.inputs })) ∨
      ∃ dt next history, (s.mode = .fixedStep → dt = s.dt) ∧ s.program.scan s.inputs dt = .ok next ∧
        next.scans ≠ s.state.scans ∧ s.history.append next = .ok history ∧
        s.step = (.ok next, { t with state := next, history })) := by
  unfold step
  dsimp only
  split
  · next fault t ht => exact ⟨t, timed_of_scanTime ht, .inl ⟨fault, rfl⟩⟩
  · next dt t ht =>
    have htimed : Timed s.drained t := timed_of_scanTime ht
    have hdt (hmode : s.mode = .fixedStep) : dt = s.dt := by
      cases (scanTime_fixedStep (s := s.drained) hmode).symm.trans ht
      rfl
    refine ⟨t, htimed, ?_⟩
    obtain ⟨clock, lastReading, rfl⟩ := htimed.same
    split
    · next fault _ => exact .inl ⟨_, rfl⟩
    · next next hscan =>
      split
      · exact .inl ⟨_, rfl⟩
      · unfold accept
        split
        · next hscans =>
          -- a scan that is not counted is one of an empty program
          refine .inr (.inl ?_)
          rcases Program.scan_cases hscan with ⟨hnil, rfl⟩ | ⟨-, ws, branches, -, rfl⟩
          · exact ⟨hnil, rfl⟩
          · have hws : (s.inputs.writeAll ws).scans = s.state.scans :=
              (State.writeAll_others s.inputs ws).1
            have hnext : (s.inputs.writeAll ws).scans + 1 = s.state.scans := hscans
            omega
        · next hscans =>
          split
          · exact .inl ⟨_, rfl⟩
          · next history ha => exact .inr (.inr ⟨dt, next, history, hdt, hscan, hscans, ha, rfl⟩)

/-! ## Requests that fail -/

theorem answered_eq_error {α : Type} {f : α → Answer} {r : Except Fault α × Session}
    {fault : Fault} : (answered f r).1 = .error fault ↔ r.1 = .error fault := by
  obtain ⟨result, s⟩ := r
  cases result <;> simp [answered, Except.map]

/-- A scan in a fixed step that fails only empties the queues. -/
theorem perform_step_of_error (hmode : s.mode ≠ .realtime) {fault : Fault}
    (h : (s.perform .step).1 = .error fault) : (s.perform .step).2 = s.drained := by
  have hstep : s.step.1 = .error fault := answered_eq_error.1 h
  change s.step.2 = s.drained
  obtain ⟨t, htimed, ⟨_, he⟩ | ⟨-, he⟩ | ⟨_, _, _, -, -, -, -, he⟩⟩ := step_cases s <;> rw [he] at hstep ⊢
  · exact htimed.fixed hmode
  · cases hstep
  · cases hstep

theorem setTimeMode_eq_self (hclock : ∃ now, s.clock.now = .seconds now) {mode : TimeMode} {dt : Int}
    {fault : Fault} (h : (s.setTimeMode mode dt).1 = .error fault) :
    (s.setTimeMode mode dt).2 = s := by
  obtain ⟨now, hnow⟩ := hclock
  unfold setTimeMode at h ⊢
  split
  · rfl
  · next hdt =>
    rw [if_neg hdt] at h
    cases mode with
    | realtime =>
      simp only [hnow] at h
      cases h
    | fixedStep => cases h
    | fractionalStep => cases h

theorem setTimeModeIn_eq_self (hclock : ∃ now, s.clock.now = .seconds now) {mode : TimeMode}
    {step : Json} {fault : Fault} (h : (s.setTimeModeIn mode step).1 = .error fault) :
    (s.setTimeModeIn mode step).2 = s := by
  unfold setTimeModeIn at h ⊢
  split
  · next dt hstep =>
    simp only [hstep] at h
    exact setTimeMode_eq_self hclock h
  · next x hstep =>
    simp only [hstep] at h
    split
    · rfl
    · next hx =>
      rw [if_neg hx] at h
      exact setTimeMode_eq_self hclock h
  · rfl

/-- Inputs whose registers are not understood leave their bits in the queue. -/
theorem enter_eq_of_error {bits registers : Json.Fields} {fault : Fault}
    (h : (s.enter bits registers).1 = .error fault) :
    (s.enter bits registers).2 = { s with queuedBits := s.queuedBits ∪ Table.ofTruths bits } := by
  unfold enter at h ⊢
  cases hr : Table.ofIntegers registers with
  | error e => rfl
  | ok updates =>
    rw [hr] at h
    cases h

/-- **A request that fails leaves the session as it was, but for the queues.** In a fixed step, inputs
that are refused have queued the bits that they name and leave all else, a scan that fails leaves all but the
queues, which it has emptied, and a time mode that is refused leaves everything, if the clock has a
reading. -/
theorem failed_requests (hmode : s.mode ≠ .realtime) :
    (∀ bits registers fault, (s.perform (.enter bits registers)).1 = .error fault →
      { (s.perform (.enter bits registers)).2 with queuedBits := s.queuedBits } = s ∧
        (s.perform (.enter bits registers)).2.queuedBits = s.queuedBits ∪ Table.ofTruths bits ∧
        ∀ name ∉ bits.map Prod.fst,
          (s.perform (.enter bits registers)).2.queuedBits[name]? = s.queuedBits[name]?) ∧
    (∀ fault, (s.perform .step).1 = .error fault → (s.perform .step).2 = s.drained) ∧
    ((∃ now, s.clock.now = .seconds now) →
      ∀ mode dt fault, (s.perform (.setTimeMode mode dt)).1 = .error fault →
        (s.perform (.setTimeMode mode dt)).2 = s) := by
  refine ⟨fun bits registers fault h => ?_, fun fault h => ?_, fun hclock mode dt fault h => ?_⟩
  · have hentered : (s.perform (.enter bits registers)).2 =
        { s with queuedBits := s.queuedBits ∪ Table.ofTruths bits } :=
      enter_eq_of_error (answered_eq_error.1 h)
    rw [hentered]
    exact ⟨rfl, rfl, fun name hname => Table.getElem?_union_ofTruths s.queuedBits hname⟩
  · exact perform_step_of_error hmode h
  · exact setTimeModeIn_eq_self hclock (answered_eq_error.1 h)

/-- A program that compares an operand with zero. -/
def comparison (token : Text) : Program :=
  [{ id := 1, operation := .known (.contact .start .equal), value := token, args := [] }]

theorem scan_comparison {token : Text} (h : (Operand.ofToken token).isShort = false) (s : State)
    (dt : Int) : ∃ fault, (comparison token).scan s dt = .error fault := by
  cases ho : Operand.ofToken token with
  | absent => simp [ho, Operand.isShort] at h
  | register name => simp [ho, Operand.isShort] at h
  | literal negative digits =>
    have hlt : Numeral.digitLimit < digits.length := by simpa [ho, Operand.isShort] using h
    refine ⟨.overlong digits.length, ?_⟩
    simp [Program.scan, comparison, Scan.run, Scan.exec, Scan.test, Scan.resolve, Operand.resolve, ho,
      Operand.value, Numeral.ofLiteral, hlt, Scan.contact, bind, Except.bind, Except.map]

/-- A program that no scan gets through: its operand has too many digits. -/
def overlong : Program := comparison (List.replicate 4301 '1')

theorem step_overlong (h : s.program = overlong) : ∃ fault, (s.perform .step).1 = .error fault := by
  obtain ⟨t, -, ⟨fault, he⟩ | ⟨hnil, -⟩ | ⟨dt, next, -, -, hscan, -⟩⟩ := step_cases s
  · exact ⟨fault, answered_eq_error.2 (by rw [he])⟩
  · cases h.symm.trans hnil
  · have hlong : (Operand.ofToken (List.replicate 4301 (.char '1'))).isShort = false := by
      decide +kernel
    obtain ⟨fault, hfault⟩ := scan_comparison hlong s.inputs dt
    rw [h, overlong, hfault] at hscan
    cases hscan

/-- Inputs are queued for a program that cannot be scanned: more inputs are refused, so is a time mode,
and the scan fails. -/
theorem failed_requests_overlong :
    ∃ s, start overlong {} none {} = .ok s ∧
      let t := (s.perform (.enter [("X0", .bool true)] [("D0", .int 5)])).2
      t.mode ≠ .realtime ∧ (∃ now, t.clock.now = .seconds now) ∧
      (∃ fault, (t.perform (.enter [("X1", .bool true)] [("D0", .null)])).1 = .error fault) ∧
      (t.perform (.enter [("X1", .bool true)] [("D0", .null)])).2.queuedBits[("X0" : Text)]? =
        t.queuedBits[("X0" : Text)]? ∧
      (∃ fault, (t.perform .step).1 = .error fault) ∧ (t.perform .step).2 = t.drained ∧
      (∃ fault, (t.perform (.setTimeMode .fixedStep (.int (-1)))).1 = .error fault) ∧
      (t.perform (.setTimeMode .fixedStep (.int (-1)))).2 = t := by
  refine ⟨_, rfl, ?_⟩
  intro t
  have hmode : t.mode ≠ .realtime := by decide
  have hclock : ∃ now, t.clock.now = .seconds now := ⟨_, rfl⟩
  obtain ⟨henter, hstep, htime⟩ := failed_requests hmode
  obtain ⟨fault, hfault⟩ := step_overlong (s := t) rfl
  exact ⟨hmode, hclock, ⟨_, rfl⟩, (henter _ _ _ rfl).2.2 _ (by decide), ⟨fault, hfault⟩,
    hstep fault hfault, ⟨_, rfl⟩, htime hclock _ _ _ rfl⟩

/-- The queues may change: inputs that are refused have queued their bits, and a scan that fails has
dropped the inputs that were queued. -/
theorem failed_requests_change_queues :
    ∃ s, start overlong {} none {} = .ok s ∧
      (∃ fault, (s.perform (.enter [("X0", .bool true)] [("D0", .null)])).1 = .error fault) ∧
      (s.perform (.enter [("X0", .bool true)] [("D0", .null)])).2.queuedBits ≠ s.queuedBits ∧
      let t := (s.perform (.enter [("X0", .bool true)] [("D0", .int 5)])).2
      (∃ fault, (t.perform .step).1 = .error fault) ∧
      (t.perform .step).2.queuedBits ≠ t.queuedBits ∧
      (t.perform .step).2.queuedRegisters ≠ t.queuedRegisters := by
  refine ⟨_, rfl, ⟨_, rfl⟩, by decide, ?_⟩
  intro t
  obtain ⟨fault, hfault⟩ := step_overlong (s := t) rfl
  have hdrained : (t.perform .step).2 = t.drained :=
    perform_step_of_error (by decide) hfault
  rw [hdrained]
  exact ⟨⟨fault, hfault⟩, by decide, by decide⟩

/-! ## Snapshots -/

/-- A session comes from another by scans, whether they fail or not. -/
inductive Scanned : Session → Session → Prop where
  | refl (s : Session) : Scanned s s
  | step {s t u : Session} {result : Except Fault State} (h : s.step = (result, t))
    (ht : Scanned t u) : Scanned s u

theorem scanned_runCycles (s : Session) (n : Nat) : Scanned s (s.runCycles n).2 := by
  induction n generalizing s with
  | zero => exact .refl s
  | succ n ih =>
    unfold runCycles
    split
    · next he => exact .step he (.refl _)
    · next he => exact .step he (ih _)

theorem scanned_runToward (s : Session) (reached : Int → Bool) (fuel : Nat) :
    Scanned s (s.runToward reached fuel).2 := by
  induction fuel generalizing s with
  | zero => exact .refl s
  | succ fuel ih =>
    unfold runToward
    split
    · exact .refl s
    · split
      · next he => exact .step he (.refl _)
      · next he =>
        split
        · exact .step he (.refl _)
        · exact .step he (ih _)

theorem scanned_runForTime (s : Session) (time : Json) : Scanned s (s.runForTime time).2 := by
  unfold runForTime
  split
  · exact scanned_runToward s _ _
  · unfold runForReal
    split
    · exact .refl s
    · exact scanned_runToward s _ _
  · exact .refl s

theorem scanned_runUntilWithin (s : Session) (holds : State → Bool) (n : Nat) :
    Scanned s (s.runUntilWithin holds n).2 := by
  induction n generalizing s with
  | zero => exact .refl s
  | succ n ih =>
    unfold runUntilWithin
    split
    · next he => exact .step he (.refl _)
    · next he =>
      split
      · exact .step he (.refl _)
      · exact .step he (ih _)

/-- How a request moves the state and the history: the state is now the newest that is retained, or
both are as they were, or queued inputs have come into the state although there is no program. -/
inductive Recorded (s t : Session) : Prop where
  | newest (newest : t.history.newest? = some t.state)
  | unchanged (history : t.history = s.history) (state : t.state = s.state)
  | applied (program : s.program = []) (history : t.history = s.history) (state : t.state = s.inputs)

/-- Without queued inputs the state is scanned as it is. -/
theorem inputs_of_empty (hb : s.queuedBits = ∅) (hr : s.queuedRegisters = ∅)
    (hs : s.queuedStrays = []) : s.inputs = s.state := by
  simp [inputs, hb, hr, hs, State.withBits, State.withRegisters, State.withStrayBits, Keyed.putAll]

theorem recorded_step {limit : Option Nat} (hs : Sound limit s) {result : Except Fault State}
    (h : s.step = (result, t)) : Recorded s t ∧ t.inputs = t.state := by
  obtain rfl : s.step.2 = t := by rw [h]
  obtain ⟨t, htimed, he⟩ := step_cases s
  obtain ⟨clock, lastReading, rfl⟩ := htimed.same
  rcases he with ⟨fault, he⟩ | ⟨hnil, he⟩ | ⟨dt, next, history, -, hscan, hne, ha, he⟩ <;> rw [he]
  · exact ⟨.unchanged rfl rfl, inputs_of_empty rfl rfl rfl⟩
  · exact ⟨.applied hnil rfl rfl, inputs_of_empty rfl rfl rfl⟩
  · have hnext : next.scans = s.state.scans + 1 := (Program.scans_scan hscan).resolve_left hne
    obtain ⟨history', ha', -, -, -, hnewest⟩ := hs.history.append hs.newest hnext
    obtain rfl := Except.ok.inj (ha.symm.trans ha')
    exact ⟨.newest hnewest, inputs_of_empty rfl rfl rfl⟩

/-- Once the queues are empty, no input can come into the state without a scan. -/
theorem Recorded.trans (h : Recorded s t) (ht : t.inputs = t.state) (h' : Recorded t u) :
    Recorded s u := by
  have hkept (history : u.history = t.history) (state : u.state = t.state) : Recorded s u := by
    cases h with
    | newest hn => exact .newest (by rw [history, state, hn])
    | unchanged hh hs => exact .unchanged (history.trans hh) (state.trans hs)
    | applied hp hh hs => exact .applied hp (history.trans hh) (state.trans hs)
  cases h' with
  | newest hn => exact .newest hn
  | unchanged hh hs => exact hkept hh hs
  | applied _ hh hs => exact hkept hh (hs.trans ht)

theorem Scanned.recorded (h : Scanned s t) {limit : Option Nat} (hs : Sound limit s) :
    Recorded s t := by
  induction h with
  | refl s => exact .unchanged rfl rfl
  | step h _ ih =>
    obtain ⟨hfirst, hdrained⟩ := recorded_step hs h
    have hnext := hs.step.1
    rw [h] at hnext
    exact hfirst.trans hdrained (ih hnext)

theorem same_setTimeMode (s : Session) (mode : TimeMode) (dt : Int) :
    Same s (s.setTimeMode mode dt).2 := by
  unfold setTimeMode
  split
  · exact ⟨rfl, rfl, rfl, rfl⟩
  · dsimp only
    split
    · split <;> exact ⟨rfl, rfl, rfl, rfl⟩
    · exact ⟨rfl, rfl, rfl, rfl⟩

theorem same_setTimeModeIn (s : Session) (mode : TimeMode) (step : Json) :
    Same s (s.setTimeModeIn mode step).2 := by
  unfold setTimeModeIn
  split
  · exact same_setTimeMode s mode _
  · split
    · exact ⟨rfl, rfl, rfl, rfl⟩
    · exact same_setTimeMode s _ _
  · exact ⟨rfl, rfl, rfl, rfl⟩

theorem recorded_perform {limit : Option Nat} (hs : Sound limit s) (r : Request) :
    Recorded s (s.perform r).2 := by
  cases r with
  | step => exact (recorded_step hs rfl).1
  | run cycles => exact (scanned_runCycles s cycles.toNat).recorded hs
  | runFor time => exact (scanned_runForTime s time).recorded hs
  | runUntil holds cycles => exact (scanned_runUntilWithin s holds cycles.toNat).recorded hs
  | enter bits registers =>
    unfold perform answered enter
    dsimp only
    split <;> exact .unchanged rfl rfl
  | toggle key => cases key <;> exact .unchanged rfl rfl
  | load program restart =>
    cases restart with
    | true => exact .newest (History.newest?_start _ _)
    | false => exact .unchanged rfl rfl
  | reset state => exact .newest (History.newest?_start _ _)
  | setTimeMode mode step =>
    have hsame := same_setTimeModeIn s mode step
    exact .unchanged hsame.history hsame.state
  | draw => exact .unchanged rfl rfl

theorem performAll_concat (s : Session) (requests : List Request) (r : Request) :
    s.performAll (requests ++ [r]) = ((s.performAll requests).perform r).2 := by
  simp [performAll]

/-- A request brings queued inputs into the state, although there is no program to scan it with. -/
structure AppliesUnscanned (s : Session) (r : Request) : Prop where
  program : s.program = []
  state : (s.perform r).2.state = s.inputs
  changed : s.inputs ≠ s.state

theorem newest_of_start {program : Program} {state : State} {limit : Option Int} {clock : Clock}
    (h : start program state limit clock = .ok s) : s.history.newest? = some s.state := by
  unfold start at h
  split at h
  · cases h
  · cases h
    exact History.newest?_start _ _

/-- Among some requests there is one that brought inputs into the state without a scan, and no state was
retained from then on. -/
def UnscannedSince (s : Session) (requests : List Request) : Prop :=
  ∃ before r later, requests = before ++ r :: later ∧ (s.performAll before).AppliesUnscanned r ∧
    ∀ part, part <+: later →
      (s.performAll (before ++ r :: part)).history = (s.performAll before).history

theorem UnscannedSince.concat {requests : List Request} {r : Request} (h : s.UnscannedSince requests)
    (hr : (s.performAll (requests ++ [r])).history = (s.performAll requests).history) :
    s.UnscannedSince (requests ++ [r]) := by
  obtain ⟨before, q, later, rfl, hq, hlater⟩ := h
  refine ⟨before, q, later ++ [r], by simp, hq, fun part hpart => ?_⟩
  rcases List.prefix_concat_iff.1 hpart with rfl | hpart
  · rw [← hlater later (List.prefix_refl later), ← hr]
    simp
  · exact hlater part hpart

/-- The newest state that is retained is the current one, unless inputs came into it without a scan
since. -/
theorem newest_or_unscannedSince {limit : Option Nat} (hs : Sound limit s)
    (hn : s.history.newest? = some s.state) (requests : List Request) :
    (s.performAll requests).history.newest? = some (s.performAll requests).state ∨
      s.UnscannedSince requests := by
  induction requests using List.reverseRecOn with
  | nil => exact .inl hn
  | append_singleton requests r ih =>
    have hkept (history : (s.performAll (requests ++ [r])).history = (s.performAll requests).history)
        (state : (s.performAll (requests ++ [r])).state = (s.performAll requests).state) :
        (s.performAll (requests ++ [r])).history.newest? =
            some (s.performAll (requests ++ [r])).state ∨
          s.UnscannedSince (requests ++ [r]) := by
      rw [history, state]
      exact ih.imp_right fun h => h.concat history
    have hr := recorded_perform (hs.performAll requests) r
    rw [← performAll_concat] at hr
    cases hr with
    | newest hn => exact .inl hn
    | unchanged history state => exact hkept history state
    | applied hnil history state =>
      by_cases hin : (s.performAll requests).inputs = (s.performAll requests).state
      · exact hkept history (state.trans hin)
      · refine .inr ⟨requests, r, [], rfl, ⟨hnil, ?_, hin⟩, fun part hpart => ?_⟩
        · rw [← performAll_concat, state]
        · rw [List.prefix_nil.1 hpart, history]

/-- The current state differs from the newest that is retained in its bits and registers at most. -/
def FollowsNewest (s : Session) : Prop := ∀ newest ∈ s.history.newest?, s.state.SameButInputs newest

theorem Recorded.followsNewest (h : Recorded s t) (hs : s.FollowsNewest) : t.FollowsNewest := by
  intro newest hn
  cases h with
  | newest hnewest =>
    obtain rfl := Option.some.inj (hnewest.symm.trans hn)
    exact .refl t.state
  | unchanged history state =>
    rw [history] at hn
    rw [state]
    exact hs newest hn
  | applied _ history state =>
    have happlied : s.inputs.SameButInputs s.state := rfl
    rw [history] at hn
    rw [state]
    exact happlied.trans (hs newest hn)

theorem followsNewest_performAll {limit : Option Nat} (hs : Sound limit s) (hf : s.FollowsNewest)
    (requests : List Request) : (s.performAll requests).FollowsNewest := by
  induction requests generalizing s with
  | nil => exact hf
  | cons r requests ih => exact ih (hs.perform r).1 ((recorded_perform hs r).followsNewest hf)

/-- **The newest snapshot is the current state.** A session starts with any program, which may be empty,
any state and any limit of one state at least. After any requests, refused or not, the state retained
under the number of the current scan and the newest one are the same. That state differs from the
current one in its bits and registers at most, and only if inputs have come into the current state
without a scan since it was retained. -/
theorem snapshot_performAll (program : Program) (state : State) {limit : Option Int}
    (hlimit : ∀ n, limit = some n → 1 ≤ n) (clock : Clock) :
    ∃ s, start program state limit clock = .ok s ∧ ∀ requests, ∃ snapshot,
      (s.performAll requests).history.find (s.performAll requests).state.scans = .ok snapshot ∧
      (s.performAll requests).history.latest 1 = .ok [snapshot] ∧
      (s.performAll requests).state.SameButInputs snapshot ∧
      (snapshot = (s.performAll requests).state ∨ s.UnscannedSince requests) := by
  obtain ⟨s, hs, hsound⟩ := exists_start program state hlimit clock
  have hnewest : s.history.newest? = some s.state := newest_of_start hs
  have hfollows : s.FollowsNewest := fun newest hn => by
    obtain rfl := Option.some.inj (hnewest.symm.trans hn)
    exact .refl s.state
  refine ⟨s, hs, fun requests => ?_⟩
  have hafter := hsound.performAll requests
  obtain ⟨snapshot, hsnapshot, hscans⟩ := hafter.history.exists_newest hafter.newest
  obtain ⟨hfind, hlatest⟩ := hafter.history.find_newest hsnapshot
  rw [hscans] at hfind
  refine ⟨snapshot, hfind, hlatest, followsNewest_performAll hsound hfollows requests _ hsnapshot, ?_⟩
  refine (newest_or_unscannedSince hsound hnewest requests).imp_left fun hcurrent => ?_
  exact Option.some.inj (hsnapshot.symm.trans hcurrent)

/-- One state is retained while a program runs, is replaced by an empty one and comes back: inputs are
queued for the scans that follow, but never when there is no program. -/
theorem snapshot_performAll_swapped :
    let program := Listing.parse "LD X0\nOUT Y0"
    let requests : List Request := [.toggle (.name "X0"), .run 2, .load [] false, .step,
      .enter [("X0", .bool false)] [("D0", .int 7)], .load program false, .runFor (.int 150)]
    (∀ n, some (1 : Int) = some n → 1 ≤ n) ∧
    ∃ s, start program { scans := 7 } (some 1) {} = .ok s ∧
      (s.performAll requests).history.latest 1 = .ok [(s.performAll requests).state] ∧
      ∃ snapshot,
        (s.performAll requests).history.find (s.performAll requests).state.scans = .ok snapshot ∧
          (s.performAll requests).state.SameButInputs snapshot := by
  intro program requests
  have hlimit : ∀ n, some (1 : Int) = some n → 1 ≤ n := by simp
  obtain ⟨s, hs, h⟩ := snapshot_performAll program { scans := 7 } hlimit {}
  obtain ⟨snapshot, hfind, -, hsame, -⟩ := h requests
  have hlatest : (s.performAll requests).history.latest 1 = .ok [(s.performAll requests).state] := by
    obtain rfl := Except.ok.inj hs
    decide
  exact ⟨hlimit, s, hs, hlatest, snapshot, hfind, hsame⟩

/-- An empty program takes a queued input into the current state, and the state that is retained is
still the one without it. -/
theorem snapshot_without_input :
    ∃ s, start [] {} none {} = .ok s ∧
      let t := s.performAll [.enter [("X0", .bool true)] [], .step]
      (∃ snapshot, t.history.find t.state.scans = .ok snapshot ∧ snapshot ≠ t.state) ∧
      t.history.latest 1 ≠ .ok [t.state] := by
  refine ⟨_, rfl, ⟨_, rfl, ?_⟩, ?_⟩
  · decide
  · decide

end Session
end LadderLogic
