import LadderLogic.Proofs.Steps
import Mathlib.Algebra.Ring.Int.Defs

/-!
# The tables of devices

The tables of a state are open to any name and any value, but scans keep them in order: timers stand
under names of timers and never run below zero, counts stay within the limit, and enables are remembered
for counters and pulse moves only. An entry of a state was there before a run or was written in it
(`mem_or_has_of_writeAll`), and what is written is regular. So each instruction keeps the entries sound
(`sound_exec`), and with them every history of inputs and scans does (`wellFormed_actAll`).

Source: `SimulationState` and `step` (sections 3 and 4.2 of the specification).
-/

namespace LadderLogic

open Instruction (isBranch pulseName)

/-! ## Entries -/

/-- An entry as it may stand in a table. -/
def Write.Sound : Write → Prop
  | .bit _ _ | .register _ _ => True
  | .timer name n => Family.ofName name = .timer ∧ 0 ≤ n
  | .counter name n => Family.ofName name = .counter ∧ 0 ≤ n ∧ n ≤ Scan.countLimit
  | .edge name _ => Family.ofName name = .counter ∨ ∃ id, name = pulseName id

namespace State

variable {s t : State} {w w' : Write}

/-- A state has the entry that a write makes. -/
def Has (s : State) : Write → Prop
  | .bit name b => s.bits[name]? = some b
  | .register name n => s.registers[name]? = some n
  | .timer name n => s.timers[name]? = some n
  | .counter name n => s.counters[name]? = some n
  | .edge name b => s.edges[name]? = some b

theorem has_write_self (s : State) (w : Write) : (s.write w).Has w := by
  cases w <;> exact Std.ExtTreeMap.getElem?_insert_self

/-- At each place a state has one entry at most. -/
theorem Has.eq_of_slot (h : s.Has w) (h' : s.Has w') (hslot : w.slot = w'.slot) : w = w' := by
  cases w <;> cases w' <;> simp_all [Has, Write.slot]

theorem SameAt.has_iff (h : s.SameAt t w.slot) : s.Has w ↔ t.Has w := by
  cases w <;> exact iff_of_eq (congrArg (· = some _) h)

/-- An entry is the one that was just written, or was there before. -/
theorem eq_or_has_of_write (h : (s.write w').Has w) : w = w' ∨ s.Has w := by
  by_cases hslot : w'.slot = w.slot
  · exact .inl (h.eq_of_slot (has_write_self s w') hslot.symm)
  · exact .inr ((sameAt_write s hslot).has_iff.1 h)

/-- An entry is one of those that were written, or was there before. -/
theorem mem_or_has_of_writeAll {ws : List Write} (h : (s.writeAll ws).Has w) : w ∈ ws ∨ s.Has w := by
  induction ws generalizing s with
  | nil => exact .inr h
  | cons first ws ih =>
    rcases ih h with hmem | hw
    · exact .inl (List.mem_cons_of_mem first hmem)
    · rcases eq_or_has_of_write hw with rfl | hs
      · exact .inl List.mem_cons_self
      · exact .inr hs

/-- All entries of a state are as they may be. -/
def Sound (s : State) : Prop := ∀ w, s.Has w → w.Sound

theorem Sound.writeAll {ws : List Write} (hs : s.Sound) (hws : ∀ w ∈ ws, w.Sound) :
    (s.writeAll ws).Sound := by
  intro w hw
  rcases mem_or_has_of_writeAll hw with hmem | hold
  · exact hws w hmem
  · exact hs w hold

/-- The tables of timers, counters and enables are all that soundness looks at. -/
theorem Sound.of_tables (hs : s.Sound) (ht : t.timers = s.timers) (hc : t.counters = s.counters)
    (he : t.edges = s.edges) : t.Sound := by
  intro w hw
  cases w with
  | bit name b => trivial
  | register name n => trivial
  | timer name n =>
    rw [Has, ht] at hw
    exact hs (.timer name n) hw
  | counter name n =>
    rw [Has, hc] at hw
    exact hs (.counter name n) hw
  | edge name b =>
    rw [Has, he] at hw
    exact hs (.edge name b) hw

end State

/-! ## Runs -/

namespace Scan

variable {s v : Scan} {i : Instruction}

theorem timer_nonneg (hs : s.state.Sound) (name : Text) : 0 ≤ s.timer name := by
  rw [timer_eq, Std.ExtTreeMap.getD_eq_getD_getElem?]
  cases hn : s.state.timers[name]? with
  | none => exact Int.le_refl 0
  | some n => exact (hs (.timer name n) hn).2

theorem counter_nonneg (hs : s.state.Sound) (name : Text) : 0 ≤ s.counter name := by
  rw [counter_eq, Std.ExtTreeMap.getD_eq_getD_getElem?]
  cases hn : s.state.counters[name]? with
  | none => exact Int.le_refl 0
  | some n => exact (hs (.counter name n) hn).2.1

/-- What is written regularly may stand in a table, as long as time does not run backwards. -/
theorem Regular.sound {w : Write} (h : s.Regular w) (hs : s.state.Sound) (hdt : 0 ≤ s.dt) :
    w.Sound := by
  cases w with
  | bit name b => trivial
  | register name n => trivial
  | timer name n =>
    have htimer := timer_nonneg hs name
    obtain ⟨hf, rfl | rfl⟩ := h
    · exact ⟨hf, Int.le_refl 0⟩
    · exact ⟨hf, Int.add_nonneg htimer hdt⟩
  | counter name n =>
    have hcounter := counter_nonneg hs name
    obtain ⟨hf, rfl | rfl⟩ := h
    · exact ⟨hf, by decide⟩
    · refine ⟨hf, ?_, Int.min_le_right _ _⟩
      rw [countLimit]
      omega
  | edge name b => exact h

/-- One instruction keeps the entries sound. -/
theorem sound_exec (hs : s.state.Sound) (hdt : 0 ≤ s.dt) (h : s.exec i = .ok v) :
    v.state.Sound ∧ 0 ≤ v.dt := by
  obtain ⟨e, rfl, hw, -⟩ := exec_cases h
  have hwrites : (s.state.writeAll e.writes).Sound := hs.writeAll fun w hmem => (hw w hmem).sound hs hdt
  rw [state_after, dt_after]
  exact ⟨hwrites.of_tables rfl rfl rfl, hdt⟩

theorem sound_run {u : Scan} {program : Program} (hs : s.state.Sound) (hdt : 0 ≤ s.dt)
    (h : s.run program = .ok u) : u.state.Sound := by
  induction program generalizing s with
  | nil => exact Except.ok.inj h ▸ hs
  | cons i rest ih =>
    obtain ⟨next, hi, hrun⟩ := exists_exec_of_run h
    obtain ⟨hnext, hdt'⟩ := sound_exec hs hdt hi
    exact ih hnext hdt' hrun

end Scan

/-- A program leaves no more branches open than it pushes. -/
theorem Program.openBranches_le_countP (program : Program) :
    program.openBranches ≤ program.countP (isBranch .push) := by
  induction program using List.reverseRecOn with
  | nil => exact Nat.le_refl 0
  | append_singleton program i ih =>
    have hstep : i.depthAfter (Program.openBranches program) ≤
        Program.openBranches program + if isBranch .push i then 1 else 0 := by
      unfold Instruction.depthAfter isBranch
      split
      · next ho => simp [ho]
      · omega
      · omega
    rw [Program.openBranches_concat, List.countP_append, List.countP_singleton]
    omega

/-! ## Histories -/

namespace State

/-- What is done to a state: bits or registers are set anew, or a program is scanned. -/
inductive Action where
  | setBits (updates : Table Bool)
  | setRegisters (updates : Table Int)
  | scan (program : Program) (dt : Int)

/-- The program and the time of an action that counts as a scan. -/
def Action.counted? : Action → Option (Program × Int)
  | .scan program dt => if program.isEmpty then none else some (program, dt)
  | _ => none

/-- The state after an action. -/
def act (s : State) : Action → Except Numeral.Fault State
  | .setBits updates => .ok (s.withBits updates)
  | .setRegisters updates => .ok (s.withRegisters updates)
  | .scan program dt => program.scan s dt

/-- The state after some actions. -/
def actAll (s : State) : List Action → Except Numeral.Fault State
  | [] => .ok s
  | a :: rest =>
    match s.act a with
    | .ok next => next.actAll rest
    | .error fault => .error fault

/-- A state as some scans leave it that have begun with empty tables of timers, counters and enables:
the entries are sound, the scans and their times are counted, and on the branch stack there is no more
than the last scan can have pushed. -/
structure WellFormed (s : State) (scans : List (Program × Int)) : Prop where
  sound : s.Sound
  count : s.scans = scans.length
  elapsed : s.elapsed = (scans.map Prod.snd).sum
  branches : s.branches.length ≤ (scans.getLast?.map fun scan => scan.1.countP (isBranch .push)).getD 0
  strays : s.strays = {}

variable {s next : State} {scans : List (Program × Int)}

theorem WellFormed.of_inputs (hs : s.WellFormed scans) (bits : Table Bool) (registers : Table Int) :
    WellFormed { s with bits, registers } scans :=
  ⟨hs.sound.of_tables rfl rfl rfl, hs.count, hs.elapsed, hs.branches, hs.strays⟩

/-- A scan that is counted. -/
theorem WellFormed.scan (hs : s.WellFormed scans) {program : Program} {dt : Int} (hdt : 0 ≤ dt)
    (hne : program ≠ []) (h : program.scan s dt = .ok next) :
    next.WellFormed (scans ++ [(program, dt)]) := by
  have hdepth : next.branches.length = program.openBranches := Program.length_branches_scan hne h
  obtain ⟨u, hu, rfl⟩ := Program.exists_run_of_scan hne h
  have hsound : u.state.Sound := Scan.sound_run (hs.sound.of_tables rfl rfl rfl) hdt hu
  obtain ⟨e, rfl, -⟩ := Scan.exists_after hu
  obtain ⟨hscans, helapsed, hstrays⟩ := writeAll_others s e.writes
  refine ⟨hsound.of_tables rfl rfl rfl, ?_, ?_, ?_, by rw [Scan.commit_after]; exact hstrays.trans hs.strays⟩
  · rw [List.length_append, List.length_singleton, Int.natCast_add, ← hs.count]
    rw [Scan.commit_after]
    exact congrArg (· + 1) hscans
  · rw [List.map_append, List.sum_append, ← hs.elapsed, List.map_singleton, List.sum_singleton]
    rw [Scan.commit_after]
    exact congrArg (· + dt) helapsed
  · rw [List.getLast?_concat, hdepth]
    exact program.openBranches_le_countP

/-- One action keeps a state well formed. -/
theorem WellFormed.act (hs : s.WellFormed scans) {a : Action} (hdt : ∀ scan ∈ a.counted?, 0 ≤ scan.2)
    (h : s.act a = .ok next) : next.WellFormed (scans ++ a.counted?.toList) := by
  cases a with
  | setBits updates =>
    have hsame : scans ++ (Action.setBits updates).counted?.toList = scans := List.append_nil scans
    obtain rfl := Except.ok.inj h
    rw [hsame]
    exact hs.of_inputs (s.bits ∪ updates) s.registers
  | setRegisters updates =>
    have hsame : scans ++ (Action.setRegisters updates).counted?.toList = scans := List.append_nil scans
    obtain rfl := Except.ok.inj h
    rw [hsame]
    exact hs.of_inputs s.bits (s.registers ∪ updates)
  | scan program dt =>
    by_cases hne : program = []
    · subst hne
      obtain rfl := Except.ok.inj h
      simpa [Action.counted?] using hs
    · have hcounted : (Action.scan program dt).counted? = some (program, dt) := by
        simp [Action.counted?, hne]
      rw [hcounted, Option.toList_some]
      exact hs.scan (hdt _ hcounted) hne h

theorem WellFormed.actAll (hs : s.WellFormed scans) {actions : List Action}
    (hdt : ∀ scan ∈ actions.filterMap Action.counted?, 0 ≤ scan.2) (h : s.actAll actions = .ok next) :
    next.WellFormed (scans ++ actions.filterMap Action.counted?) := by
  induction actions generalizing s scans with
  | nil =>
    obtain rfl := Except.ok.inj h
    rwa [List.filterMap_nil, List.append_nil]
  | cons a rest ih =>
    have hsplit : (a :: rest).filterMap Action.counted? =
        a.counted?.toList ++ rest.filterMap Action.counted? := by
      rw [List.filterMap_cons]
      cases a.counted? <;> rfl
    rw [hsplit] at hdt ⊢
    rw [State.actAll] at h
    cases ha : s.act a with
    | error fault =>
      rw [ha] at h
      cases h
    | ok t =>
      rw [ha] at h
      have hfirst := hs.act (fun scan hscan => hdt scan (List.mem_append_left _ (by simpa using hscan))) ha
      rw [← List.append_assoc]
      exact ih hfirst (fun scan hscan => hdt scan (List.mem_append_right _ hscan)) h

/-- **The tables of devices stay in order.** Whatever bits and registers a state begins with, whatever is
set anew and whichever programs are scanned, as long as no scan fails and time does not run backwards:
timers stand under names of timers and are not negative, counts stand under names of counters and are
from zero to the limit, enables are remembered under names of counters and of pulse moves. The scans of
programs that are not empty are counted, with their times, and on the branch stack there is no more than
the last of these programs pushes. -/
theorem wellFormed_actAll (bits : Table Bool) (registers : Table Int) {actions : List Action}
    (hdt : ∀ scan ∈ actions.filterMap Action.counted?, 0 ≤ scan.2) {s : State}
    (h : ({ bits, registers } : State).actAll actions = .ok s) :
    s.WellFormed (actions.filterMap Action.counted?) := by
  have hempty : ({} : State).Sound := by
    intro w hw
    cases w <;> simp [Has] at hw
  have hinitial : WellFormed { bits, registers } [] :=
    ⟨hempty.of_tables rfl rfl rfl, rfl, rfl, Nat.le_refl 0, rfl⟩
  exact hinitial.actAll hdt h

/-- A timer, a counter, a pulse move and a push that is left open are scanned twice; then the counter is
reset and nothing pushed, and between the scans an empty program does nothing. -/
theorem wellFormed_actAll_counted :
    let program := Listing.parse "LD X0\nMPS\nOUT T0 K1\nOUT C0 K1\nMOVP K5 D0"
    let actions : List Action := [.setBits ((∅ : Table Bool).insert "X0" true), .scan program 250,
      .scan program 250, .setRegisters ((∅ : Table Int).insert "D0" 9), .scan [] 40,
      .scan (Listing.parse "LD X0\nRST C0\nMPP\nMRD") 100]
    let bits := (∅ : Table Bool).insert "T0" true
    let registers := (∅ : Table Int).insert "C0" (-7)
    (∀ scan ∈ actions.filterMap Action.counted?, 0 ≤ scan.2) ∧
      ∃ s, ({ bits, registers } : State).actAll actions = .ok s ∧
        s.WellFormed (actions.filterMap Action.counted?) ∧ s.scans = 3 ∧ s.elapsed = 600 ∧
        s.timers.getD "T0" 0 = 500 ∧ s.edges.getD "MOVP:5" false = true ∧ s.branches = [] := by
  intro program actions bits registers
  have hdt : ∀ scan ∈ actions.filterMap Action.counted?, 0 ≤ scan.2 := by decide
  have hlast : (({ bits, registers } : State).actAll actions).toOption.any (fun s =>
      s.scans = 3 ∧ s.elapsed = 600 ∧ s.timers.getD "T0" 0 = 500 ∧
        s.edges.getD "MOVP:5" false = true ∧ s.branches = []) = true := by decide
  refine ⟨hdt, ?_⟩
  cases h : ({ bits, registers } : State).actAll actions with
  | error fault =>
    rw [h] at hlast
    cases hlast
  | ok s =>
    rw [h] at hlast
    exact ⟨s, rfl, wellFormed_actAll bits registers hdt h, of_decide_eq_true hlast⟩

end State
end LadderLogic
