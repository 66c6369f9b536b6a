import LadderLogic.Proofs.Placement
import LadderLogic.Proofs.Pulses

/-!
# What one instruction does

An instruction that does not fail changes the two stacks and writes some entries. What it may write, and
where, is said once for all instructions (`exec_cases`), so that what holds of every entry in every run
need not go through the instructions again. The branch stack grows with a push and shrinks with a pop,
whatever truths are on it, so that its depth hangs on the program alone (`length_branches_run`).

Source: `step` and the stacks of `ScanContext` (sections 2 and 4.2 of the specification).
-/

namespace LadderLogic

/-- Whether an instruction is an operation on the branch stack of a kind. -/
def Instruction.isBranch (b : Branch) (i : Instruction) : Bool := i.operation = .known (.branch b)

/-- The depth of the branch stack after an instruction. A pop of an empty stack leaves it empty. -/
def Instruction.depthAfter (i : Instruction) (depth : Nat) : Nat :=
  match i.operation with
  | .known (.branch .push) => depth + 1
  | .known (.branch .pop) => depth - 1
  | _ => depth

theorem Program.openBranches_concat (program : Program) (i : Instruction) :
    Program.openBranches (program ++ [i]) = i.depthAfter program.openBranches :=
  Program.openBranches_append program i

open Instruction (pulseKey pulseName)

namespace Scan

/-! ## Coils -/

/-- A write as a coil makes it: a timer is cleared or gets the time of the scan, a counter is cleared or
counts one up to the limit, and an enable is remembered for a counter or for a pulse move. -/
def Regular (s : Scan) : Write → Prop
  | .bit _ _ | .register _ _ => True
  | .timer name n => Family.ofName name = .timer ∧ (n = 0 ∨ n = s.timer name + s.dt)
  | .counter name n =>
    Family.ofName name = .counter ∧ (n = 0 ∨ n = min (s.counter name + 1) countLimit)
  | .edge name _ => Family.ofName name = .counter ∨ ∃ id, name = pulseName id

/-- One scan comes from another by some regular writes. -/
def Written (s v : Scan) : Prop :=
  ∃ ws, v = s.writeAll ws ∧ ∀ w ∈ ws, s.Regular w

variable {s v : Scan} {i : Instruction} {name : Text} {ε : Type} {preset : Except ε Int}

theorem Written.refl (s : Scan) : s.Written s := ⟨[], rfl, fun _ hw => absurd hw List.not_mem_nil⟩

theorem written_setBit (s : Scan) (name : Text) (b : Bool) : s.Written (s.setBit name b) :=
  ⟨[.bit name b], rfl, by simp [Regular]⟩

/-- What an output coil does to its timer, if it does not fail: it clears it, or adds the time of the scan
and compares it with the preset, in units of 100 ms. -/
theorem outTimer_cases (h : s.outTimer name preset = .ok v) :
    (s.peek = false ∧ v = (s.setTimer name 0).setBit name false) ∨
    (s.peek = true ∧ ∃ p, preset = .ok p ∧
      v = (s.setTimer name (s.timer name + s.dt)).setBit name (100 * p ≤ s.timer name + s.dt)) := by
  unfold outTimer at h
  split at h
  · next hpeek =>
    cases preset with
    | error cause => cases h
    | ok p =>
      refine .inr ⟨hpeek, p, rfl, ?_⟩
      rw [Int.mul_comm 100 p]
      exact (Except.ok.inj h).symm
  · next hpeek => exact .inl ⟨Bool.eq_false_iff.2 hpeek, (Except.ok.inj h).symm⟩

/-- What an output coil does to its counter, if it does not fail: it remembers its enable, and on a rise
it counts, and sets the bit of the counter from the preset on. -/
theorem outCounter_cases (h : s.outCounter name preset = .ok v) :
    (s.rises name s.peek = false ∧ v = s.setEdge name s.peek) ∨
    (s.rises name s.peek = true ∧ ∃ p count counted, preset = .ok p ∧
      count = min (s.counter name + 1) countLimit ∧
      counted = (s.setEdge name s.peek).setCounter name count ∧
      v = if p ≤ count then counted.setBit name true else counted) := by
  simp only [outCounter] at h
  split at h
  · next hrises =>
    cases preset with
    | error cause => cases h
    | ok p => exact .inr ⟨hrises, p, _, _, rfl, rfl, rfl, (Except.ok.inj h).symm⟩
  · next hrises => exact .inl ⟨Bool.eq_false_iff.2 hrises, (Except.ok.inj h).symm⟩

theorem written_out (h : s.out name preset = .ok v) : s.Written v := by
  unfold out at h
  split at h
  · next hf =>
    rcases outTimer_cases h with ⟨-, rfl⟩ | ⟨-, p, -, rfl⟩
    · exact ⟨[.timer name 0, .bit name false], rfl, by simp [Regular, hf]⟩
    · exact ⟨[.timer name _, .bit name _], rfl, by simp [Regular, hf]⟩
  · next hf =>
    rcases outCounter_cases h with ⟨-, rfl⟩ | ⟨-, p, count, counted, -, rfl, rfl, rfl⟩
    · exact ⟨[.edge name _], rfl, by simp [Regular, hf]⟩
    · split
      · exact ⟨[.edge name _, .counter name _, .bit name true], rfl, by simp [Regular, hf]⟩
      · exact ⟨[.edge name _, .counter name _], rfl, by simp [Regular, hf]⟩
  · obtain rfl := Except.ok.inj h
    exact written_setBit s name s.peek

theorem written_reset (s : Scan) (name : Text) : s.Written (s.reset name) := by
  unfold reset
  split
  · next hf => exact ⟨[.timer name 0, .bit name false], rfl, by simp [Regular, hf]⟩
  · next hf =>
    exact ⟨[.counter name 0, .bit name false, .edge name false], rfl, by simp [Regular, hf]⟩
  · exact ⟨[.register name 0], rfl, by simp [Regular]⟩
  · exact written_setBit s name false

theorem written_move (h : s.move i = .ok v) : s.Written v := by
  have hmove := move_cases h
  split at hmove
  · obtain ⟨n, -, rfl⟩ := hmove
    exact ⟨[.register (i.arg 1 []) n], rfl, by simp [Regular]⟩
  · exact hmove ▸ .refl s

theorem written_movePulse (ho : i.operation = .known (.coil .movePulse))
    (h : s.movePulse i = .ok v) : s.Written v := by
  have hexec : s.exec i = .ok v := by rw [exec, ho]; exact h
  have hpulse : i.isPulseOf i.id = true := by simp [Instruction.isPulseOf, ho]
  have hkey (b : Bool) : s.Regular (.edge (pulseName i.id) b) := .inr ⟨i.id, rfl⟩
  obtain ⟨-, hfires, hrests⟩ := pulsed_of_exec hpulse hexec
  by_cases hf : 2 ≤ i.args.length ∧ s.peek = true ∧ s.edge (pulseName i.id) = false
  · obtain ⟨n, -, rfl⟩ := hfires hf
    refine ⟨[.edge (pulseName i.id) s.peek, .register (i.arg 1 []) n], rfl, ?_⟩
    exact List.forall_mem_cons.2 ⟨hkey s.peek, List.forall_mem_singleton.2 trivial⟩
  · rw [hrests hf]
    exact ⟨[.edge (pulseName i.id) s.peek], rfl, List.forall_mem_singleton.2 (hkey s.peek)⟩

/-- A coil writes regularly, and leaves the stacks alone. -/
theorem written_coil {c : Coil} (ho : i.operation = .known (.coil c)) (h : s.coil i c = .ok v) :
    s.Written v := by
  cases c with
  | out => exact written_out h
  | set =>
    obtain rfl := Except.ok.inj h
    split
    · exact written_setBit s i.value true
    · exact .refl s
  | reset =>
    obtain rfl := Except.ok.inj h
    split
    · exact written_reset s i.value
    · exact .refl s
  | move =>
    simp only [coil] at h
    split at h
    · exact written_move h
    · exact Except.ok.inj h ▸ .refl s
  | movePulse => exact written_movePulse ho h

/-! ## Instructions -/

/-- A contact changes the logic stack alone. -/
theorem exists_logic_of_contact {position : Position} {found : Except ε Bool}
    (h : s.contact position found = .ok v) : ∃ logic, v = { s with logic } := by
  have hmap {f : Bool → Scan} (hf : ∀ b, ∃ logic, f b = { s with logic })
      (hv : found.map f = .ok v) : ∃ logic, v = { s with logic } := by
    cases found with
    | error cause => cases hv
    | ok b =>
      obtain rfl := Except.ok.inj hv
      exact hf b
  cases position with
  | start => exact hmap (fun b => ⟨_, rfl⟩) h
  | series =>
    simp only [contact] at h
    split at h
    · exact hmap (fun b => ⟨_, rfl⟩) h
    · exact ⟨_, (Except.ok.inj h).symm⟩
  | parallel =>
    simp only [contact] at h
    split at h
    · exact ⟨_, (Except.ok.inj h).symm⟩
    · exact hmap (fun b => ⟨_, rfl⟩) h

/-- **What an instruction does, if it does not fail.** It writes regularly, leaves some logic stack, and
changes the depth of the branch stack by a push or a pop only. -/
theorem exec_cases (h : s.exec i = .ok v) :
    ∃ e : Effect, v = s.after e ∧ (∀ w ∈ e.writes, s.Regular w) ∧
      e.branches.length = i.depthAfter s.state.branches.length := by
  have hstacks (logic branches : List Bool) (hv : v = s.withStacks logic branches)
      (hb : branches.length = i.depthAfter s.state.branches.length) :
      ∃ e : Effect, v = s.after e ∧ (∀ w ∈ e.writes, s.Regular w) ∧
        e.branches.length = i.depthAfter s.state.branches.length :=
    ⟨⟨[], logic, branches⟩, hv, fun _ hw => absurd hw List.not_mem_nil, hb⟩
  unfold exec at h
  split at h
  · next ho =>
    obtain ⟨logic, rfl⟩ := exists_logic_of_contact h
    exact hstacks logic s.state.branches rfl (by rw [Instruction.depthAfter, ho])
  · next join ho =>
    obtain rfl := Except.ok.inj h
    refine hstacks (s.block join).logic s.state.branches ?_ (by rw [Instruction.depthAfter, ho])
    cases join <;> rfl
  · next b ho =>
    obtain rfl := Except.ok.inj h
    refine hstacks (s.branch b).logic (s.branch b).state.branches ?_ ?_
    · cases b <;> rfl
    · cases b <;> simp [Instruction.depthAfter, ho, branch, pushBranch, dropBranch, push, state]
  · next c ho =>
    obtain ⟨ws, rfl, hws⟩ := written_coil ho h
    refine ⟨⟨ws, s.logic, s.state.branches⟩, ?_, hws, by rw [Instruction.depthAfter, ho]⟩
    rw [after, ← writeAll_withStacks]
    rfl
  · next ho =>
    obtain rfl := Except.ok.inj h
    exact hstacks s.logic s.state.branches rfl (by rw [Instruction.depthAfter, ho])

theorem length_branches_exec (h : s.exec i = .ok v) :
    v.state.branches.length = i.depthAfter s.state.branches.length := by
  obtain ⟨e, rfl, -, hdepth⟩ := exec_cases h
  exact hdepth

/-! ## Runs -/

/-- A run of a program in two parts goes through a scan between them. -/
theorem exists_run_of_append {u : Scan} {before rest : Program} (h : s.run (before ++ rest) = .ok u) :
    ∃ t, s.run before = .ok t ∧ t.run rest = .ok u := by
  induction before generalizing s with
  | nil => exact ⟨s, rfl, h⟩
  | cons i before ih =>
    obtain ⟨next, hi, hnext⟩ := exists_exec_of_run h
    rw [run, hi]
    exact ih hnext

/-- From an empty branch stack, a run leaves one truth on it for each branch that its program leaves
open. -/
theorem length_branches_run {u : Scan} {program : Program} (hs : s.state.branches = [])
    (h : s.run program = .ok u) : u.state.branches.length = program.openBranches := by
  induction program using List.reverseRecOn generalizing u with
  | nil =>
    obtain rfl := Except.ok.inj h
    rw [hs]
    rfl
  | append_singleton program i ih =>
    obtain ⟨t, ht, hlast⟩ := exists_run_of_append h
    obtain ⟨v, hi, hv⟩ := exists_exec_of_run hlast
    obtain rfl := Except.ok.inj hv
    rw [length_branches_exec hi, ih ht, Program.openBranches_concat]

end Scan

/-- The branch stack after a scan. -/
theorem Program.length_branches_scan {program : Program} (hne : program ≠ []) {s next : State} {dt : Int}
    (h : program.scan s dt = .ok next) : next.branches.length = program.openBranches := by
  obtain ⟨u, hu, rfl⟩ := exists_run_of_scan hne h
  exact Scan.length_branches_run rfl hu

end LadderLogic
