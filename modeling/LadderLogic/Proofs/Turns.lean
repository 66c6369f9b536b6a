import LadderLogic.Proofs.Footprint

/-!
# Turns

A controller takes one turn after the other: some inputs are set anew, and a program is scanned, which
need not be the program of the turn before. Where a program has one instruction of a kind, a scan comes
to it once (`reach?`), and what no other instruction writes is there as it was when the turn began, and
after the turn as that instruction has left it (`Turn.exists_reach`).

Timers, counters and pulse moves all hang on the truth that an instruction finds on top of the logic
stack, its enable. It is defined here once for any kind of instruction (`Turn.enabled`), with the enable
of the turn before, as an entry remembers it (`Turn.getD_edges_eq_lastEnabled`).

Source: `step` and `with_io` (sections 3 and 4.2 of the specification).
-/

namespace LadderLogic

namespace Scan

/-- A run leaves what its program does not write. -/
theorem sameAt_run {s u : Scan} {program : Program} {slot : Slot} (h : s.run program = .ok u)
    (hw : ¬program.Writes slot) : u.state.SameAt s.state slot := by
  obtain ⟨e, rfl, hwrites⟩ := exists_after h
  have hother : ∀ w ∈ e.writes, w.slot ≠ slot := fun w hm he => hw (he ▸ hwrites w hm)
  rw [state_after]
  have hsame := State.sameAt_writeAll s.state hother
  cases slot <;> exact hsame

/-- The first instruction of a kind that a run comes to, and the scan in progress there. -/
def reach? (s : Scan) (kind : Instruction → Bool) : Program → Option (Scan × Instruction)
  | [] => none
  | i :: rest =>
    if kind i then some (s, i)
    else
      match s.exec i with
      | .ok next => next.reach? kind rest
      | .error _ => none

/-- A run comes to the only instruction of a kind from what stands before it, and goes on with what
stands behind it. -/
theorem exists_reach {s w : Scan} {kind : Instruction → Bool} {program : Program}
    (h : s.run program = .ok w) (hone : program.countP kind = 1) :
    ∃ before i after u v, program = before ++ i :: after ∧ (∀ j ∈ before ++ after, kind j = false) ∧
      kind i = true ∧ s.reach? kind program = some (u, i) ∧
      s.run before = .ok u ∧ u.exec i = .ok v ∧ v.run after = .ok w := by
  induction program generalizing s with
  | nil => cases hone
  | cons i rest ih =>
    obtain ⟨next, hi, hnext⟩ := exists_exec_of_run h
    by_cases hkind : kind i = true
    · have hrest : rest.countP kind = 0 := by
        rw [List.countP_cons_of_pos hkind] at hone
        exact Nat.succ_inj.1 hone
      refine ⟨[], i, rest, s, next, rfl, fun j hj => ?_, hkind, ?_, rfl, hi, hnext⟩
      · exact Bool.eq_false_iff.2 (List.countP_eq_zero.1 hrest j hj)
      · rw [reach?, if_pos hkind]
    · rw [List.countP_cons_of_neg hkind] at hone
      obtain ⟨before, j, after, u, v, rfl, hother, hj, hreach, hu, hv, hw⟩ := ih hnext hone
      refine ⟨i :: before, j, after, u, v, rfl, fun k hk => ?_, hj, ?_, ?_, hv, hw⟩
      · rcases List.mem_cons.1 hk with rfl | hk
        · exact Bool.eq_false_iff.2 hkind
        · exact hother k hk
      · rw [reach?, if_neg hkind, hi]
        exact hreach
      · rw [run, hi]
        exact hu

end Scan

/-- A turn: bits and registers that are set anew, and a program that is scanned then. -/
structure Turn where
  program : Program
  bits : Table Bool := ∅
  registers : Table Int := ∅
  dt : Int

namespace Turn

/-- The state with the inputs of a turn. Inputs that come one after the other make up one table of bits
and one of registers. -/
def inputs (t : Turn) (s : State) : State := (s.withBits t.bits).withRegisters t.registers

/-- The state after a turn. -/
def scan (t : Turn) (s : State) : Except Numeral.Fault State := t.program.scan (t.inputs s) t.dt

/-- The first instruction of a kind that a turn comes to, and the scan in progress there. -/
def reach? (t : Turn) (kind : Instruction → Bool) (s : State) : Option (Scan × Instruction) :=
  (Scan.start (t.inputs s) t.dt).reach? kind t.program

/-- The first `n` turns lead from each state to the next one, and none of them fails. -/
def Lead (turns : Nat → Turn) (states : Nat → State) (n : Nat) : Prop :=
  ∀ k < n, (turns k).scan (states k) = .ok (states (k + 1))

/-- The state after `k` turns, where a turn that fails leaves the state as it was. -/
def after (turns : Nat → Turn) (s : State) : Nat → State
  | 0 => s
  | k + 1 => ((turns k).scan (after turns s k)).toOption.getD (after turns s k)

theorem lead_after {turns : Nat → Turn} {s : State} {n : Nat}
    (h : ∀ k < n, ((turns k).scan (after turns s k)).isOk = true) : Lead turns (after turns s) n := by
  intro k hk
  have hok := h k hk
  rw [after]
  cases hs : (turns k).scan (after turns s k) with
  | error fault =>
    rw [hs] at hok
    cases hok
  | ok next => rfl

/-- A turn comes to the only instruction of a kind. What no other instruction writes is there as it was
with the inputs, and after the turn as that instruction has left it. -/
theorem exists_reach {t : Turn} {s next : State} {kind : Instruction → Bool}
    (h : t.scan s = .ok next) (hone : t.program.countP kind = 1) :
    ∃ u i v, t.reach? kind s = some (u, i) ∧ kind i = true ∧ u.exec i = .ok v ∧
      ∀ slot, (∀ j ∈ t.program, kind j = false → ¬j.Writes slot) →
        u.state.SameAt (t.inputs s) slot ∧ next.SameAt v.state slot := by
  have hne : t.program ≠ [] := by
    intro hnil
    rw [hnil] at hone
    cases hone
  obtain ⟨w, hw, rfl⟩ := Program.exists_run_of_scan hne h
  obtain ⟨before, i, after, u, v, hp, hother, hi, hreach, hu, hv, hafter⟩ := Scan.exists_reach hw hone
  refine ⟨u, i, v, hreach, hi, hv, fun slot hslot => ?_⟩
  have hframe (j : Instruction) (hj : j ∈ before ++ after) : ¬j.Writes slot := by
    refine hslot j ?_ (hother j hj)
    rw [hp]
    simp only [List.mem_append, List.mem_cons] at hj ⊢
    exact hj.imp_right .inr
  have hbefore : u.state.SameAt (Scan.start (t.inputs s) t.dt).state slot := by
    refine Scan.sameAt_run hu ?_
    rintro ⟨j, hj, hw⟩
    exact hframe j (List.mem_append_left after hj) hw
  have hsame : w.state.SameAt v.state slot := by
    refine Scan.sameAt_run hafter ?_
    rintro ⟨j, hj, hw⟩
    exact hframe j (List.mem_append_right before hj) hw
  constructor
  · cases slot <;> exact hbefore
  · cases slot <;> exact hsame

/-! ## Enables -/

/-- The enable of the first instruction of a kind in each turn: the top of the logic stack where the
turn comes to it. -/
def enabled (kind : Instruction → Bool) (turns : Nat → Turn) (states : Nat → State) (k : Nat) : Bool :=
  ((turns k).reach? kind (states k)).any fun found => found.1.peek

/-- The enable of the first instruction of a kind in the turn before. Before the first turn it is what is
remembered under a name. -/
def lastEnabled (kind : Instruction → Bool) (name : Text) (turns : Nat → Turn)
    (states : Nat → State) : Nat → Bool
  | 0 => (states 0).edges.getD name false
  | k + 1 => enabled kind turns states k

/-- Whether the enable of the first instruction of a kind rises in a turn: it is on, and in the turn
before it was off. -/
def isRising (kind : Instruction → Bool) (name : Text) (turns : Nat → Turn) (states : Nat → State)
    (k : Nat) : Bool :=
  enabled kind turns states k && !lastEnabled kind name turns states k

section Enables

variable {kind : Instruction → Bool} {name : Text} {turns : Nat → Turn} {states : Nat → State} {n k : Nat}

theorem enabled_eq {u : Scan} {i : Instruction}
    (h : (turns k).reach? kind (states k) = some (u, i)) : enabled kind turns states k = u.peek := by
  rw [enabled, h, Option.any_some]

/-- Where every turn remembers the enable of its instruction, what is remembered after some turns is the
enable in the last of them. -/
theorem getD_edges_eq_lastEnabled
    (h : ∀ k < n, (states (k + 1)).edges[name]? = some (enabled kind turns states k)) (hk : k ≤ n) :
    (states k).edges.getD name false = lastEnabled kind name turns states k := by
  cases k with
  | zero => rfl
  | succ k => rw [Std.ExtTreeMap.getD_eq_getD_getElem?, h k hk, lastEnabled, Option.getD_some]

end Enables

end Turn
end LadderLogic
