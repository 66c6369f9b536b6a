import LadderLogic.Proofs.Independence
import LadderLogic.Proofs.Turns

/-!
# Pulse moves

A pulse move moves on a rise of its enable only, and remembers the enable under a name that tells its
id. No other instruction writes that entry: counters have other names, and other pulse moves have other
ids. So the entry is carried from turn to turn, through any change of the program that keeps the pulse
move, and the move is done exactly in the turns in which the enable has risen since the turn before
(`pulsed_of_lead`).

Source: the pulse moves of `step` (sections 3 and 4.2 of the specification).
-/

namespace LadderLogic

/-! ## The entry of an id -/

namespace Instruction

/-- Whether an instruction is a pulse move with an id. -/
def isPulseOf (id : Int) (i : Instruction) : Bool :=
  i.operation = .known (.coil .movePulse) && i.id = id

/-- The name under which the enable of the pulse move with an id is remembered. -/
def pulseName (id : Int) : Text := "MOVP:" ++ Text.ofInt id

/-- No instruction but a pulse move with an id writes the entry of that id. -/
theorem not_writes_pulseName {id : Int} (hkey : pulseKey id = .ok (pulseName id)) {j : Instruction}
    (hj : j.isPulseOf id = false) : ¬j.Writes (.edge (pulseName id)) := by
  rintro (⟨-, -, hf⟩ | ⟨⟨c, hc, ho⟩, hkey'⟩)
  · cases (Family.ofName_pulseKey hkey).symm.trans hf
  · obtain rfl := List.mem_singleton.1 hc
    have hid : j.id = id := pulseKey_inj hkey' hkey
    simp [isPulseOf, ho, hid] at hj

end Instruction

open Instruction (isPulseOf pulseKey pulseName)

namespace Scan

variable {u v : Scan} {i : Instruction} {id : Int}

/-- What a move does, if it does not fail. -/
theorem move_cases (h : u.move i = .ok v) :
    if 2 ≤ i.args.length then ∃ n, u.resolve (i.arg 0 []) = .ok n ∧ v = u.setRegister (i.arg 1 []) n
    else v = u := by
  rw [move] at h
  rw [Instruction.arg, Instruction.arg]
  generalize i.args = args at h ⊢
  rcases args with _ | ⟨source, _ | ⟨target, rest⟩⟩
  · exact (Except.ok.inj h).symm
  · exact (Except.ok.inj h).symm
  · have htwo : 2 ≤ (source :: target :: rest).length := Nat.le_add_left 2 rest.length
    rw [if_pos htwo]
    replace h : (u.resolve source).map (u.setRegister target) = .ok v := h
    cases hn : u.resolve source with
    | error fault =>
      rw [hn] at h
      cases h
    | ok n =>
      rw [hn] at h
      exact ⟨n, hn, (Except.ok.inj h).symm⟩

/-- A scan after a pulse move with an id: the enable is remembered, and if the pulse move has fired, its
second operand has been set to the value of its first one. -/
def Pulsed (id : Int) (u : Scan) (i : Instruction) (fires : Prop) (v : Scan) : Prop :=
  let seen := u.setEdge (pulseName id) u.peek
  (fires → ∃ n, u.resolve (i.arg 0 []) = .ok n ∧ v = seen.setRegister (i.arg 1 []) n) ∧
    (¬fires → v = seen)

/-- A pulse move fires if it has two operands and its enable rises. -/
theorem pulsed_of_exec (hi : i.isPulseOf id = true) (h : u.exec i = .ok v) :
    pulseKey id = .ok (pulseName id) ∧
      u.Pulsed id i (2 ≤ i.args.length ∧ u.peek = true ∧ u.edge (pulseName id) = false) v := by
  obtain ⟨ho, rfl⟩ : i.operation = .known (.coil .movePulse) ∧ i.id = id := by
    simpa [isPulseOf] using hi
  simp only [exec, ho, coil, movePulse] at h
  cases hkey : pulseKey i.id with
  | error fault =>
    rw [hkey] at h
    cases h
  | ok key =>
    obtain rfl : key = pulseName i.id := Instruction.pulseKey_eq_ok hkey
    simp only [hkey, bind, Except.bind] at h
    split at h
    · next hr =>
      have hmove := move_cases h
      refine ⟨rfl, fun hf => ?_, fun hf => ?_⟩
      · rw [if_pos hf.1] at hmove
        exact hmove
      · rw [if_neg fun hlen => hf ⟨hlen, rises_iff.1 hr⟩] at hmove
        exact hmove
    · next hr =>
      exact ⟨rfl, fun hf => absurd (rises_iff.2 hf.2) hr, fun _ => (Except.ok.inj h).symm⟩

theorem Pulsed.getElem?_edges {fires : Prop} (h : u.Pulsed id i fires v) :
    v.state.edges[pulseName id]? = some u.peek := by
  by_cases hf : fires
  · obtain ⟨n, -, rfl⟩ := h.1 hf
    exact Std.ExtTreeMap.getElem?_insert_self
  · rw [h.2 hf]
    exact Std.ExtTreeMap.getElem?_insert_self

end Scan

/-! ## Turns -/

namespace Turn

/-- In a turn whose program has one pulse move with an id, it fires if it has two operands, its enable
is on, and the enable remembered before the turn is off. After the turn its enable is remembered. -/
theorem exists_pulsed {t : Turn} {s next : State} {id : Int} (h : t.scan s = .ok next)
    (hone : t.program.countP (isPulseOf id) = 1) :
    ∃ u i v, t.reach? (isPulseOf id) s = some (u, i) ∧ u.exec i = .ok v ∧
      u.Pulsed id i
        (2 ≤ i.args.length ∧ u.peek = true ∧ s.edges.getD (pulseName id) false = false) v ∧
      next.edges[pulseName id]? = some u.peek := by
  obtain ⟨u, i, v, hreach, hi, hv, hframe⟩ := exists_reach h hone
  obtain ⟨hkey, hpulsed⟩ := Scan.pulsed_of_exec hi hv
  obtain ⟨hbefore, hafter⟩ := hframe (.edge (pulseName id)) fun j _ hj =>
    Instruction.not_writes_pulseName hkey hj
  -- inputs are bits and registers, so the entry is still the one from before the turn
  have hedge : u.edge (pulseName id) = s.edges.getD (pulseName id) false := by
    have hsame : u.state.edges[pulseName id]? = s.edges[pulseName id]? := hbefore
    simp only [Scan.edge_eq, Std.ExtTreeMap.getD_eq_getD_getElem?, hsame]
  refine ⟨u, i, v, hreach, hv, ?_, ?_⟩
  · rwa [← hedge]
  · have hsame : next.edges[pulseName id]? = v.state.edges[pulseName id]? := hafter
    rw [hsame, hpulsed.getElem?_edges]

/-- The pulse move with an id fires in the turn after `k` others: it has two operands, its enable is on,
and in the turn before it was off. -/
def Fires (id : Int) (turns : Nat → Turn) (states : Nat → State) (k : Nat) (i : Instruction) : Prop :=
  2 ≤ i.args.length ∧ isRising (isPulseOf id) (pulseName id) turns states k = true

variable {id : Int} {turns : Nat → Turn} {states : Nat → State} {n : Nat}

/-- **Pulse moves are pulses.** Let some turns follow one another without failing, each with inputs, a
time and a program of its own, and let every program have one pulse move with an id. Every turn comes to
it. It sets its register if it has two operands, its enable is on and its enable in the turn before was
off, and else it only remembers the enable. After the turn the enable in that turn is remembered. -/
theorem pulsed_of_lead (h : Lead turns states n)
    (hone : ∀ k < n, (turns k).program.countP (isPulseOf id) = 1) {k : Nat} (hk : k < n) :
    ∃ u i v, (turns k).reach? (isPulseOf id) (states k) = some (u, i) ∧ u.exec i = .ok v ∧
      u.Pulsed id i (Fires id turns states k i) v ∧
      (states (k + 1)).edges[pulseName id]? = some (enabled (isPulseOf id) turns states k) := by
  have hremembered : ∀ k < n,
      (states (k + 1)).edges[pulseName id]? = some (enabled (isPulseOf id) turns states k) := by
    intro k hk
    obtain ⟨u, i, -, hreach, -, -, hedge⟩ := exists_pulsed (h k hk) (hone k hk)
    rw [hedge, enabled_eq hreach]
  obtain ⟨u, i, v, hreach, hv, hpulsed, -⟩ := exists_pulsed (h k hk) (hone k hk)
  refine ⟨u, i, v, hreach, hv, ?_, hremembered k hk⟩
  rw [← enabled_eq hreach, getD_edges_eq_lastEnabled hremembered (Nat.le_of_lt hk)] at hpulsed
  simpa only [Fires, isRising, Bool.and_eq_true, Bool.not_eq_true'] using hpulsed

/-- A pulse move is run on a rise, again with its enable still on, then in front of its contact, where
the stack is empty, and at last behind its contact again. A counter counts in the same edges. -/
theorem pulsed_of_lead_moved :
    let program := Listing.parse "LD X0\nMOVP K7 D0\nOUT C0 K1"
    let turns : Nat → Turn := fun k =>
      if k = 0 then { program, bits := (∅ : Table Bool).insert "X0" true, dt := 100 }
      else if k = 2 then
        { program := program.reverse, registers := (∅ : Table Int).insert "D0" 1, dt := -5 }
      else { program, dt := 10 }
    let states := after turns {}
    Lead turns states 4 ∧ (∀ k < 4, (turns k).program.countP (isPulseOf 2) = 1) ∧
      (List.range 4).map (enabled (isPulseOf 2) turns states) = [true, true, false, true] ∧
      (List.range 4).map (isRising (isPulseOf 2) (pulseName 2) turns states) =
        [true, false, false, true] ∧
      (List.range 5).map (fun k => (states k).register "D0") = [0, 7, 7, 1, 7] ∧
      ∀ k < 4, ∃ u i v, (turns k).reach? (isPulseOf 2) (states k) = some (u, i) ∧ u.exec i = .ok v ∧
        u.Pulsed 2 i (Fires 2 turns states k i) v ∧
        (states (k + 1)).edges[pulseName 2]? = some (enabled (isPulseOf 2) turns states k) := by
  intro program turns states
  have hlead : Lead turns states 4 := lead_after (by decide)
  have hone : ∀ k < 4, (turns k).program.countP (isPulseOf 2) = 1 := by decide
  exact ⟨hlead, hone, by decide, by decide, by decide, fun k hk => pulsed_of_lead hlead hone hk⟩

end Turn
end LadderLogic
