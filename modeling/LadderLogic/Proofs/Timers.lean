import LadderLogic.Proofs.Steps
import Mathlib.Algebra.BigOperators.Intervals
import Mathlib.Order.Bounds.Basic

/-!
# On-delay timers

A timer that one output coil drives, and that nothing else writes, measures how long the coil has been
enabled without a break. In one turn it gets the time of the turn if the coil is enabled, and is cleared
if not (`exists_timed`). So after some turns it holds the times of the last block of turns with the coil
enabled, together with what it held at the start if the block goes back so far (`exists_elapsed`), and
it is done exactly if that has reached the preset (`timer_of_lead`).

Source: output coils on timers in `step` (section 4.2 of the specification).
-/

namespace LadderLogic

/-! ## Coils that drive a device -/

namespace Instruction

/-- Whether an instruction is an output coil for a device. -/
def isOutTo (name : Text) (i : Instruction) : Bool :=
  i.operation = .known (.coil .out) && i.value = name

theorem isOutTo_iff {name : Text} {i : Instruction} :
    i.isOutTo name = true ↔ i.operation = .known (.coil .out) ∧ i.value = name := by
  simp [isOutTo]

theorem IsCoil.mono {i : Instruction} {coils coils' : List Coil} (h : i.IsCoil coils)
    (hsub : coils ⊆ coils') : i.IsCoil coils' := by
  obtain ⟨c, hc, ho⟩ := h
  exact ⟨c, hsub hc, ho⟩

end Instruction

open Instruction (isOutTo)

/-- A program drives a device by one output coil, and has no set or reset coil for it. -/
structure Program.Drives (program : Program) (name : Text) : Prop where
  once : program.countP (isOutTo name) = 1
  alone : ∀ i ∈ program, i.IsCoil [.set, .reset] → i.value ≠ name

/-- No coil but the one that drives a device is an output, set or reset coil for it. -/
theorem Program.Drives.not_isCoil {program : Program} {name : Text} (h : program.Drives name)
    {j : Instruction} (hj : j ∈ program) (hother : j.isOutTo name = false) :
    ¬(j.IsCoil [.out, .set, .reset] ∧ j.value = name) := by
  rintro ⟨⟨c, hc, ho⟩, hvalue⟩
  rcases List.mem_cons.1 hc with rfl | hc
  · exact Bool.eq_false_iff.1 hother (Instruction.isOutTo_iff.2 ⟨ho, hvalue⟩)
  · exact h.alone j hj ⟨c, hc, ho⟩ hvalue

/-- The bit and the time of a device are written by the coil that drives it alone. -/
theorem Program.Drives.not_writes {program : Program} {name : Text} (h : program.Drives name)
    {j : Instruction} (hj : j ∈ program) (hother : j.isOutTo name = false) :
    ¬j.Writes (.bit name) ∧ ¬j.Writes (.timer name) := by
  refine ⟨h.not_isCoil hj hother, ?_⟩
  rintro ⟨hcoil, hvalue, -⟩
  exact h.not_isCoil hj hother ⟨hcoil.mono (by simp), hvalue⟩

/-! ## One turn -/

namespace Scan

/-- The time of a scan is the same from its first instruction to its last. -/
theorem dt_of_reach? {s u : Scan} {kind : Instruction → Bool} {program : Program} {i : Instruction}
    (h : s.reach? kind program = some (u, i)) : u.dt = s.dt := by
  induction program generalizing s with
  | nil => cases h
  | cons j rest ih =>
    rw [reach?] at h
    split at h
    · obtain ⟨rfl, -⟩ := Prod.mk.inj (Option.some.inj h)
      rfl
    · cases hj : s.exec j with
      | error fault =>
        rw [hj] at h
        cases h
      | ok next =>
        rw [hj] at h
        obtain ⟨e, rfl, -⟩ := exec_cases hj
        rw [ih h, dt_after]

end Scan

namespace Turn

variable {name : Text} {turns : Nat → Turn} {states : Nat → State} {n : Nat}

/-- In a turn whose program drives a timer, the timer gets the time of the turn if its coil is enabled,
and is done from its preset on. If the coil is not enabled, the timer is cleared. -/
theorem exists_timed {t : Turn} {s next : State} (hf : Family.ofName name = .timer)
    (h : t.scan s = .ok next) (hd : t.program.Drives name) :
    ∃ u i, t.reach? (isOutTo name) s = some (u, i) ∧
      ((u.peek = false ∧ next.timers[name]? = some 0 ∧ next.bits[name]? = some false) ∨
      (u.peek = true ∧ ∃ p, u.resolve (i.arg 1 []) = .ok p ∧
        next.timers[name]? = some (s.timers.getD name 0 + t.dt) ∧
        next.bits[name]? = some (decide (100 * p ≤ s.timers.getD name 0 + t.dt)))) := by
  obtain ⟨u, i, v, hreach, hi, hv, hframe⟩ := exists_reach h hd.once
  obtain ⟨ho, rfl⟩ := Instruction.isOutTo_iff.1 hi
  have htimers := hframe (.timer i.value) fun j hj hother => (hd.not_writes hj hother).2
  have hbits := (hframe (.bit i.value) fun j hj hother => (hd.not_writes hj hother).1).2
  -- inputs are bits and registers, so the timer is as the turn before has left it
  have htimer : u.timer i.value = s.timers.getD i.value 0 := by
    have hsame : u.state.timers[i.value]? = s.timers[i.value]? := htimers.1
    simp only [Scan.timer_eq, Std.ExtTreeMap.getD_eq_getD_getElem?, hsame]
  have hafter : next.timers[i.value]? = v.state.timers[i.value]? := htimers.2
  have hbit : next.bits[i.value]? = v.state.bits[i.value]? := hbits
  have hdt : u.dt = t.dt := Scan.dt_of_reach? hreach
  have hout : u.outTimer i.value (u.resolve (i.arg 1 [])) = .ok v := by
    simpa only [Scan.exec, ho, Scan.coil, Scan.out, hf] using hv
  refine ⟨u, i, hreach, ?_⟩
  rw [hafter, hbit, ← htimer, ← hdt]
  rcases Scan.outTimer_cases hout with ⟨hpeek, rfl⟩ | ⟨hpeek, p, hp, rfl⟩
  · exact .inl ⟨hpeek, Std.ExtTreeMap.getElem?_insert_self, Std.ExtTreeMap.getElem?_insert_self⟩
  · exact .inr ⟨hpeek, p, hp, Std.ExtTreeMap.getElem?_insert_self, Std.ExtTreeMap.getElem?_insert_self⟩

/-! ## Many turns -/

/-- The timer from one turn to the next. -/
theorem getD_timers_succ (hf : Family.ofName name = .timer) (h : Lead turns states n)
    (hd : ∀ k < n, (turns k).program.Drives name) {k : Nat} (hk : k < n) :
    (states (k + 1)).timers.getD name 0 =
      if enabled (isOutTo name) turns states k then (states k).timers.getD name 0 + (turns k).dt
      else 0 := by
  obtain ⟨u, i, hreach, ⟨hpeek, htimer, -⟩ | ⟨hpeek, p, -, htimer, -⟩⟩ := exists_timed hf (h k hk) (hd k hk)
  · rw [enabled_eq hreach, hpeek, Std.ExtTreeMap.getD_eq_getD_getElem?, htimer]
    rfl
  · rw [enabled_eq hreach, hpeek, Std.ExtTreeMap.getD_eq_getD_getElem?, htimer]
    rfl

/-- After some turns the timer holds the times of the last block of turns in which its coil is enabled,
and what it held at first if these are all turns. -/
theorem exists_elapsed (hf : Family.ofName name = .timer) (h : Lead turns states n)
    (hd : ∀ k < n, (turns k).program.Drives name) :
    ∃ j, IsLeast {j | ∀ k, j ≤ k → k < n → enabled (isOutTo name) turns states k = true} j ∧
      (states n).timers.getD name 0 =
        (if j = 0 then (states 0).timers.getD name 0 else 0) + ∑ k ∈ Finset.Ico j n, (turns k).dt := by
  induction n with
  | zero => exact ⟨0, ⟨fun k _ hk => absurd hk (Nat.not_lt_zero k), fun j _ => Nat.zero_le j⟩, by simp⟩
  | succ n ih =>
    have hstep := getD_timers_succ hf h hd (Nat.lt_succ_self n)
    by_cases he : enabled (isOutTo name) turns states n = true
    · -- the block goes on
      obtain ⟨j, ⟨hblock, hleast⟩, htimer⟩ :=
        ih (fun k hk => h k (Nat.lt_succ_of_lt hk)) fun k hk => hd k (Nat.lt_succ_of_lt hk)
      have hjn : j ≤ n := hleast fun k hnk hkn => absurd hkn (Nat.not_lt.2 hnk)
      refine ⟨j, ⟨fun k hjk hk => ?_, fun j' hj' => hleast fun k hk hkn => ?_⟩, ?_⟩
      · rcases Nat.lt_succ_iff_lt_or_eq.1 hk with hlt | rfl
        · exact hblock k hjk hlt
        · exact he
      · exact hj' k hk (Nat.lt_succ_of_lt hkn)
      · rw [hstep, if_pos he, htimer, Finset.sum_Ico_succ_top hjn, Int.add_assoc]
    · -- the block is empty, and begins behind this turn
      refine ⟨n + 1, ⟨fun k hnk hk => absurd hk (Nat.not_lt.2 hnk), fun j' hj' => ?_⟩, ?_⟩
      · by_contra hlt
        exact he (hj' n (Nat.le_of_lt_succ (Nat.not_le.1 hlt)) (Nat.lt_succ_self n))
      · rw [hstep, if_neg he, if_neg (Nat.succ_ne_zero n), Finset.Ico_self, Finset.sum_empty]
        rfl

/-- **On-delay timers.** Let some turns follow one another without failing, each with inputs and a time
of its own, and let their programs drive a timer. If its coil is not enabled in the last turn, the timer
is zero after it and not done. Else it holds the times of the longest block of turns up to the last with
the coil enabled, and what it held at first if these are all turns. It is done exactly if that is at
least the preset, which is the second operand as it is found in the last turn, in units of 100 ms. -/
theorem timer_of_lead (hf : Family.ofName name = .timer) (h : Lead turns states (n + 1))
    (hd : ∀ k ≤ n, (turns k).program.Drives name) :
    ∃ u i, (turns n).reach? (isOutTo name) (states n) = some (u, i) ∧
      (enabled (isOutTo name) turns states n = false →
        (states (n + 1)).timers[name]? = some 0 ∧ (states (n + 1)).bits[name]? = some false) ∧
      (enabled (isOutTo name) turns states n = true →
        ∃ j p elapsed,
          IsLeast {j | ∀ k, j ≤ k → k ≤ n → enabled (isOutTo name) turns states k = true} j ∧
          elapsed = (if j = 0 then (states 0).timers.getD name 0 else 0) +
            ∑ k ∈ Finset.Icc j n, (turns k).dt ∧
          u.resolve (i.arg 1 []) = .ok p ∧
          (states (n + 1)).timers[name]? = some elapsed ∧
          (states (n + 1)).bits[name]? = some (decide (100 * p ≤ elapsed))) := by
  have hdrives : ∀ k < n + 1, (turns k).program.Drives name := fun k hk => hd k (Nat.le_of_lt_succ hk)
  obtain ⟨u, i, hreach, hcases⟩ := exists_timed hf (h n (Nat.lt_succ_self n)) (hd n (Nat.le_refl n))
  refine ⟨u, i, hreach, fun he => ?_, fun he => ?_⟩
  · rw [enabled_eq hreach] at he
    rcases hcases with ⟨-, hcleared⟩ | ⟨hpeek, -⟩
    · exact hcleared
    · cases hpeek.symm.trans he
  · rw [enabled_eq hreach] at he
    rcases hcases with ⟨hpeek, -⟩ | ⟨-, p, hp, htimer, hbit⟩
    · cases hpeek.symm.trans he
    · obtain ⟨j, hleast, helapsed⟩ := exists_elapsed hf h hdrives
      simp only [Nat.lt_succ_iff] at hleast
      rw [Finset.Ico_add_one_right_eq_Icc] at helapsed
      rw [Std.ExtTreeMap.getD_eq_getD_getElem?, htimer, Option.getD_some] at helapsed
      exact ⟨j, p, _, hleast, helapsed, hp, htimer, hbit⟩

/-- A timer whose preset is moved to a register in front of it and changed behind it. It has run for
40 ms at first, goes on for two turns and is done, is cleared, and starts over. -/
theorem timer_of_lead_restarted :
    let program := Listing.parse "LD X0\nMOV K2 D5\nOUT T0 D5\nLD T0\nMOV K9 D5"
    let turns : Nat → Turn := fun k =>
      { program, bits := (∅ : Table Bool).insert "X0" (k != 2), dt := 100 + 50 * k }
    let states := after turns { timers := (∅ : Table Int).insert "T0" 40 }
    Family.ofName "T0" = .timer ∧ Lead turns states 4 ∧ (∀ k ≤ 3, (turns k).program.Drives "T0") ∧
      (List.range 4).map (fun k => enabled (isOutTo "T0") turns states k) = [true, true, false, true] ∧
      (List.range 5).map (fun k => (states k).timers.getD "T0" 0) = [40, 140, 290, 0, 250] ∧
      (List.range 5).map (fun k => (states k).bit "T0") = [false, false, true, false, true] ∧
      ∃ u i, (turns 3).reach? (isOutTo "T0") (states 3) = some (u, i) ∧
        ∃ j p elapsed,
          IsLeast {j | ∀ k, j ≤ k → k ≤ 3 → enabled (isOutTo "T0") turns states k = true} j ∧
          elapsed = (if j = 0 then (states 0).timers.getD "T0" 0 else 0) +
            ∑ k ∈ Finset.Icc j 3, (turns k).dt ∧
          u.resolve (i.arg 1 []) = .ok p ∧
          (states 4).timers[Text.ofString "T0"]? = some elapsed ∧
          (states 4).bits[Text.ofString "T0"]? = some (decide (100 * p ≤ elapsed)) := by
  intro program turns states
  have hf : Family.ofName "T0" = .timer := by decide
  have hlead : Lead turns states 4 := lead_after (by decide)
  have hdrives : program.Drives "T0" := ⟨by decide, by decide⟩
  have henabled : (List.range 4).map (fun k => enabled (isOutTo "T0") turns states k) =
      [true, true, false, true] := by decide
  refine ⟨hf, hlead, fun k _ => hdrives, henabled, by decide, by decide, ?_⟩
  obtain ⟨u, i, hreach, -, htrue⟩ := timer_of_lead (n := 3) hf hlead fun k _ => hdrives
  exact ⟨u, i, hreach, htrue (by decide)⟩

end Turn
end LadderLogic
