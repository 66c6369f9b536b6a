import LadderLogic.Listing
import LadderLogic.Proofs.Outcomes
import Mathlib.Algebra.Order.Floor.Ring
import Mathlib.Data.Rat.Floor
import Mathlib.Order.Bounds.Defs

/-!
# Counting the scans of a run

A session runs until a time has passed, or until a state has a property. Both are loops that look at
the state which the last scan has left, and the loop for a time has a second way out, for a scan that
takes no time. `RunsToward` says by rules how that loop ends and after how many scans, without the bound
under which `Session.runToward` computes it.

In a fixed step each scan adds the same time (`elapsed_of_step`). Main statement: each of these runs is
a run of so many scans, where the number is known beforehand, or found by looking at the states that
runs of fewer scans leave. A scan that fails ends all of them in the same way.

Source: `LadderRunner.run_for` and `run_until` (section 2 of the specification).
-/

namespace LadderLogic
namespace Session

variable {s t : Session} {next : State} {reached : Int → Bool} {result : Except Fault State × Session}
  {n : Nat}

/-! ## One scan -/

/-- A scan of a program in a step that is no integer fails. -/
theorem step_fractionalStep (hmode : s.mode = .fractionalStep) (hne : s.program ≠ []) :
    ∃ fault, s.step.1 = .error fault := by
  have hempty : s.program.isEmpty = false := by simpa using hne
  unfold step scanTime
  simp only [hmode]
  split
  · exact ⟨_, rfl⟩
  · simp [hempty]

theorem state_of_step (h : s.step = (.ok next, t)) : t.state = next := by
  obtain ⟨u, -, ⟨_, he⟩ | ⟨-, he⟩ | ⟨_, _, _, -, -, -, -, he⟩⟩ := step_cases s
  · cases h.symm.trans he
  · cases h.symm.trans he
    rfl
  · cases h.symm.trans he
    rfl

/-- What a scan in a fixed step leaves alone, and the time that it adds. -/
theorem elapsed_of_step (hmode : s.mode ≠ .realtime) (h : s.step = (.ok next, t)) :
    t.program = s.program ∧ t.mode = s.mode ∧ t.dt = s.dt ∧
      t.state.elapsed = s.state.elapsed + (if s.program = [] then 0 else s.dt) := by
  obtain ⟨u, htimed, ⟨fault, he⟩ | ⟨hnil, he⟩ | ⟨dt, state, history, hdt, hscan, -, -, he⟩⟩ :=
    step_cases s
  · cases h.symm.trans he
  · cases h.symm.trans he
    rw [htimed.fixed hmode, if_pos hnil]
    exact ⟨rfl, rfl, rfl, (Int.add_zero _).symm⟩
  · cases h.symm.trans he
    rw [htimed.fixed hmode]
    refine ⟨rfl, rfl, rfl, ?_⟩
    rcases Program.scan_cases hscan with ⟨hnil, rfl⟩ | ⟨hne, ws, branches, -, rfl⟩
    · rw [if_pos hnil]
      exact (Int.add_zero _).symm
    · have hfixed : s.mode = .fixedStep := by
        cases hm : s.mode with
        | fixedStep => rfl
        | realtime => exact absurd hm hmode
        | fractionalStep =>
          obtain ⟨fault, hfault⟩ := step_fractionalStep hm hne
          rw [he] at hfault
          cases hfault
      rw [if_neg hne, ← hdt hfixed]
      exact congrArg (· + dt) (State.writeAll_others s.inputs ws).2.1

theorem runCycles_succ_of_ok (h : s.step = (.ok next, t)) (n : Nat) :
    s.runCycles (n + 1) = t.runCycles n := by
  rw [runCycles, h]

theorem runCycles_succ_of_error {fault : Fault} (h : s.step = (.error fault, t)) (n : Nat) :
    s.runCycles (n + 1) = (.error fault, t) := by
  rw [runCycles, h]

/-! ## Running for a time -/

/-- The loop that runs scans until the elapsed time is one that `reached` holds of, or a scan takes no
time: it ends after `n` scans with a result and a session. -/
inductive RunsToward (reached : Int → Bool) : Nat → Session → Except Fault State × Session → Prop where
  | reached {s : Session} : reached s.state.elapsed = true → RunsToward reached 0 s (.ok s.state, s)
  | failed {s t : Session} {fault : Fault} : reached s.state.elapsed = false →
      s.step = (.error fault, t) → RunsToward reached 1 s (.error fault, t)
  | stopped {s t : Session} {next : State} : reached s.state.elapsed = false →
      s.step = (.ok next, t) → t.state.elapsed = s.state.elapsed →
      RunsToward reached 1 s (.ok t.state, t)
  | scan {s t : Session} {next : State} {n : Nat} {result : Except Fault State × Session} :
      reached s.state.elapsed = false → s.step = (.ok next, t) →
      t.state.elapsed ≠ s.state.elapsed → RunsToward reached n t result →
      RunsToward reached (n + 1) s result

/-- The loop is computed under every bound that it stays below. -/
theorem RunsToward.runToward_eq (h : RunsToward reached n s result) {fuel : Nat} (hn : n < fuel) :
    s.runToward reached fuel = result := by
  obtain ⟨spare, rfl⟩ := Nat.exists_eq_add_of_lt hn
  clear hn
  induction h with
  | reached hr => rw [runToward, if_pos hr]
  | failed hr hstep => rw [runToward, if_neg (by rw [hr]; decide), hstep]
  | stopped hr hstep he =>
    rw [runToward, if_neg (by rw [hr]; decide), hstep]
    exact if_pos he
  | scan hr hstep hne _ ih =>
    rw [runToward, if_neg (by rw [hr]; decide), hstep, Nat.add_right_comm]
    exact (if_neg hne).trans ih

/-- A scan that takes no time is the last one. -/
theorem runsToward_of_stopped {target : Int} (hmode : s.mode ≠ .realtime)
    (hstop : s.dt = 0 ∨ s.program = []) (htarget : s.state.elapsed < target) :
    RunsToward (target ≤ ·) 1 s (s.runCycles 1) := by
  have hr : decide (target ≤ s.state.elapsed) = false := decide_eq_false (Int.not_le.2 htarget)
  rcases hstep : s.step with ⟨fault | next, t⟩
  · rw [runCycles_succ_of_error hstep]
    exact .failed hr hstep
  · rw [runCycles_succ_of_ok hstep]
    refine .stopped hr hstep ?_
    have hadd := (elapsed_of_step hmode hstep).2.2.2
    rcases hstop with hdt | hnil
    · rw [hadd, hdt, ite_self, Int.add_zero]
    · rw [hadd, if_pos hnil, Int.add_zero]

/-- If a time is reached by the last of `n` scans and by none before it, the loop runs them all, or up
to one that fails. -/
theorem exists_runsToward {target : Int} (hmode : s.mode ≠ .realtime) (hdt : 0 < s.dt)
    (hne : s.program ≠ []) (hlast : target ≤ s.state.elapsed + n * s.dt)
    (hbefore : 0 < n → s.state.elapsed + (n - 1) * s.dt < target) :
    ∃ m ≤ n, RunsToward (target ≤ ·) m s (s.runCycles n) := by
  induction n generalizing s with
  | zero => exact ⟨0, Nat.le_refl 0, .reached (decide_eq_true (by simpa using hlast))⟩
  | succ n ih =>
    have hbefore := hbefore n.succ_pos
    rw [Nat.cast_succ, Int.add_sub_cancel] at hbefore
    have hpast : 0 ≤ n * s.dt := Int.mul_nonneg (Int.natCast_nonneg n) (Int.le_of_lt hdt)
    have hr : decide (target ≤ s.state.elapsed) = false := decide_eq_false (by omega)
    rcases hstep : s.step with ⟨fault | next, t⟩
    · rw [runCycles_succ_of_error hstep]
      exact ⟨1, Nat.succ_le_succ (Nat.zero_le n), .failed hr hstep⟩
    · rw [runCycles_succ_of_ok hstep]
      obtain ⟨hprogram, htmode, htdt, hadd⟩ := elapsed_of_step hmode hstep
      rw [if_neg hne] at hadd
      rw [Nat.cast_succ, Int.add_mul, Int.one_mul] at hlast
      have hrest : 0 < n → t.state.elapsed + (n - 1) * t.dt < target := fun _ => by
        rw [hadd, htdt, Int.sub_mul, Int.one_mul]
        omega
      obtain ⟨m, hm, hruns⟩ := ih (htmode ▸ hmode) (htdt ▸ hdt) (hprogram ▸ hne)
        (by rw [hadd, htdt]; omega) hrest
      exact ⟨m + 1, Nat.succ_le_succ hm, .scan hr hstep (by omega) hruns⟩

/-- The number of scans that a fixed step takes until some milliseconds have passed. Where no time
passes one scan shows it. -/
def scansFor (s : Session) (ms : Int) : Int :=
  if ms ≤ 0 then 0 else if s.dt = 0 ∨ s.program = [] then 1 else ⌈(ms / s.dt : ℚ)⌉

theorem exists_runsToward_scansFor (hmode : s.mode ≠ .realtime) (hdt : 0 ≤ s.dt) (ms : Int) :
    ∃ m ≤ (s.scansFor ms).toNat,
      RunsToward (s.state.elapsed + ms ≤ ·) m s (s.run (s.scansFor ms)) := by
  unfold scansFor run
  split
  · next hms => exact ⟨0, Nat.le_refl 0, .reached (decide_eq_true (by omega))⟩
  next hms =>
  split
  · next hstop => exact ⟨1, Nat.le_refl 1, runsToward_of_stopped hmode hstop (by omega)⟩
  next hgo =>
  obtain ⟨hdt0, hne⟩ := not_or.1 hgo
  have hdt : 0 < s.dt := lt_of_le_of_ne hdt (Ne.symm hdt0)
  have hdtq : (0 : ℚ) < s.dt := Int.cast_pos.2 hdt
  have hpos : 0 < ⌈(ms / s.dt : ℚ)⌉ := Int.ceil_pos.2 (div_pos (Int.cast_pos.2 (by omega)) hdtq)
  have hcast : ((⌈(ms / s.dt : ℚ)⌉.toNat : Nat) : Int) = ⌈(ms / s.dt : ℚ)⌉ :=
    Int.toNat_of_nonneg hpos.le
  refine exists_runsToward hmode hdt hne ?_ fun _ => ?_
  · rw [hcast]
    have h := (div_le_iff₀ hdtq).1 (Int.le_ceil (ms / s.dt : ℚ))
    have : ms ≤ ⌈(ms / s.dt : ℚ)⌉ * s.dt := by exact_mod_cast h
    omega
  · rw [hcast]
    have h := (lt_div_iff₀ hdtq).1 (sub_lt_iff_lt_add.2 (Int.ceil_lt_add_one (ms / s.dt : ℚ)))
    have : (⌈(ms / s.dt : ℚ)⌉ - 1) * s.dt < ms := by exact_mod_cast h
    omega

/-- A fixed step takes a millisecond at least, or one scan is enough. -/
theorem scansFor_le (hdt : 0 ≤ s.dt) (ms : Int) : (s.scansFor ms).toNat ≤ ms.toNat := by
  unfold scansFor
  split
  · exact Nat.zero_le _
  next hms =>
  split
  · omega
  next hgo =>
  refine Int.toNat_le_toNat (Int.ceil_le.2 ?_)
  have hdt : 1 ≤ s.dt := by
    have := (not_or.1 hgo).1
    omega
  exact div_le_self (Int.cast_nonneg (by omega)) (by exact_mod_cast hdt)

theorem runFor_eq_run (hmode : s.mode ≠ .realtime) (hdt : 0 ≤ s.dt) (ms : Int) :
    s.runFor ms = s.run (s.scansFor ms) := by
  obtain ⟨m, hm, hruns⟩ := exists_runsToward_scansFor hmode hdt ms
  have hle := scansFor_le hdt ms
  exact hruns.runToward_eq (by omega)

/-! ## Running until a state has a property -/

/-- The first number from 1 to `n` that `P` holds of, or `n` if there is none. -/
def UntilFirst (P : Nat → Prop) (n k : Nat) : Prop :=
  IsLeast {j | 1 ≤ j ∧ j ≤ n ∧ P j} k ∨ (∀ j, 1 ≤ j → j ≤ n → ¬P j) ∧ k = n

variable {P : Nat → Prop} {k : Nat}

theorem untilFirst_one (h : P 1) (n : Nat) : UntilFirst P (n + 1) 1 :=
  .inl ⟨⟨Nat.le_refl 1, Nat.succ_le_succ (Nat.zero_le n), h⟩, fun _ hj => hj.1⟩

theorem UntilFirst.succ (h : UntilFirst (fun j => P (j + 1)) n k) (h₁ : ¬P 1) :
    UntilFirst P (n + 1) (k + 1) := by
  -- the number 1 is out, and all others come one later
  have hpred {j : Nat} (hj : 1 ≤ j) (hp : P j) : ∃ i, 1 ≤ i ∧ j = i + 1 := by
    have : j ≠ 1 := fun he => h₁ (he ▸ hp)
    exact ⟨j - 1, by omega, by omega⟩
  rcases h with ⟨⟨hk, hkn, hp⟩, hleast⟩ | ⟨hnone, rfl⟩
  · refine .inl ⟨⟨by omega, Nat.succ_le_succ hkn, hp⟩, fun j hj => ?_⟩
    obtain ⟨i, hi, rfl⟩ := hpred hj.1 hj.2.2
    exact Nat.succ_le_succ (hleast ⟨hi, Nat.le_of_succ_le_succ hj.2.1, hj.2.2⟩)
  · refine .inr ⟨fun j hj hjn hp => ?_, rfl⟩
    obtain ⟨i, hi, rfl⟩ := hpred hj hp
    exact hnone i hi (Nat.le_of_succ_le_succ hjn) hp

theorem exists_untilFirst (s : Session) (holds : State → Bool) (n : Nat) :
    ∃ k, s.runUntilWithin holds n = s.runCycles k ∧
      UntilFirst (fun j => holds (s.runCycles j).2.state = true) n k := by
  induction n generalizing s with
  | zero => exact ⟨0, rfl, .inr ⟨fun j hj hj0 => by omega, rfl⟩⟩
  | succ n ih =>
    rcases hstep : s.step with ⟨fault | next, t⟩
    · -- all further scans are left out, and the state stays as it is
      have hruns (j : Nat) := runCycles_succ_of_error hstep j
      have hrun : s.runUntilWithin holds (n + 1) = (.error fault, t) := by
        rw [runUntilWithin, hstep]
      by_cases ht : holds t.state = true
      · exact ⟨1, by rw [hrun, hruns], untilFirst_one (by rw [hruns]; exact ht) n⟩
      · refine ⟨n + 1, by rw [hrun, hruns], .inr ⟨fun j hj _ => ?_, rfl⟩⟩
        obtain ⟨i, rfl⟩ := Nat.exists_eq_add_of_le' hj
        simpa only [hruns] using ht
    · have hruns (j : Nat) := runCycles_succ_of_ok hstep j
      obtain rfl := state_of_step hstep
      by_cases ht : holds t.state = true
      · refine ⟨1, ?_, untilFirst_one (by rw [hruns]; exact ht) n⟩
        rw [runUntilWithin, hstep, hruns]
        exact if_pos ht
      · obtain ⟨k, hk, hfirst⟩ := ih t
        simp only [← hruns] at hfirst
        refine ⟨k + 1, ?_, hfirst.succ (by rw [hruns]; exact ht)⟩
        rw [runUntilWithin, hstep, hruns, ← hk]
        exact if_neg ht

/-- **Runs are runs of so many scans.** In a fixed step, running for a time ends, and leaves all of the
session as a known number of scans does: none if there is no time to pass, one if no scan takes time,
and otherwise the least number of steps that make up the time. Running until a state has a property
leaves all of the session as a number of scans does: the first one after which the state has the
property, or all that are allowed. -/
theorem runs_eq_run (hmode : s.mode ≠ .realtime) (hdt : 0 ≤ s.dt) :
    (∀ ms, (∃ n ≤ (s.scansFor ms).toNat,
        RunsToward (s.state.elapsed + ms ≤ ·) n s (s.runFor ms)) ∧
      s.runFor ms = s.run (s.scansFor ms)) ∧
    ∀ holds cycles, ∃ k : Nat, s.runUntil holds cycles = s.run k ∧
      UntilFirst (fun j => holds (s.run j).2.state = true) cycles.toNat k := by
  refine ⟨fun ms => ?_, fun holds cycles => ?_⟩
  · have hrun := runFor_eq_run hmode hdt ms
    rw [hrun]
    exact ⟨exists_runsToward_scansFor hmode hdt ms, rfl⟩
  · exact exists_untilFirst s holds cycles.toNat

/-- A session that retains two states and has an input in its queue runs for two and a half steps, which
are three scans, and until its program has set an output. -/
theorem runs_eq_run_evicting :
    ∃ s, start (Listing.parse "LD X0\nOUT Y0") {} (some 2) {} = .ok s ∧
      let t := (s.enter [("X0", .bool true)] []).2
      t.mode ≠ .realtime ∧ 0 ≤ t.dt ∧ t.scansFor 250 = 3 ∧ t.runFor 250 = t.run 3 ∧
        ∃ k : Nat, t.runUntil (·.bit "Y0") 5 = t.run k ∧
          UntilFirst (fun j => (t.run j).2.state.bit "Y0" = true) 5 k := by
  refine ⟨_, rfl, ?_⟩
  intro t
  have hmode : t.mode ≠ .realtime := by decide
  have hdt : 0 ≤ t.dt := by decide
  have hcount : t.scansFor 250 = 3 := by
    have hstep : t.dt = 100 := rfl
    rw [scansFor, if_neg (by decide), if_neg (by decide), hstep, Int.ceil_eq_iff]
    norm_num
  obtain ⟨hfor, huntil⟩ := runs_eq_run hmode hdt
  exact ⟨hmode, hdt, hcount, hcount ▸ (hfor 250).2, huntil (·.bit "Y0") 5⟩

end Session
end LadderLogic
