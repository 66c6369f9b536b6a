import LadderLogic.Proofs.Timers
import Mathlib.Data.Nat.Count

/-!
# Counters

A counter that one output coil drives, and that nothing else writes, counts the rises of the coil's
enable. In one turn it counts if the enable is on and the one remembered is off, and then its bit is set
from the preset on (`exists_counted`). The enable that is remembered is the one of the turn before
(`getElem?_edges_succ`), so the count is that of the rising edges, up to the limit
(`getD_counters_eq_min`). The bit is never cleared, and only a rising edge can set it (`bit_iff`).

Source: output coils on counters in `step` (section 4.2 of the specification).
-/

namespace LadderLogic

open Instruction (isOutTo)

/-- The count and the remembered enable of a counter are written by the coil that drives it alone. -/
theorem Program.Drives.not_counts {program : Program} {name : Text} (h : program.Drives name)
    (hf : Family.ofName name = .counter) {j : Instruction} (hj : j ∈ program)
    (hother : j.isOutTo name = false) : ¬j.Writes (.counter name) ∧ ¬j.Writes (.edge name) := by
  have hcoil : ¬(j.IsCoil [.out, .reset] ∧ j.value = name) := fun hc =>
    h.not_isCoil hj hother ⟨hc.1.mono (by simp), hc.2⟩
  refine ⟨fun hw => hcoil ⟨hw.1, hw.2.1⟩, ?_⟩
  rintro (hw | ⟨-, hkey⟩)
  · exact hcoil ⟨hw.1, hw.2.1⟩
  · -- the name of a pulse move is no name of a counter
    cases (Family.ofName_pulseKey hkey).symm.trans hf

namespace Turn

variable {name : Text} {turns : Nat → Turn} {states : Nat → State} {n : Nat}

/-! ## One turn -/

/-- In a turn whose program drives a counter, the enable of its coil is remembered. If it is on and the
one remembered before is off, the counter counts, and its bit is set from the preset on. Else the count
and the bit stay. -/
theorem exists_counted {t : Turn} {s next : State} (hf : Family.ofName name = .counter)
    (h : t.scan s = .ok next) (hd : t.program.Drives name) (hbits : name ∉ t.bits) :
    ∃ u i, t.reach? (isOutTo name) s = some (u, i) ∧ next.edges[name]? = some u.peek ∧
      (((u.peek && !s.edges.getD name false) = false ∧
        next.counters[name]? = s.counters[name]? ∧ next.bits[name]? = s.bits[name]?) ∨
      ((u.peek && !s.edges.getD name false) = true ∧ ∃ p count, u.resolve (i.arg 1 []) = .ok p ∧
        count = min (s.counters.getD name 0 + 1) Scan.countLimit ∧
        next.counters[name]? = some count ∧
        next.bits[name]? = if p ≤ count then some true else s.bits[name]?)) := by
  obtain ⟨u, i, v, hreach, hi, hv, hframe⟩ := exists_reach h hd.once
  obtain ⟨ho, rfl⟩ := Instruction.isOutTo_iff.1 hi
  obtain ⟨hbefore, hbit⟩ := hframe (.bit i.value) fun j hj hother => (hd.not_writes hj hother).1
  obtain ⟨hcounters, hcounter⟩ :=
    hframe (.counter i.value) fun j hj hother => (hd.not_counts hf hj hother).1
  obtain ⟨hedges, hedge⟩ := hframe (.edge i.value) fun j hj hother => (hd.not_counts hf hj hother).2
  simp only [State.SameAt] at hbefore hbit hcounters hcounter hedges hedge
  -- the inputs do not name the bit, so all three entries are as the turn before has left them
  replace hbefore : u.state.bits[i.value]? = s.bits[i.value]? :=
    hbefore.trans (Std.ExtTreeMap.getElem?_union_of_not_mem_right hbits)
  replace hcounters : u.state.counters[i.value]? = s.counters[i.value]? := hcounters
  replace hedges : u.state.edges[i.value]? = s.edges[i.value]? := hedges
  have hrises : u.rises i.value u.peek = (u.peek && !s.edges.getD i.value false) := by
    simp only [Scan.rises_eq, Std.ExtTreeMap.getD_eq_getD_getElem?, hedges]
  have hcount : u.counter i.value = s.counters.getD i.value 0 := by
    simp only [Scan.counter_eq, Std.ExtTreeMap.getD_eq_getD_getElem?, hcounters]
  have hout : u.outCounter i.value (u.resolve (i.arg 1 [])) = .ok v := by
    simpa only [Scan.exec, ho, Scan.coil, Scan.out, hf] using hv
  refine ⟨u, i, hreach, ?_⟩
  rw [hbit, hcounter, hedge, ← hbefore, ← hcounters, ← hrises, ← hcount]
  rcases Scan.outCounter_cases hout with ⟨hsame, rfl⟩ | ⟨hrise, p, count, counted, hp, hmin, rfl, rfl⟩
  · exact ⟨Std.ExtTreeMap.getElem?_insert_self, .inl ⟨hsame, rfl, rfl⟩⟩
  · refine ⟨?_, .inr ⟨hrise, p, count, hp, hmin, ?_, ?_⟩⟩
    · split <;> exact Std.ExtTreeMap.getElem?_insert_self
    · split <;> exact Std.ExtTreeMap.getElem?_insert_self
    · split
      · exact Std.ExtTreeMap.getElem?_insert_self
      · rfl

/-! ## Many turns -/

/-- The preset of the coil for a device in a turn: its second operand, as it is found where the turn comes
to the coil. -/
def preset? (name : Text) (turns : Nat → Turn) (states : Nat → State) (k : Nat) : Option Int :=
  ((turns k).reach? (isOutTo name) (states k)).bind fun found =>
    (found.1.resolve (found.2.arg 1 [])).toOption

section Lead

variable (hf : Family.ofName name = .counter) (h : Lead turns states n)
  (hd : ∀ k < n, (turns k).program.Drives name) (hbits : ∀ k < n, name ∉ (turns k).bits)

include hf h hd hbits

/-- Every turn remembers the enable of the coil. -/
theorem getElem?_edges_succ {k : Nat} (hk : k < n) :
    (states (k + 1)).edges[name]? = some (enabled (isOutTo name) turns states k) := by
  obtain ⟨u, i, hreach, hedge, -⟩ := exists_counted hf (h k hk) (hd k hk) (hbits k hk)
  rw [hedge, enabled_eq hreach]

/-- A counter from one turn to the next: on a rising edge it counts, and its bit is set from the preset
on, which has a value there. Else nothing changes. -/
theorem counted_succ {k : Nat} (hk : k < n) :
    (isRising (isOutTo name) name turns states k = false ∧
      (states (k + 1)).counters.getD name 0 = (states k).counters.getD name 0 ∧
      (states (k + 1)).bit name = (states k).bit name) ∨
    (isRising (isOutTo name) name turns states k = true ∧ ∃ p, preset? name turns states k = some p ∧
      (states (k + 1)).counters.getD name 0 =
        min ((states k).counters.getD name 0 + 1) Scan.countLimit ∧
      (states (k + 1)).bit name =
        (decide (p ≤ (states (k + 1)).counters.getD name 0) || (states k).bit name)) := by
  obtain ⟨u, i, hreach, -, hcases⟩ := exists_counted hf (h k hk) (hd k hk) (hbits k hk)
  rw [getD_edges_eq_lastEnabled (fun _ => getElem?_edges_succ hf h hd hbits) (Nat.le_of_lt hk),
    ← enabled_eq hreach] at hcases
  simp only [State.bit, Std.ExtTreeMap.getD_eq_getD_getElem?] at hcases ⊢
  rcases hcases with ⟨hsame, hcount, hbit⟩ | ⟨hrise, p, count, hp, rfl, hcount, hbit⟩
  · exact .inl ⟨hsame, by rw [hcount], by rw [hbit]⟩
  · refine .inr ⟨hrise, p, by rw [preset?, hreach, Option.bind_some, hp]; rfl, by rw [hcount]; rfl, ?_⟩
    rw [hcount, hbit, Option.getD_some]
    split
    · next hle => rw [decide_eq_true hle]; rfl
    · next hle => rw [decide_eq_false hle]; rfl

/-- The count after some turns is that at first and the number of rising edges together, but at most the
limit. -/
theorem getD_counters_eq_min (hc : (states 0).counters.getD name 0 ≤ Scan.countLimit) {k : Nat}
    (hk : k ≤ n) :
    (states k).counters.getD name 0 =
      min ((states 0).counters.getD name 0 + Nat.count (isRising (isOutTo name) name turns states ·) k)
        Scan.countLimit := by
  induction k with
  | zero => simp [hc]
  | succ k ih =>
    have hstep := counted_succ hf h hd hbits hk
    rw [ih (Nat.le_of_lt hk)] at hstep
    rw [Nat.count_succ]
    rcases hstep with ⟨hsame, hcount, -⟩ | ⟨hrise, p, -, hcount, -⟩
    · rw [hcount, if_neg (Bool.eq_false_iff.1 hsame), Nat.add_zero]
    · rw [hcount, if_pos hrise]
      push_cast
      omega

/-- The bit of the counter is on if it was at first, or if some rising edge has found the count at its
preset or beyond. -/
theorem bit_iff {k : Nat} (hk : k ≤ n) :
    (states k).bit name = true ↔ (states 0).bit name = true ∨
      ∃ j < k, isRising (isOutTo name) name turns states j = true ∧
        ∃ p, preset? name turns states j = some p ∧ p ≤ (states (j + 1)).counters.getD name 0 := by
  induction k with
  | zero => simp
  | succ k ih =>
    rw [Nat.exists_lt_succ_right, ← or_assoc, ← ih (Nat.le_of_lt hk)]
    rcases counted_succ hf h hd hbits hk with ⟨hsame, -, hbit⟩ | ⟨hrise, p, hp, -, hbit⟩
    · simp [hbit, hsame]
    · simp [hbit, hrise, hp, or_comm]

end Lead

/-- **Counters.** Let some turns follow one another without failing, each with inputs that do not name the
bit of a counter and with a time of its own, and let their programs drive the counter. Every turn comes to
its coil and remembers the enable there, and on every rising edge the preset has a value. After the turns
the count is that at first and the number of rising edges together, but at most 2147483647. The enable in
the last turn is remembered. The bit is on exactly if it was at first, or if on some rising edge the count
had come to the preset, which is the second operand as it was found in that turn. -/
theorem counter_of_lead (hf : Family.ofName name = .counter) (h : Lead turns states n)
    (hd : ∀ k < n, (turns k).program.Drives name) (hbits : ∀ k < n, name ∉ (turns k).bits)
    (hc : (states 0).counters.getD name 0 ≤ 2147483647) :
    let rises (k : Nat) : Nat := Nat.count (isRising (isOutTo name) name turns states ·) k
    (∀ k < n, (∃ u i, (turns k).reach? (isOutTo name) (states k) = some (u, i) ∧
        (states (k + 1)).edges[name]? = some u.peek) ∧
      (isRising (isOutTo name) name turns states k = true → ∃ p, preset? name turns states k = some p)) ∧
    (states n).counters.getD name 0 = min ((states 0).counters.getD name 0 + rises n) 2147483647 ∧
    (states n).edges.getD name false = lastEnabled (isOutTo name) name turns states n ∧
    ((states n).bit name = true ↔ (states 0).bit name = true ∨
      ∃ k < n, isRising (isOutTo name) name turns states k = true ∧ ∃ p, preset? name turns states k = some p ∧
        p ≤ min ((states 0).counters.getD name 0 + rises (k + 1)) 2147483647) := by
  intro rises
  refine ⟨fun k hk => ⟨?_, fun hrise => ?_⟩, getD_counters_eq_min hf h hd hbits hc (Nat.le_refl n),
    getD_edges_eq_lastEnabled (fun _ => getElem?_edges_succ hf h hd hbits) (Nat.le_refl n), ?_⟩
  · obtain ⟨u, i, hreach, hedge, -⟩ := exists_counted hf (h k hk) (hd k hk) (hbits k hk)
    exact ⟨u, i, hreach, hedge⟩
  · rcases counted_succ hf h hd hbits hk with ⟨hsame, -⟩ | ⟨-, p, hp, -⟩
    · cases hsame.symm.trans hrise
    · exact ⟨p, hp⟩
  · rw [bit_iff hf h hd hbits (Nat.le_refl n)]
    refine or_congr_right (exists_congr fun k => and_congr_right fun hk => ?_)
    rw [getD_counters_eq_min hf h hd hbits hc hk]
    rfl

/-- A counter one below its limit, whose enable is remembered as on, and whose preset is set by the first
rung: it does not count at first, then reaches the limit, which is below the preset of that turn, and at
last stays at the limit, which is above the preset of then. A second counter and a pulse move remember
their enables too. -/
theorem counter_of_lead_saturated :
    let program := Listing.parse
      "LD X1\nMOV D6 D5\nLD X0\nOUT C0 D5\nMOVP K1 D7\nOUT C1 K9\nLD C0\nRST C1\nMOV K0 D5"
    let turns : Nat → Turn := fun k =>
      { program, bits := ((∅ : Table Bool).insert "X0" (k % 2 == 0)).insert "X1" true,
        registers := (∅ : Table Int).insert "D6" (2147483650 - k), dt := 10 * k }
    let states := after turns
      { counters := (∅ : Table Int).insert "C0" 2147483646, edges := (∅ : Table Bool).insert "C0" true }
    Family.ofName "C0" = .counter ∧ Lead turns states 5 ∧ (∀ k < 5, (turns k).program.Drives "C0") ∧
      (∀ k < 5, Text.ofString "C0" ∉ (turns k).bits) ∧
      (List.range 5).map (isRising (isOutTo "C0") "C0" turns states) = [false, false, true, false, true] ∧
      (List.range 5).map (preset? "C0" turns states) =
        [some 2147483650, some 2147483649, some 2147483648, some 2147483647, some 2147483646] ∧
      (List.range 6).map (fun k => (states k).bit "C0") = [false, false, false, false, false, true] ∧
      (states 5).counters.getD "C0" 0 =
        min ((states 0).counters.getD "C0" 0 + Nat.count (isRising (isOutTo "C0") "C0" turns states ·) 5)
          2147483647 := by
  intro program turns states
  have hf : Family.ofName "C0" = .counter := by decide
  have hlead : Lead turns states 5 := lead_after (by decide)
  have hdrives : program.Drives "C0" := ⟨by decide, by decide⟩
  have hbits : ∀ k < 5, Text.ofString "C0" ∉ (turns k).bits := by decide
  have hcount := (counter_of_lead hf hlead (fun k _ => hdrives) hbits (by decide)).2.1
  exact ⟨hf, hlead, fun k _ => hdrives, hbits, by decide, by decide, by decide, hcount⟩

end Turn
end LadderLogic
