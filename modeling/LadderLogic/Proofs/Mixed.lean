import LadderLogic.Listing
import LadderLogic.Proofs.Agreement

/-!
# Programs that mix branches with joins and parallel contacts

The drawing keeps one stack of blocks and one of anchors, and the scan keeps a stack of truths and one
of branches. A read of a branch replaces the last block of the drawing, and adds a truth for the scan;
a bus hangs on all the wires that it crosses. So the two do not agree on every program in which each
join finds two blocks and each read a push (`WellFormed`). They do if the buses stay away from the
blocks that are joined and from the wires that are tied (`Untangled`): then every instruction is
admitted (`admitted_of_untangled`).

Source: `layout`, `energize` and `step` (section 4 of the specification).
-/

namespace LadderLogic

namespace Instruction

/-- Contacts that test bits, joins, branches and output coils. -/
def isPlain (i : Instruction) : Bool :=
  match i.operation with
  | .known (.contact _ test) => test ≠ .equal
  | .known (.block _) | .known (.branch _) | .known (.coil .out) => true
  | _ => false

/-- Whether an instruction joins two blocks. -/
def isJoin (i : Instruction) : Bool :=
  match i.operation with
  | .known (.block _) => true
  | _ => false

end Instruction

namespace Sheet

/-- The block whose pending rows an instruction ties: what goes on in series ties the last block, and
a join in series the block in front. -/
def tiedBlock? (s : Sheet) (i : Instruction) : Option Block :=
  match i.operation with
  | .known (.contact .series _) | .known (.coil _) | .known (.branch .push) => some s.block
  | .known (.block .series) => s.waiting.head?
  | _ => none

end Sheet

namespace Program

open Sheet

/-- Whether a program begins with a block, holds nothing but contacts that test bits, joins, branches
and output coils, and lets every join find two blocks and every read and pop a branch. -/
structure WellFormed (program : Program) : Prop where
  begins : program.BeginsBlock
  plain : ∀ i ∈ program, i.isPlain = true
  joins : ∀ n (h : n < program.length), program[n].isJoin = true →
    (sheet (program.take n)).waiting ≠ []
  drops : ∀ n (h : n < program.length), program[n].isDrop = true →
    (sheet (program.take n)).anchors ≠ []

/-- Whether the buses of a program stay away from its joins and ties. No branch is read into the
second block of a join. No branch is read whose push stands in the second block of a join in series.
No bus crosses a wire. No row that is tied ends in a bus. -/
structure Untangled (program : Program) : Prop where
  second : ∀ n (h : n < program.length), program[n].isJoin = true →
    ∀ f ∈ (outline (program.take n)).frames.head?, f.read = false
  pushed : ∀ n (h : n < program.length), program[n].isDrop = true →
    ∀ k ∈ (outline (program.take n)).pushes.head?, ∀ g ∈ (outline (program.take n)).gates,
      ¬(g.1 ≤ k ∧ k < g.2)
  clear : ∀ n (h : n < program.length), program[n].isDrop = true →
    ∀ p ∈ (sheet (program.take n)).anchors.head?, BusClear (sheet (program.take n)).rows p.1 p.2
  ties : ∀ n (h : n < program.length), ∀ b ∈ (sheet (program.take n)).tiedBlock? program[n],
    TiesFree (sheet (program.take n)).rows b

instance (program : Program) : Decidable program.WellFormed :=
  decidable_of_iff (program.BeginsBlock ∧ (∀ i ∈ program, i.isPlain = true) ∧
    (∀ n (h : n < program.length), program[n].isJoin = true →
      (sheet (program.take n)).waiting ≠ []) ∧
    ∀ n (h : n < program.length), program[n].isDrop = true → (sheet (program.take n)).anchors ≠ [])
    ⟨fun h => ⟨h.1, h.2.1, h.2.2.1, h.2.2.2⟩, fun h => ⟨h.begins, h.plain, h.joins, h.drops⟩⟩

variable {program : Program}

theorem BeginsBlock.take (h : program.BeginsBlock) {n : Nat} (hn : 0 < n) :
    BeginsBlock (program.take n) := by
  obtain ⟨i, test, rest, rfl, hi⟩ := h
  obtain ⟨m, rfl⟩ := Nat.exists_eq_add_of_lt hn
  exact ⟨i, test, rest.take (0 + m), rfl, hi⟩

/-- The outline of what comes before an instruction is that of the sheet, except at the beginning. -/
theorem WellFormed.aligned (h : WellFormed program) {n : Nat} (hn : n ≠ 0) :
    Aligned (sheet (program.take n)) (outline (program.take n)) (program.take n).length :=
  aligned_sheet (h.begins.take (Nat.pos_of_ne_zero hn))

section Untangled

variable (hw : WellFormed program) (hu : Untangled program) {n : Nat} (hn : n < program.length)

include hw hu

theorem WellFormed.admits_join {j : Join} (hi : program[n].operation = .known (.block j)) :
    (sheet (program.take n)).admits (outline (program.take n)) program[n] = true := by
  have hjoin : program[n].isJoin = true := by rw [Instruction.isJoin, hi]
  have hne : n ≠ 0 := by
    rintro rfl
    exact hw.joins 0 hn hjoin rfl
  obtain ⟨a, waiting, hwait⟩ := List.exists_cons_of_ne_nil (hw.joins n hn hjoin)
  have hframes := (hw.aligned hne).frames
  rw [hwait] at hframes
  obtain ⟨f, fs, -, hfs, hf⟩ := List.forall₂_cons_right_iff.1 hframes
  obtain ⟨f', fs', -, -, rfl⟩ := List.forall₂_cons_right_iff.1 hfs
  have hread := hu.second n hn hjoin f (by rw [hf]; rfl)
  refine (Sheet.admits_join hi).2 ⟨f, f', fs', a, waiting, hf, hwait, hread, ?_⟩
  rintro rfl
  exact hu.ties n hn a (by rw [tiedBlock?, hi, hwait]; rfl)

theorem WellFormed.admits_branch {b : Branch} (hi : program[n].operation = .known (.branch b)) :
    (sheet (program.take n)).admits (outline (program.take n)) program[n] = true := by
  by_cases hb : b = .push
  · subst hb
    have hties := hu.ties n hn _ (by rw [tiedBlock?, hi]; rfl)
    simp [admits, hi, hties]
  · have hdrop : program[n].isDrop = true := by
      cases b <;> simp_all [Instruction.isDrop]
    have hne : n ≠ 0 := by
      rintro rfl
      exact hw.drops 0 hn hdrop rfl
    obtain ⟨⟨x, y⟩, anchors, ha⟩ := List.exists_cons_of_ne_nil (hw.drops n hn hdrop)
    have hpushes := (hw.aligned hne).pushes
    rw [ha] at hpushes
    obtain ⟨k, pushes, -, -, hk⟩ := List.forall₂_cons_right_iff.1 hpushes
    have hgates := hu.pushed n hn hdrop k (by rw [hk]; rfl)
    have hclear := hu.clear n hn hdrop (x, y) (by rw [ha]; rfl)
    exact (admits_drop hb hi).2 ⟨k, pushes, x, y, anchors, hk, ha, hclear, hgates⟩

/-- **Untangled programs are admitted.** -/
theorem admitted_of_untangled : Admitted program := by
  intro n hn
  have hplain := hw.plain _ (List.getElem_mem hn)
  cases hi : program[n].operation with
  | unknown name => simp [Instruction.isPlain, hi] at hplain
  | known c =>
    cases c with
    | block j => exact hw.admits_join hu hn hi
    | branch b => exact hw.admits_branch hu hn hi
    | contact position test =>
      have htest : test ≠ .equal := by simpa [Instruction.isPlain, hi] using hplain
      cases position with
      | start | parallel => simp [admits, hi, htest]
      | series =>
        have hties := hu.ties n hn _ (by rw [tiedBlock?, hi]; rfl)
        simp [admits, hi, htest, hties]
    | coil c =>
      obtain rfl : c = .out := by
        cases c <;> simp_all [Instruction.isPlain]
      have hties := hu.ties n hn _ (by rw [tiedBlock?, hi]; rfl)
      simp [admits, hi, hties]

end Untangled

/-- **Diagram and scan agree on untangled programs.** Let branches mix with parallel contacts and
joins in a program that writes each bit once and reads none after it is written, and let the buses
stay away from joins and ties. Then power comes in at an output coil exactly if the scan sets its bit
and, for each join in series in whose second block the coil stands, the truth in front of that block
is true. -/
theorem outputsAgree_of_untangled (hf : WellFormed program) (hu : Untangled program)
    (hw : WritesOnce program) (s : State) (dt : Int) : OutputsAgree program s dt :=
  outputsAgree_of_admitted (.inr hf.begins) (admitted_of_untangled hf hu) hw s dt

/-- A group of branches with a parallel contact in its last branch, in the first block of a join in
series, which is in turn the first block of a join in parallel. -/
theorem outputsAgree_joined_group :
    let program := Listing.parse ("LD X0\nMPS\nAND X1\nOUT Y0\nMPP\nAND X2\nOR X3\nOUT Y1\n" ++
      "LD X4\nORI X5\nANB\nOUT Y2\nLD X6\nORB\nOUT Y3")
    let s : State := { bits := (∅ : Table Bool).insert "X3" true }
    WellFormed program ∧ Untangled program ∧ WritesOnce program ∧ OutputsAgree program s 10 := by
  intro program s
  have hf : WellFormed program := by decide
  have hu : Untangled program := ⟨by decide, by decide, by decide, by decide⟩
  have hw : WritesOnce program := by decide
  exact ⟨hf, hu, hw, outputsAgree_of_untangled hf hu hw s 10⟩

/-- Whether a cell holds the output coil at an index, and either power comes in there or the scan sets
its bit, but not both. -/
def disagrees (program : Program) (s : State) (n x y : Nat) : Bool :=
  match program.layout.power s.bit, program.scan s 0, program[n]?, program.layout.cell? x y with
  | .ok live, .ok after, some i, some c =>
    i.operation = .known (.coil .out) && c.source = some n &&
      live.contains ⟨x, y, .inlet⟩ != after.bit i.value
  | _, _, _, _ => false

/-- Power and scan do not agree in the second block of a join in series; nor where a branch is read
into such a block, or from a push in it; nor where a bus crosses the row of a parallel contact, or such
a row is tied to a bus. -/
theorem tangled_programs_disagree :
    let s : State := { bits := (∅ : Table Bool).insert "X1" true }
    ∀ p ∈ [("LD X0\nLD X1\nOUT Y0\nANB", 2, 3, 1),
        ("LD X0\nLD X1\nMPS\nMPP\nANB\nOUT Y0", 5, 4, 2),
        ("LD X0\nLD X1\nMPS\nANB\nMPP\nOUT Y0", 5, 4, 2),
        ("LD X0\nMPS\nAND X2\nOR X1\nOUT Y0\nMPP\nOUT Y1", 6, 2, 2),
        ("LD X0\nMPS\nOUT Y0\nMPP\nOR X1\nOUT Y1", 2, 2, 0)],
      WellFormed (Listing.parse p.1) ∧ WritesOnce (Listing.parse p.1) ∧
        disagrees (Listing.parse p.1) s p.2.1 p.2.2.1 p.2.2.2 = true := by
  decide

end Program
end LadderLogic
