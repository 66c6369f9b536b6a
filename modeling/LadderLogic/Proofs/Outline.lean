import LadderLogic.Proofs.Placement
import Mathlib.Data.List.Forall2

/-!
# The outline of a program

The outline of a program says which of its blocks are not joined yet and where they begin, which
pushes are open, and which part of the program stands behind each join in series. It is read off the
operations alone. On the sheet of a program that begins with a block, the blocks of the outline are
those of the sheet: what is drawn from the top of a block down is what comes in the program from its
beginning on (`aligned_sheet`), and the anchors stand where the open pushes are drawn.

Source: the block and anchor stacks of `_LayoutBuilder` (section 4.1 of the specification).
-/

namespace LadderLogic

/-- A block of a program: where it begins, and whether a branch was read into it. -/
structure Frame where
  start : Nat
  read : Bool := false
  deriving DecidableEq, Repr

/-- The outline of a program: its blocks that are not joined yet, with the last one first, its open
pushes, and for each join in series where the block behind it begins and where it is joined. -/
structure Outline where
  frames : List Frame := []
  pushes : List Nat := []
  gates : List (Nat × Nat) := []
  deriving DecidableEq, Repr

namespace Outline

/-- Joins the last two blocks. -/
def join (o : Outline) (j : Join) (n : Nat) : Outline :=
  match o.frames with
  | b :: a :: frames =>
    { o with
      frames := a :: frames
      gates := if j = .series then (b.start, n) :: o.gates else o.gates }
  | _ => o

/-- Reads the last open push into the last block; the push stays open or not. -/
def drop (o : Outline) (keep : Bool) : Outline :=
  match o.pushes with
  | [] => o
  | _ :: pushes =>
    { o with
      frames := o.frames.modifyHead ({ · with read := true })
      pushes := if keep then o.pushes else pushes }

theorem pushes_join (o : Outline) (j : Join) (n : Nat) : (o.join j n).pushes = o.pushes := by
  rw [join]
  split <;> rfl

theorem pushes_drop (o : Outline) (keep : Bool) :
    (o.drop keep).pushes = if keep then o.pushes else o.pushes.tail := by
  rw [drop]
  split
  · next h =>
    rw [h]
    cases keep <;> rfl
  · next k pushes h =>
    rw [h]
    rfl

/-- The outline with one more instruction. -/
def step (o : Outline) (i : Instruction) (n : Nat) : Outline :=
  match i.operation with
  | .known (.contact .start _) => { o with frames := { start := n } :: o.frames }
  | .known (.block j) => o.join j n
  | .known (.branch .push) => { o with pushes := n :: o.pushes }
  | .known (.branch .read) => o.drop true
  | .known (.branch .pop) => o.drop false
  | _ => o

end Outline

namespace Program

/-- The outline of a program. -/
def outline (program : Program) : Outline :=
  program.zipIdx.foldl (fun o (i, n) => o.step i n) {}

theorem outline_append (program : Program) (i : Instruction) :
    outline (program ++ [i]) = (outline program).step i program.length := by
  simp [outline, List.zipIdx_append]

/-- Whether a program begins with a contact at the start of a block. -/
def BeginsBlock (program : Program) : Prop :=
  ∃ i test rest, program = i :: rest ∧ i.operation = .known (.contact .start test)

instance (program : Program) : Decidable program.BeginsBlock :=
  match program with
  | [] => isFalse fun ⟨_, _, _, h, _⟩ => nomatch h
  | i :: rest =>
    match h : i.operation with
    | .known (.contact .start test) => isTrue ⟨i, test, rest, rfl, h⟩
    | .known (.contact .series _) | .known (.contact .parallel _) | .known (.block _)
    | .known (.branch _) | .known (.coil _) | .unknown _ =>
      isFalse fun ⟨_, _, _, he, hi⟩ => by cases he; rw [h] at hi; cases hi

theorem BeginsBlock.of_append {program : Program} {i : Instruction} (hne : program ≠ [])
    (h : BeginsBlock (program ++ [i])) : BeginsBlock program := by
  obtain ⟨first, test, rest, he, ho⟩ := h
  cases program with
  | nil => cases hne rfl
  | cons j program =>
    rw [List.cons_append, List.cons.injEq] at he
    exact ⟨j, test, program, rfl, he.1 ▸ ho⟩

end Program

namespace Sheet

/-- What is drawn from the top of a block down is what comes in the program from its beginning on. -/
def Covers (m : Marking) (n : Nat) (f : Frame) (b : Block) : Prop :=
  f.start < n ∧ ∀ x y k, (m x y).2 = some k → (f.start ≤ k ↔ b.top ≤ y)

/-- A cell holds the push at an index. -/
def Anchors (m : Marking) (k : Nat) (anchor : Nat × Nat) : Prop :=
  ∃ i, m anchor.1 anchor.2 = (some i, some k) ∧ i.operation = .known (.branch .push)

/-- The blocks and anchors of a sheet are those of the outline of `n` instructions. -/
structure Aligned (s : Sheet) (o : Outline) (n : Nat) : Prop where
  frames : List.Forall₂ (Covers (marks s.rows) n) o.frames (s.block :: s.waiting)
  pushes : List.Forall₂ (Anchors (marks s.rows)) o.pushes s.anchors
  gates : ∀ g ∈ o.gates, g.2 < n

variable {s : Sheet} {o : Outline} {program : Program} {i : Instruction}

theorem forall₂_imp_mem {α β : Type} {R S : α → β → Prop} {as : List α} {bs : List β}
    (h : List.Forall₂ R as bs) (hi : ∀ a b, b ∈ bs → R a b → S a b) : List.Forall₂ S as bs := by
  induction h with
  | nil => exact .nil
  | cons hr _ ih =>
    exact .cons (hi _ _ List.mem_cons_self hr) (ih fun a b hb => hi a b (List.mem_cons_of_mem _ hb))

/-- Every block has its top above its output row, and so has every block that waits. -/
theorem Placed.top_le_out (h : Placed s program) {b : Block} (hb : b ∈ s.block :: s.waiting) :
    b.top ≤ s.block.out := by
  have hr := (h.room b hb).top_le
  have hc := h.block_room.top_le
  rcases List.mem_cons.1 hb with rfl | hw
  · exact hr
  · have := h.waiting_lt hw
    omega

theorem Placed.top_lt (h : Placed s program) {b : Block} (hb : b ∈ s.block :: s.waiting) :
    b.top < s.rows.length :=
  Nat.lt_of_le_of_lt (h.top_le_out hb) h.block_room.out_lt

/-! ## One instruction -/

theorem Covers.mono {m : Marking} {n : Nat} {f : Frame} {b : Block} (h : Covers m n f b) :
    Covers m (n + 1) f b := ⟨Nat.lt_succ_of_lt h.1, h.2⟩

/-- An instruction put below the top of a block belongs to it. -/
theorem Covers.put {m : Marking} {n x y : Nat} {f : Frame} {b : Block} (h : Covers m n f b)
    (hy : b.top ≤ y) : Covers (m.put x y i n) (n + 1) f b := by
  refine ⟨Nat.lt_succ_of_lt h.1, fun x' y' k hk => ?_⟩
  rw [Marking.put] at hk
  split at hk
  · next he =>
    obtain rfl := Option.some.inj hk
    rw [he.2]
    exact ⟨fun _ => hy, fun _ => Nat.le_of_lt h.1⟩
  · exact h.2 x' y' k hk

/-- An instruction in a cell that was not marked leaves the anchors alone. -/
theorem Anchors.put {m : Marking} {n k x y : Nat} {anchor : Nat × Nat} (h : Anchors m k anchor)
    (hfree : (m x y).2 = none) : Anchors (m.put x y i n) k anchor := by
  obtain ⟨j, hm, ho⟩ := h
  refine ⟨j, ?_, ho⟩
  rw [Marking.put, if_neg]
  · exact hm
  · rintro ⟨h₁, h₂⟩
    rw [← h₁, ← h₂, hm] at hfree
    cases hfree

/-- The blocks and anchors stay when an instruction is put into a free cell below their tops. -/
theorem Aligned.put {m : Marking} (h : Aligned s o program.length) {x y : Nat}
    (hm : m = (marks s.rows).put x y i program.length)
    (hfree : (marks s.rows x y).2 = none) (htop : ∀ b ∈ s.block :: s.waiting, b.top ≤ y) :
    List.Forall₂ (Covers m (program.length + 1)) o.frames (s.block :: s.waiting) ∧
    List.Forall₂ (Anchors m) o.pushes s.anchors := by
  rw [hm]
  exact ⟨forall₂_imp_mem h.frames fun f b hb hc => hc.put (htop b hb),
    h.pushes.imp fun _ _ ha => ha.put hfree⟩

theorem Aligned.gates_mono (h : Aligned s o program.length) :
    ∀ g ∈ o.gates, g.2 < program.length + 1 := fun g hg => Nat.lt_succ_of_lt (h.gates g hg)

/-- A block that goes on from the same top covers the same instructions. -/
theorem forall₂_covers_of_top {m : Marking} {n : Nat} {frames : List Frame} {b b' : Block}
    {waiting : List Block} (h : List.Forall₂ (Covers m n) frames (b :: waiting))
    (ht : b'.top = b.top) : List.Forall₂ (Covers m n) frames (b' :: waiting) := by
  obtain ⟨f, fs, hc, hrest, rfl⟩ := List.forall₂_cons_right_iff.1 h
  exact .cons ⟨hc.1, by rw [ht]; exact hc.2⟩ hrest

/-- Every anchor stands where an open push is drawn. -/
theorem Aligned.exists_anchors {n : Nat} (h : Aligned s o n) {anchor : Nat × Nat}
    (ha : anchor ∈ s.anchors) : ∃ k ∈ o.pushes, Anchors (marks s.rows) k anchor := by
  have hp := h.pushes
  generalize o.pushes = pushes, s.anchors = anchors at hp ha ⊢
  induction hp with
  | nil => cases ha
  | @cons k _ pushes _ hk _ ih =>
    rcases List.mem_cons.1 ha with rfl | ha
    · exact ⟨k, List.mem_cons_self, hk⟩
    · obtain ⟨k', hk', hanchor⟩ := ih ha
      exact ⟨k', List.mem_cons_of_mem k hk', hanchor⟩

theorem Aligned.anchor_lt {n : Nat} (h : Aligned s o n) {anchor : Nat × Nat}
    (ha : anchor ∈ s.anchors) : anchor.2 < s.rows.length := by
  obtain ⟨k, -, i, hm, -⟩ := h.exists_anchors ha
  refine Nat.lt_of_not_le fun hle => ?_
  rw [marks_of_height_le _ hle] at hm
  cases hm

/-- An open push is one of the instructions so far. -/
theorem Aligned.push_lt {n k : Nat} (h : Aligned s o n) (hp : Placed s program)
    (hk : k ∈ o.pushes) : k < program.length := by
  have hpushes := h.pushes
  generalize o.pushes = pushes, s.anchors = anchors at hpushes hk
  induction hpushes with
  | nil => cases hk
  | cons hanchor _ ih =>
    rcases List.mem_cons.1 hk with rfl | hk
    · obtain ⟨j, hm, -⟩ := hanchor
      exact (hp.holds.sound (congrArg Prod.snd hm)).1.lt
    · exact ih hk

/-- A cell on a row below all others is free. -/
theorem marks_length (s : Sheet) (x : Nat) : (marks s.rows x s.rows.length).2 = none := by
  rw [marks_of_height_le x (Nat.le_refl _)]

theorem Aligned.start (h : Aligned s o program.length) (hp : Placed s program)
    (hbare : s.isBare = false) :
    Aligned (s.start i program.length) { o with frames := { start := program.length } :: o.frames }
      (program.length + 1) := by
  have hm := marks_put_append s.rows 0 i program.length
  obtain ⟨hframes, hpushes⟩ := h.put hm (marks_length s 0) fun b hb => Nat.le_of_lt (hp.top_lt hb)
  simp only [Sheet.start, hbare]
  refine ⟨.cons ⟨Nat.lt_succ_self _, fun x y k hk => ?_⟩ hframes, hpushes, h.gates_mono⟩
  -- what was drawn before comes earlier in the program and stands above the new row
  change program.length ≤ k ↔ s.rows.length ≤ y
  change (marks (Sheet.put (s.rows ++ [[]]) 0 s.rows.length i program.length) x y).2 = some k at hk
  rw [hm, Marking.put] at hk
  split at hk
  · next he =>
    obtain rfl := Option.some.inj hk
    rw [he.2]
    exact ⟨fun _ => Nat.le_refl _, fun _ => Nat.le_refl _⟩
  · have hlt := (hp.holds.sound hk).1.lt
    have hy : y < s.rows.length := Nat.lt_of_not_le fun hle => by
      rw [marks_of_height_le x hle] at hk
      cases hk
    omega

theorem Aligned.parallel (h : Aligned s o program.length) (hp : Placed s program) :
    Aligned (s.parallel i program.length) o (program.length + 1) := by
  obtain ⟨hframes, hpushes⟩ := h.put (marks_put_append s.rows 0 i program.length) (marks_length s 0)
    fun b hb => Nat.le_of_lt (hp.top_lt hb)
  exact ⟨forall₂_covers_of_top hframes rfl, hpushes, h.gates_mono⟩

theorem Aligned.series (h : Aligned s o program.length) (hp : Placed s program) :
    Aligned (s.series i program.length) o (program.length + 1) := by
  have hr := hp.block_room
  obtain ⟨hframes, hpushes⟩ := h.put (marks_series i program.length hr.out_lt)
    (hr.room _ (Nat.le_refl _)) fun b hb => hp.top_le_out hb
  exact ⟨forall₂_covers_of_top hframes rfl, hpushes, h.gates_mono⟩

theorem Aligned.pushBranch (h : Aligned s o program.length) (hp : Placed s program)
    (hi : i.operation = .known (.branch .push)) :
    Aligned (s.pushBranch i program.length) { o with pushes := program.length :: o.pushes }
      (program.length + 1) := by
  have hs := h.series (i := i) hp
  refine ⟨hs.frames, .cons ⟨i, ?_, hi⟩ hs.pushes, hs.gates⟩
  change marks (s.series i program.length).rows s.block.width s.block.out = _
  rw [marks_series i program.length hp.block_room.out_lt, Marking.put, if_pos ⟨rfl, rfl⟩]

theorem Aligned.dropBranch (h : Aligned s o program.length) (hp : Placed s program) (keep : Bool) :
    Aligned (s.dropBranch i program.length keep) (o.drop keep) (program.length + 1) := by
  have hpushes := h.pushes
  cases ha : s.anchors with
  | nil =>
    rw [ha, List.forall₂_nil_right_iff] at hpushes
    rw [Sheet.dropBranch, ha, Outline.drop, hpushes]
    exact ⟨h.frames.imp fun _ _ hc => hc.mono, h.pushes, h.gates_mono⟩
  | cons anchor anchors =>
    obtain ⟨x, top⟩ := anchor
    have hm := marks_dropBranch i program.length keep ha
    obtain ⟨hframes, hpushes⟩ := h.put hm (marks_length s x) fun b hb => Nat.le_of_lt (hp.top_lt hb)
    obtain ⟨f, fs, hc, hrest, hf⟩ := List.forall₂_cons_right_iff.1 hframes
    obtain ⟨k, pushes, hk, htail, ho⟩ := List.forall₂_cons_right_iff.1 (ha ▸ hpushes)
    simp only [Sheet.dropBranch, ha, Outline.drop, ho, hf, List.modifyHead_cons] at hc hrest hk htail ⊢
    refine ⟨.cons hc hrest, ?_, h.gates_mono⟩
    cases keep with
    | true => exact .cons hk htail
    | false => exact htail

theorem Aligned.skip (h : Aligned s o program.length) : Aligned s o (program.length + 1) :=
  ⟨h.frames.imp fun _ _ hc => hc.mono, h.pushes, h.gates_mono⟩

theorem Aligned.joinParallel (h : Aligned s o program.length) :
    Aligned s.joinParallel (o.join .parallel program.length) (program.length + 1) := by
  have hframes := h.frames
  obtain ⟨f, fs, hc, hrest, hf⟩ := List.forall₂_cons_right_iff.1 hframes
  cases hw : s.waiting with
  | nil =>
    rw [hw, List.forall₂_nil_right_iff] at hrest
    rw [Sheet.joinParallel, hw, Outline.join, hf, hrest]
    exact h.skip
  | cons a waiting =>
    obtain ⟨g, gs, hd, htail, hg⟩ := List.forall₂_cons_right_iff.1 (hw ▸ hrest)
    simp only [Sheet.joinParallel, hw, Outline.join, hf, hg]
    constructor
    · simp only [marks_wireRowsTo]
      exact .cons hd.mono (htail.imp fun _ _ hc => hc.mono)
    · simp only [marks_wireRowsTo]
      exact h.pushes
    · exact h.gates_mono

/-- Rows that move to the right keep what they cover. -/
theorem Covers.shift {m : Marking} {n top offset : Nat} {f : Frame} {b : Block}
    (h : Covers m n f b) : Covers (m.shift top offset) n f b := by
  refine ⟨h.1, fun x y k hk => ?_⟩
  rw [Marking.shift] at hk
  split at hk
  · split at hk
    · cases hk
    · exact h.2 _ y k hk
  · exact h.2 x y k hk

/-- The anchors on rows that move to the right move along. -/
theorem Anchors.shift {m : Marking} {k top offset : Nat} {anchor : Nat × Nat}
    (h : Anchors m k anchor) : Anchors (m.shift top offset) k
      (if top ≤ anchor.2 then (anchor.1 + offset, anchor.2) else (anchor.1, anchor.2)) := by
  obtain ⟨i, hm, ho⟩ := h
  refine ⟨i, ?_, ho⟩
  split
  · next hle => rw [Marking.shift, if_pos hle, if_neg (by omega), Nat.add_sub_cancel, hm]
  · next hle => rw [Marking.shift, if_neg hle, hm]

theorem Aligned.joinSeries (h : Aligned s o program.length) (hp : Placed s program) :
    Aligned s.joinSeries (o.join .series program.length) (program.length + 1) := by
  have hframes := h.frames
  obtain ⟨f, fs, hc, hrest, hf⟩ := List.forall₂_cons_right_iff.1 hframes
  cases hw : s.waiting with
  | nil =>
    rw [hw, List.forall₂_nil_right_iff] at hrest
    rw [Sheet.joinSeries, hw, Outline.join, hf, hrest]
    exact h.skip
  | cons a waiting =>
    obtain ⟨g, gs, hd, htail, hg⟩ := List.forall₂_cons_right_iff.1 (hw ▸ hrest)
    have hm := marks_joinSeries hw
      (hp.room a (List.mem_cons_of_mem _ (hw ▸ List.mem_cons_self))).out_lt
    constructor
    · rw [hm]
      simp only [Sheet.joinSeries, hw, Outline.join, hf, hg]
      exact .cons hd.mono.shift (htail.imp fun _ _ hc => hc.mono.shift)
    · rw [hm]
      simp only [Sheet.joinSeries, hw, Outline.join, hf, hg]
      exact List.forall₂_map_right_iff.2 (h.pushes.imp fun _ _ ha => ha.shift)
    · simp only [Outline.join, hf, hg, if_true]
      intro gate hgate
      rcases List.mem_cons.1 hgate with rfl | hgate
      · exact Nat.lt_succ_self _
      · exact h.gates_mono gate hgate

/-- **One instruction.** The blocks and anchors of a sheet go along with the outline. -/
theorem Aligned.draw (h : Aligned s o program.length) (hp : Placed s program)
    (hbare : s.isBare = false) (i : Instruction) :
    Aligned (s.draw i program.length) (o.step i program.length) (program.length + 1) := by
  unfold Sheet.draw
  split
  · next hop => simp only [Outline.step, hop]; exact h.start hp hbare
  · next hop => simp only [Outline.step, hop]; exact h.parallel hp
  · next hop => simp only [Outline.step, hop]; exact h.series hp
  · next hop => simp only [Outline.step, hop]; exact h.series hp
  · next hop => simp only [Outline.step, hop]; exact h.joinParallel
  · next hop => simp only [Outline.step, hop]; exact h.joinSeries hp
  · next hop => simp only [Outline.step, hop]; exact h.pushBranch hp hop
  · next hop => simp only [Outline.step, hop]; exact h.dropBranch hp true
  · next hop => simp only [Outline.step, hop]; exact h.dropBranch hp false
  · next hop => simp only [Outline.step, hop]; exact h.skip

end Sheet

namespace Program

open Sheet

variable {program : Program}

/-- The first instruction of a block is drawn, so the sheet is not bare. -/
theorem isBare_sheet (h : program.BeginsBlock) : (sheet program).isBare = false := by
  obtain ⟨i, test, rest, rfl, hi⟩ := h
  have hd : IsDrawn (i :: rest) 0 := ⟨i, rfl, by rw [Instruction.isDrawn, hi]⟩
  obtain ⟨x, y, hn⟩ := (placed_sheet _).holds.drawn hd
  refine Bool.eq_false_iff.2 fun hb => ?_
  rw [marks_of_isBare hb] at hn
  cases hn

section Singleton

variable {i : Instruction} {test : Test} (hi : i.operation = .known (.contact .start test))

include hi

theorem sheet_singleton :
    sheet [i] = { rows := put [[]] 0 0 i 0, block := { width := 1 } } := by
  simp [sheet, Sheet.draw, hi, Sheet.start, Sheet.isBare]

theorem outline_singleton : outline [i] = { frames := [{ start := 0 }] } := by
  simp [outline, Outline.step, hi]

theorem aligned_singleton : Aligned (sheet [i]) (outline [i]) 1 := by
  rw [sheet_singleton hi, outline_singleton hi]
  exact ⟨.cons ⟨Nat.one_pos, fun x y k _ => ⟨fun _ => Nat.zero_le y, fun _ => Nat.zero_le k⟩⟩ .nil,
    .nil, fun _ h => nomatch h⟩

end Singleton

/-- **The outline of a program is that of its sheet.** -/
theorem aligned_sheet (h : program.BeginsBlock) :
    Aligned (sheet program) (outline program) program.length := by
  induction program using List.reverseRecOn with
  | nil =>
    obtain ⟨i, test, rest, he, -⟩ := h
    cases he
  | append_singleton program i ih =>
    cases program with
    | nil =>
      obtain ⟨j, test, rest, he, hj⟩ := h
      rw [List.nil_append, List.cons.injEq] at he
      exact aligned_singleton (he.1 ▸ hj)
    | cons first rest =>
      have hb := h.of_append (List.cons_ne_nil first rest)
      rw [sheet_append, outline_append, List.length_append]
      exact (ih hb).draw (placed_sheet _) (isBare_sheet hb) i

end Program
end LadderLogic
