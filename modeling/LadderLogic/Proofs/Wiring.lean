import LadderLogic.Listing
import LadderLogic.Proofs.BlockSteps
import LadderLogic.Proofs.Outline

/-!
# Wires of a diagram

A wire leaves a cell exactly if it comes in at the neighbour, and no wire leaves the diagram. Each
drawing step adds its stubs in pairs, except that a join in series moves some rows to the right and
leaves the others where they are. This cuts every tie between the two, so no tie may cross the top of
a block that can still be joined (`Tidy.clear`). The ties of a block stay on its own rows
(`Tidy.nested`), and a bus stays below the tops of all open blocks if these were opened before the
push that it hangs on (`Tidy.opened`).

Main statement: this holds of every program in which a branch is read and popped only after the blocks
opened since its push are merged (`tidy_sheet`).

Source: `layout` (section 4.1 of the specification).
-/

namespace LadderLogic

/-- The stubs of a diagram meet: a cell has a stub to the right exactly if there is a cell to its right
that has a stub to the left, and a stub down exactly if there is a cell below it that has a stub up. No
stub leaves the diagram to the left or above. -/
structure Diagram.StubsMeet (d : Diagram) : Prop where
  right_iff : ∀ x y c, d.cell? x y = some c →
    (c.right = true ↔ ∃ c', d.cell? (x + 1) y = some c' ∧ c'.left = true)
  down_iff : ∀ x y c, d.cell? x y = some c →
    (c.down = true ↔ ∃ c', d.cell? x (y + 1) = some c' ∧ c'.up = true)
  left_border : ∀ y c, d.cell? 0 y = some c → c.left = false
  top_border : ∀ x c, d.cell? x 0 = some c → c.up = false

namespace Program

/-- The starts of the blocks that are open. A join merges the block of the last of them into the block
before it; if there is none before it, the start that is taken off stands in front of every push. -/
def openStarts (program : Program) : List Nat :=
  program.zipIdx.foldl (fun opened (i, n) =>
    match i.operation with
    | .known (.contact .start _) => n :: opened
    | .known (.block _) => opened.tail
    | _ => opened) []

theorem openStarts_append (program : Program) (i : Instruction) :
    openStarts (program ++ [i]) =
      match i.operation with
      | .known (.contact .start _) => program.length :: openStarts program
      | .known (.block _) => (openStarts program).tail
      | _ => openStarts program := by
  simp [openStarts, List.zipIdx_append]

/-- Whether a branch is read or popped only when each block that was opened after its push is merged
into one that was opened before. -/
def MergesBeforeReads (program : Program) : Prop :=
  ∀ n (h : n < program.length), program[n].isDrop = true →
    ∀ k ∈ (outline (program.take n)).pushes.head?, ∀ m ∈ openStarts (program.take n), m < k

instance (program : Program) : Decidable program.MergesBeforeReads :=
  inferInstanceAs (Decidable (∀ n (h : n < program.length), program[n].isDrop = true →
    ∀ k ∈ (outline (program.take n)).pushes.head?, ∀ m ∈ openStarts (program.take n), m < k))

theorem mergesBeforeReads_append {program : Program} {i : Instruction} :
    MergesBeforeReads (program ++ [i]) ↔ MergesBeforeReads program ∧ (i.isDrop = true →
      ∀ k ∈ (outline program).pushes.head?, ∀ m ∈ openStarts program, m < k) :=
  forall_append (P := fun before i => i.isDrop = true →
    ∀ k ∈ (outline before).pushes.head?, ∀ m ∈ openStarts before, m < k)

/-- An anchor stands on the sheet for every open push. -/
theorem length_pushes_outline (program : Program) :
    (outline program).pushes.length = (sheet program).anchors.length := by
  rw [length_anchors_sheet]
  induction program using List.reverseRecOn with
  | nil => rfl
  | append_singleton program i ih =>
    rw [outline_append, openBranches_append, ← ih, Outline.step]
    split <;> simp [*, Outline.pushes_join, Outline.pushes_drop]

/-- The open pushes are instructions of the program. -/
theorem lt_of_mem_pushes {program : Program} {k : Nat} (hk : k ∈ (outline program).pushes) :
    k < program.length := by
  induction program using List.reverseRecOn with
  | nil => cases hk
  | append_singleton program i ih =>
    rw [List.length_append, List.length_singleton]
    rw [outline_append, Outline.step] at hk
    have hold (h : k ∈ (outline program).pushes) : k < program.length + 1 := Nat.lt_succ_of_lt (ih h)
    split at hk
    · exact hold hk
    · rw [Outline.pushes_join] at hk
      exact hold hk
    · rcases List.mem_cons.1 hk with rfl | hk
      · exact Nat.lt_succ_self _
      · exact hold hk
    · rw [Outline.pushes_drop] at hk
      exact hold hk
    · rw [Outline.pushes_drop] at hk
      exact hold (List.mem_of_mem_tail hk)
    · exact hold hk

end Program

namespace Sheet

open Grid

/-! ## Rows without ties from above -/

/-- Nothing is tied to a row from above. -/
def ClearAbove (rows : List Row) (t : Nat) : Prop := ∀ x, (cellAt rows x t).up = false

section ClearAbove

variable {rows : List Row} {t x y top bottom : Nat} {i : Instruction} {n : Nat} {a b : Block}

theorem clearAbove_of_height_le (h : rows.length ≤ t) : ClearAbove rows t := fun x => by
  rw [cellAt_of_height_le h]

theorem ClearAbove.put (h : ClearAbove rows t) (hy : y < rows.length) :
    ClearAbove (put rows x y i n) t := by
  intro k
  rw [cellAt_put x i n k t hy]
  split
  · next he => rw [← he.1, ← he.2]; exact h k
  · exact h k

theorem ClearAbove.openRow (h : ClearAbove rows t) : ClearAbove (openRow rows i n) t := by
  refine ClearAbove.put (fun k => ?_) (by simp)
  rw [cellAt_append_nil]
  exact h k

theorem ClearAbove.putWired (h : ClearAbove rows t) (hy : y < rows.length) :
    ClearAbove (putWired rows x y i n) t := by
  intro k
  rw [cellAt_putWired x i n k t hy]
  exact h.put hy k

theorem ClearAbove.wireRowsTo (h : ClearAbove rows t) (ys : List Nat) (column : Nat) :
    ClearAbove (wireRowsTo rows ys column) t := by
  intro k
  rw [cellAt_wireRowsTo]
  exact h k

/-- A tie is felt from above on its own rows only, but for the uppermost one. -/
theorem ClearAbove.tie (h : ClearAbove rows t) (ht : t ≤ top ∨ bottom < t) :
    ClearAbove (tie rows x top bottom) t := by
  intro k
  rw [cellAt_tie, h k, Bool.false_or, decide_eq_false_iff_not]
  omega

theorem ClearAbove.tiePending (h : ClearAbove rows t) (ht : t ≤ b.out ∨ ∀ r ∈ b.rows, r < t) :
    ClearAbove (tiePending rows b) t := by
  rcases tiePending_cases rows b with he | ⟨bottom, x, hp, -, he⟩
  · rw [he]
    exact h
  · rw [he]
    refine (h.wireRowsTo _ _).tie (ht.imp_right fun hlt => hlt bottom ?_)
    exact List.mem_cons_of_mem _ (List.mem_of_getLast? hp)

theorem ClearAbove.shiftRows (h : ClearAbove rows t) (offset : Nat) :
    ClearAbove (shiftRows rows top offset) t := by
  intro k
  rw [cellAt_shiftRows]
  split
  · split
    · rfl
    · exact h _
  · exact h k

theorem ClearAbove.junction (h : ClearAbove rows t) (ha : a.out < rows.length) (ht : t ≤ a.out)
    (entries : List Nat) : ClearAbove (junction rows a entries bottom) t := by
  intro k
  rw [cellAt_junction _ _ _ _ ha, h k, Bool.false_or, decide_eq_false_iff_not]
  omega

theorem ClearAbove.dropBus (h : ClearAbove rows t) (ht : t ≤ y) (hlt : t < rows.length) :
    ClearAbove (dropBus rows x y i n) t := by
  intro k
  rw [cellAt_dropBus, if_neg (by omega), h k, Bool.false_or, decide_eq_false_iff_not]
  omega

theorem wired_tiePending (hw : Wired (cellAt rows)) (hb : ∀ r ∈ b.rows, r < rows.length) :
    Wired (cellAt (tiePending rows b)) := by
  rcases tiePending_cases rows b with he | ⟨bottom, x, hp, -, he⟩
  · rw [he]
    exact hw
  · rw [he]
    refine wired_tie (wired_wireRowsTo hw _ _) ?_ _ _
    rw [length_wireRowsTo]
    exact hb bottom (List.mem_cons_of_mem _ (List.mem_of_getLast? hp))

end ClearAbove

/-! ## Blocks and the starts that opened them -/

/-- The open blocks, the last one first, and their starts: a relation holds of each start and its
block, except for the first block of the sheet, which may have no start. -/
inductive Opened (R : Nat → Block → Prop) : List Nat → List Block → Prop where
  | first {opened : List Nat} {b : Block} : b.top = 0 → Opened R opened [b]
  | cons {n : Nat} {b : Block} {opened : List Nat} {blocks : List Block} :
      R n b → Opened R opened blocks → Opened R (n :: opened) (b :: blocks)

variable {R S : Nat → Block → Prop} {opened : List Nat} {a b : Block} {blocks : List Block}

theorem Opened.imp (h : Opened R opened blocks) (hi : ∀ n, ∀ b ∈ blocks, R n b → S n b) :
    Opened S opened blocks := by
  induction h with
  | first htop => exact .first htop
  | cons hr _ ih =>
    exact .cons (hi _ _ List.mem_cons_self hr) (ih fun n b hb => hi n b (List.mem_cons_of_mem _ hb))

/-- A block that goes on from the same top keeps its start. -/
theorem Opened.of_top (h : Opened R opened (b :: blocks)) (ht : a.top = b.top)
    (hi : ∀ n, R n b → R n a) : Opened R opened (a :: blocks) := by
  cases h with
  | first htop => exact .first (ht.trans htop)
  | cons hr hrest => exact .cons (hi _ hr) hrest

/-- A join takes off the last block and its start. -/
theorem Opened.tail (h : Opened R opened (b :: a :: blocks)) :
    Opened R opened.tail (a :: blocks) := by
  cases h with
  | cons _ hrest => exact hrest

/-- A join with nothing to join leaves the first block. -/
theorem Opened.tail_single (h : Opened R opened [b]) : Opened R opened.tail [b] := by
  cases h with
  | first htop => exact .first htop
  | cons _ hrest => cases hrest

/-- If a row lies below the tops of all blocks with a start that counts, it lies below all tops. -/
theorem Opened.top_le {y : Nat} (h : Opened R opened blocks)
    (hle : ∀ n ∈ opened, ∀ b, R n b → b.top ≤ y) (hb : b ∈ blocks) : b.top ≤ y := by
  induction h with
  | first htop =>
    rw [List.mem_singleton.1 hb, htop]
    exact Nat.zero_le y
  | cons hr _ ih =>
    rcases List.mem_cons.1 hb with rfl | hb
    · exact hle _ List.mem_cons_self _ hr
    · exact ih (fun n hn => hle n (List.mem_cons_of_mem _ hn)) hb

/-! ## Tidy sheets -/

/-- A block that was opened before a push lies from its top on not below the anchor of the push. -/
def OverAnchors (pushes : List Nat) (anchors : List (Nat × Nat)) (m : Nat) (b : Block) : Prop :=
  ∀ p ∈ pushes.zip anchors, m < p.1 → b.top ≤ p.2.2

/-- A sheet whose stubs meet, and on which no tie crosses the top of an open block. -/
structure Tidy (s : Sheet) (opened pushes : List Nat) : Prop where
  wired : Wired (cellAt s.rows)
  clear : ∀ b ∈ s.block :: s.waiting, ClearAbove s.rows b.top
  rows_lt : ∀ r ∈ s.block.rows, r < s.rows.length
  nested : (s.block :: s.waiting).Pairwise fun b a => ∀ r ∈ a.rows, r < b.top
  opened : Opened (OverAnchors pushes s.anchors) opened (s.block :: s.waiting)

variable {s : Sheet} {pushes : List Nat} {program : Program} {i : Instruction}

theorem Tidy.start (h : Tidy s opened pushes) (hp : Placed s program)
    (hlt : ∀ k ∈ pushes, k < program.length) :
    Tidy (s.start i program.length) (program.length :: opened) pushes := by
  unfold Sheet.start
  split
  · next hbare =>
    have hw := hp.waiting_of_isBare hbare
    have hlen : 0 < s.rows.length := Nat.zero_lt_of_lt hp.block_room.out_lt
    refine ⟨wired_put h.wired hlen, fun b hb => ?_, fun r hr => ?_, ?_, ?_⟩
    · rw [hw] at hb
      rw [List.mem_singleton.1 hb]
      exact ClearAbove.put (fun x => h.wired.up_zero x) hlen
    · rw [List.mem_singleton.1 hr, length_put]
      exact hlen
    · simp only [hw]
      exact List.pairwise_singleton _ _
    · simp only [hw]
      exact .first rfl
  · refine ⟨wired_openRow h.wired, fun b hb => ?_, fun r hr => ?_, ?_, ?_⟩
    · rcases List.mem_cons.1 hb with rfl | hb
      · exact (clearAbove_of_height_le (Nat.le_refl _)).openRow
      · exact (h.clear b hb).openRow
    · rw [List.mem_singleton.1 hr]
      simp
    · -- all rows so far lie above the new one
      refine List.pairwise_cons.2 ⟨fun a ha r hr => ?_, h.nested⟩
      rcases List.mem_cons.1 ha with rfl | ha
      · exact h.rows_lt r hr
      · exact Nat.lt_trans ((List.pairwise_cons.1 h.nested).1 a ha r hr)
          (hp.top_lt List.mem_cons_self)
    · -- no push comes after the new start
      refine .cons (fun p hmem hk => ?_) h.opened
      exact absurd (hlt p.1 (List.of_mem_zip hmem).1) (Nat.lt_asymm hk)

theorem Tidy.parallel (h : Tidy s opened pushes) :
    Tidy (s.parallel i program.length) opened pushes where
  wired := wired_openRow h.wired
  clear := fun b hb => by
    rcases List.mem_cons.1 hb with rfl | hb
    · exact (h.clear s.block List.mem_cons_self).openRow
    · exact (h.clear b (List.mem_cons_of_mem _ hb)).openRow
  rows_lt := fun r hr => by
    have hlen : (s.parallel i program.length).rows.length = s.rows.length + 1 :=
      length_openRow s.rows i program.length
    rw [hlen]
    rcases List.mem_append.1 (show r ∈ s.block.rows ++ [s.rows.length] from hr) with hr | hr
    · exact Nat.lt_succ_of_lt (h.rows_lt r hr)
    · rw [List.mem_singleton.1 hr]
      exact Nat.lt_succ_self _
  nested := List.pairwise_cons.2 (List.pairwise_cons.1 h.nested)
  opened := h.opened.of_top rfl fun _ hr => hr

theorem Tidy.series (h : Tidy s opened pushes) (hp : Placed s program) :
    Tidy (s.series i program.length) opened pushes where
  wired := wired_putWired (wired_tiePending h.wired h.rows_lt) (by
    rw [length_tiePending]
    exact hp.block_room.out_lt)
  clear := fun b hb => by
    have htop : b.top ≤ s.block.out ∧ ClearAbove s.rows b.top := by
      rcases List.mem_cons.1 hb with rfl | hb
      · exact ⟨hp.block_room.top_le, h.clear s.block List.mem_cons_self⟩
      · have hb := List.mem_cons_of_mem s.block hb
        exact ⟨hp.top_le_out hb, h.clear b hb⟩
    refine (htop.2.tiePending (.inl htop.1)).putWired ?_
    rw [length_tiePending]
    exact hp.block_room.out_lt
  rows_lt := fun r hr => by
    rw [List.mem_singleton.1 hr]
    simpa [Sheet.series] using hp.block_room.out_lt
  nested := List.pairwise_cons.2 (List.pairwise_cons.1 h.nested)
  opened := h.opened.of_top rfl fun _ hr => hr

/-- The anchor of a push stands on the last row of the blocks, below all tops. -/
theorem Tidy.pushBranch (h : Tidy s opened pushes) (hp : Placed s program) :
    Tidy (s.pushBranch i program.length) opened (program.length :: pushes) := by
  have hs := h.series (i := i) hp
  refine ⟨hs.wired, hs.clear, hs.rows_lt, hs.nested, hs.opened.imp fun m b hb hr p hmem hk => ?_⟩
  rcases List.mem_cons.1 hmem with rfl | hmem
  · rcases List.mem_cons.1 hb with rfl | hb
    · exact hp.block_room.top_le
    · exact hp.top_le_out (List.mem_cons_of_mem _ hb)
  · exact hr p hmem hk

/-- A join without a block to join draws nothing. -/
theorem Tidy.tail_of_nil (h : Tidy s opened pushes) (hw : s.waiting = []) :
    Tidy s opened.tail pushes where
  wired := h.wired
  clear := h.clear
  rows_lt := h.rows_lt
  nested := h.nested
  opened := by
    have ho := h.opened
    rw [hw] at ho ⊢
    exact ho.tail_single

theorem Tidy.joinParallel (h : Tidy s opened pushes) (hp : Placed s program) :
    Tidy s.joinParallel opened.tail pushes := by
  cases hw : s.waiting with
  | nil =>
    rw [Sheet.joinParallel, hw]
    exact h.tail_of_nil hw
  | cons a waiting =>
    have hnested := h.nested
    have hopened := h.opened
    rw [hw] at hnested hopened
    obtain ⟨hblock, hrest⟩ := List.pairwise_cons.1 hnested
    have htop : s.block.top < s.rows.length := hp.top_lt List.mem_cons_self
    simp only [Sheet.joinParallel, hw]
    refine ⟨wired_wireRowsTo h.wired _ _, fun b hb => ?_, fun r hr => ?_,
      List.pairwise_cons.2 (List.pairwise_cons.1 hrest), hopened.tail.of_top rfl fun _ hr => hr⟩
    · refine ClearAbove.wireRowsTo ?_ _ _
      rcases List.mem_cons.1 hb with rfl | hb
      · exact h.clear a (List.mem_cons_of_mem _ (hw ▸ List.mem_cons_self))
      · exact h.clear b (List.mem_cons_of_mem _ (hw ▸ List.mem_cons_of_mem _ hb))
    · rw [length_wireRowsTo]
      rcases List.mem_append.1 (show r ∈ a.rows ++ s.block.rows from hr) with hr | hr
      · exact Nat.lt_trans (hblock a List.mem_cons_self r hr) htop
      · exact h.rows_lt r hr

theorem Tidy.joinSeries (h : Tidy s opened pushes) (hp : Placed s program) :
    Tidy s.joinSeries opened.tail pushes := by
  cases hw : s.waiting with
  | nil =>
    rw [Sheet.joinSeries, hw]
    exact h.tail_of_nil hw
  | cons a waiting =>
    have hnested := h.nested
    have hopened := h.opened
    rw [hw] at hnested hopened
    obtain ⟨hblock, hrest⟩ := List.pairwise_cons.1 hnested
    have htop : s.block.top < s.rows.length := hp.top_lt List.mem_cons_self
    have ha : a ∈ s.block :: s.waiting := List.mem_cons_of_mem _ (hw ▸ List.mem_cons_self)
    have haout : a.out < s.rows.length := (hp.room a ha).out_lt
    have hatop := (hp.room a ha).top_le
    -- tying the block in front stays above the rows that move
    have hwired := wired_tiePending h.wired fun r hr =>
      Nat.lt_trans (hblock a List.mem_cons_self r hr) htop
    have hclear : ClearAbove (tiePending s.rows a) s.block.top :=
      (h.clear s.block List.mem_cons_self).tiePending (.inr (hblock a List.mem_cons_self))
    have hlen : (Sheet.shiftRows (tiePending s.rows a) s.block.top (a.width + 1)).length =
        s.rows.length := by simp
    have hrows : s.joinSeries.rows = seriesRows (tiePending s.rows a) a s.block.top :=
      rows_joinSeries hw
    have hbottom : lastEntry (tiePending s.rows a) s.block.top < s.rows.length := by
      have htop' : s.block.top < (tiePending s.rows a).length := by simpa using htop
      simpa using (lastEntry_mem_Ico htop').2
    obtain ⟨f, hf, hanchors⟩ := anchors_joinSeries s
    constructor
    · rw [hrows]
      exact wired_junction (wired_shiftRows hwired hclear _) (by rwa [hlen]) (by rwa [hlen]) _
    · rw [block_joinSeries hw, waiting_joinSeries hw, hrows]
      intro b hb
      have hb : ClearAbove s.rows b.top ∧ b.top ≤ a.out := by
        rcases List.mem_cons.1 hb with rfl | hb
        · exact ⟨h.clear a ha, hatop⟩
        · have hlt := (List.pairwise_cons.1 hrest).1 b hb b.out (out_mem_rows b)
          have hb := List.mem_cons_of_mem s.block (hw ▸ List.mem_cons_of_mem a hb)
          have := (hp.room b hb).top_le
          exact ⟨h.clear b hb, by omega⟩
      exact ((hb.1.tiePending (.inl hb.2)).shiftRows _).junction (by rwa [hlen]) hb.2 _
    · rw [block_joinSeries hw, hrows, length_seriesRows, length_tiePending]
      exact h.rows_lt
    · rw [block_joinSeries hw, waiting_joinSeries hw]
      exact List.pairwise_cons.2 (List.pairwise_cons.1 hrest)
    · rw [block_joinSeries hw, waiting_joinSeries hw, hanchors]
      refine Opened.of_top (b := a) (hopened.tail.imp fun m b _ hr p hmem hk => ?_) rfl fun _ hr => hr
      rw [List.zip_map_right] at hmem
      obtain ⟨q, hq, rfl⟩ := List.mem_map.1 hmem
      rw [Prod.map_snd, hf]
      exact hr q hq hk

theorem Tidy.dropBranch (h : Tidy s opened pushes) (hp : Placed s program)
    (hlen : pushes.length = s.anchors.length)
    (hopen : ∀ k ∈ pushes.head?, ∀ m ∈ opened, m < k) (keep : Bool) :
    Tidy (s.dropBranch i program.length keep) opened (if keep then pushes else pushes.tail) := by
  cases ha : s.anchors with
  | nil =>
    have hnil : pushes = [] := List.eq_nil_of_length_eq_zero (by rw [hlen, ha]; rfl)
    have hpushes : (if keep then pushes else pushes.tail) = pushes := by
      rw [hnil]
      cases keep <;> rfl
    rw [Sheet.dropBranch, ha, hpushes]
    exact h
  | cons anchor anchors =>
    obtain ⟨x, y⟩ := anchor
    obtain ⟨k, rest, rfl⟩ : ∃ k rest, pushes = k :: rest :=
      List.exists_cons_of_ne_nil fun h0 => by rw [h0, ha] at hlen; cases hlen
    -- all open blocks were opened before the push
    have hover : ∀ b ∈ s.block :: s.waiting, b.top ≤ y := fun b hb => by
      refine h.opened.top_le (fun m hm b hr => ?_) hb
      exact hr (k, (x, y)) (by rw [ha]; exact List.mem_cons_self) (hopen k rfl m hm)
    have hblock : (s.dropBranch i program.length keep).block =
        { s.block with width := x + 1, out := s.rows.length, pending := [] } := by
      rw [Sheet.dropBranch, ha]
    have hwaiting : (s.dropBranch i program.length keep).waiting = s.waiting := by
      rw [Sheet.dropBranch, ha]
    have hrows : (s.dropBranch i program.length keep).rows =
        dropBus s.rows x y i program.length := by
      rw [Sheet.dropBranch, ha]
      rfl
    have hsub : (if keep then k :: rest else rest).zip
        (s.dropBranch i program.length keep).anchors ⊆ (k :: rest).zip s.anchors := by
      rw [Sheet.dropBranch, ha]
      cases keep with
      | true => exact fun p hmem => hmem
      | false => exact fun p hmem => List.mem_cons_of_mem _ hmem
    constructor
    · rw [hrows]
      exact wired_dropBus h.wired
    · rw [hblock, hwaiting, hrows]
      intro b hb
      have hclear {b : Block} (hb : b ∈ s.block :: s.waiting) :
          ClearAbove (dropBus s.rows x y i program.length) b.top :=
        (h.clear b hb).dropBus (hover b hb) (hp.top_lt hb)
      rcases List.mem_cons.1 hb with rfl | hb
      · exact hclear (b := s.block) List.mem_cons_self
      · exact hclear (List.mem_cons_of_mem _ hb)
    · rw [hblock, hrows]
      intro r hr
      rw [List.mem_singleton.1 hr]
      simp [dropBus]
    · rw [hblock, hwaiting]
      exact List.pairwise_cons.2 (List.pairwise_cons.1 h.nested)
    · rw [hblock, hwaiting]
      refine Opened.of_top (b := s.block) (h.opened.imp fun m b _ hr p hmem => ?_) rfl fun _ hr => hr
      exact hr p (hsub hmem)

end Sheet

namespace Program

open Sheet

variable {program : Program}

/-- **Tidy sheets.** Where branches are read only after the blocks opened since their push are merged,
all stubs meet, and no tie crosses the top of an open block. -/
theorem tidy_sheet (h : program.MergesBeforeReads) :
    Tidy (sheet program) (openStarts program) (outline program).pushes := by
  induction program using List.reverseRecOn with
  | nil =>
    have hblank (x y : Nat) : cellAt (sheet []).rows x y = {} := by
      refine cellAt_of_length_le ?_
      rw [isBare_iff.1 rfl y]
      exact Nat.zero_le x
    have hclear (t : Nat) : ClearAbove (sheet []).rows t := fun x => by rw [hblank]
    exact {
      wired := by constructor <;> intros <;> simp only [hblank]
      clear := fun b _ => hclear b.top
      rows_lt := fun r hr => by rw [List.mem_singleton.1 hr]; exact Nat.one_pos
      nested := List.pairwise_singleton _ _
      opened := .first rfl }
  | append_singleton program i ih =>
    obtain ⟨hold, hdrop⟩ := mergesBeforeReads_append.1 h
    have ht := ih hold
    have hp := placed_sheet program
    have hread (hi : i.isDrop = true) (keep : Bool) :=
      ht.dropBranch (i := i) hp (length_pushes_outline program) (hdrop hi) keep
    rw [sheet_append, openStarts_append, outline_append, Outline.step]
    unfold Sheet.draw
    split
    · next hop => simp only [hop]; exact ht.start hp fun k hk => lt_of_mem_pushes hk
    · next hop => simp only [hop]; exact ht.parallel
    · next hop => simp only [hop]; exact ht.series hp
    · next hop => simp only [hop]; exact ht.series hp
    · next hop => simp only [hop, Outline.pushes_join]; exact ht.joinParallel hp
    · next hop => simp only [hop, Outline.pushes_join]; exact ht.joinSeries hp
    · next hop => simp only [hop]; exact ht.pushBranch hp
    · next hop =>
      simp only [hop, Outline.pushes_drop]
      exact hread (by simp [Instruction.isDrop, hop]) true
    · next hop =>
      simp only [hop, Outline.pushes_drop]
      exact hread (by simp [Instruction.isDrop, hop]) false
    · next hop => simp only [hop]; exact ht

/-- The cells of a diagram, where the stub of a cell is asked for beyond the border too. -/
theorem stub_eq_true_iff {x y : Nat} (stub : Cell → Bool) (hstub : stub {} = false) :
    stub (cellAt (sheet program).rows x y) = true ↔
      ∃ c, program.layout.cell? x y = some c ∧ stub c.toCell = true := by
  rw [layout_eq, cell?_toDiagram]
  constructor
  · intro hs
    have hin := mem_toDiagram_of_ne (s := sheet program) (x := x) (y := y) fun he => by
      rw [he, hstub] at hs
      cases hs
    exact ⟨_, if_pos hin, hs⟩
  · rintro ⟨c, hc, hs⟩
    split at hc
    · rw [← Option.some.inj hc] at hs
      exact hs
    · cases hc

/-- **The wires of a diagram meet.** Let every branch of a program be read and popped only after the
blocks opened since its push are merged. Then all stubs of its diagram meet. -/
theorem stubsMeet_layout (h : program.MergesBeforeReads) : program.layout.StubsMeet := by
  have hw := (tidy_sheet h).wired
  refine ⟨fun x y c hc => ?_, fun x y c hc => ?_, fun y c hc => ?_, fun x c hc => ?_⟩
  · rw [← cellAt_of_cell? hc, hw.right_eq]
    exact stub_eq_true_iff Cell.left rfl
  · rw [← cellAt_of_cell? hc, hw.down_eq]
    exact stub_eq_true_iff Cell.up rfl
  · rw [← cellAt_of_cell? hc]
    exact hw.left_zero y
  · rw [← cellAt_of_cell? hc]
    exact hw.up_zero x

/-- A branch that is read over the rows of two merged blocks, behind a contact in parallel that opens
the program, with a join that finds no block and a pop that finds no push. -/
theorem stubsMeet_layout_merged_blocks :
    let program := Listing.parse ("OR X0\nAND X1\nMPS\nLD X2\nLDI X3\nORB\nANB\nMRD\nOUT Y0\n" ++
      "ORB\nMPP\nLD= D0 K5\nANB\nMPP\nSET Y1")
    program.MergesBeforeReads ∧ program.layout.StubsMeet := by
  intro program
  have h : program.MergesBeforeReads := by decide
  exact ⟨h, stubsMeet_layout h⟩

end Program
end LadderLogic
