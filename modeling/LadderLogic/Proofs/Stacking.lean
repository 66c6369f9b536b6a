import LadderLogic.Listing
import LadderLogic.Proofs.Mixed

/-!
# Rungs below one another

A program that begins with a block, and in which every join and every read finds what it needs, is
drawn in the same way wherever it stands: below what other instructions have left on the sheet it gets
the same rows, moved down (`sheet_append_rung`), and so its diagram comes below theirs
(`layout_append_rung`).

The steps of the drawing take all their rows from the last blocks and the last anchor. So each of them
commutes with moving the sheet down (`Sheet.under`), as long as these are not the ones left above. Only
a join in series asks about all anchors, and those left above stand above the rows that it moves.

Source: `layout` (section 4.1 of the specification).
-/

namespace LadderLogic

/-! ## Diagrams below one another -/

/-- The cell with its source counted from `n` on. -/
def Cell.renumber (n : Nat) (c : Cell) : Cell := { c with source := c.source.map (n + ·) }

/-- The row with all sources counted from `n` on. -/
def Row.renumber (n : Nat) (row : Row) : Row := row.map (Cell.renumber n)

namespace Diagram

/-- The cells of a diagram, without the places that they carry. -/
def unplaced (d : Diagram) : List Row := d.rows.map (List.map GridCell.toCell)

/-- The diagram with all sources counted from `n` on. -/
def renumber (n : Nat) (d : Diagram) : Diagram :=
  ⟨d.rows.map (List.map fun c => { c with toCell := c.renumber n })⟩

/-- One diagram below another, where empty cells at the end of the rows make up for the difference in
width, and each cell carries the place where it comes to stand. -/
def stack (d below : Diagram) : Diagram :=
  .ofRows ((d.unplaced ++ below.unplaced).map (Row.pad (max d.width below.width)))

theorem unplaced_ofRows (rows : List Row) : (ofRows rows).unplaced = rows := by
  refine List.ext_getElem (by simp [unplaced, ofRows]) fun y hy hy' => ?_
  refine List.ext_getElem (by simp [unplaced, ofRows]) fun x hx hx' => ?_
  simp [unplaced, ofRows, Cell.placed]

theorem unplaced_renumber (n : Nat) (d : Diagram) :
    (d.renumber n).unplaced = d.unplaced.map (Row.renumber n) := by
  simp [unplaced, renumber, Row.renumber, Function.comp_def]

end Diagram

namespace Row

variable {n : Nat}

@[simp]
theorem length_renumber (row : Row) : (renumber n row).length = row.length := by simp [renumber]

theorem renumber_update {f g : Cell → Cell} (h : ∀ c, (f c).renumber n = g (c.renumber n))
    (row : Row) (x : Nat) : renumber n (row.update x f) = (renumber n row).update x g := by
  induction row generalizing x with
  | nil =>
    induction x with
    | zero => exact congrArg (fun c => [c]) (h {})
    | succ x ih => exact congrArg (({} : Cell) :: ·) ih
  | cons c rest ih =>
    cases x with
    | zero => exact congrArg (· :: renumber n rest) (h c)
    | succ x => exact congrArg (c.renumber n :: ·) (ih x)

theorem renumber_wireLeft (row : Row) (x : Nat) :
    renumber n (row.wireLeft x) = (renumber n row).wireLeft x := by
  cases x with
  | zero => rfl
  | succ x =>
    rw [wireLeft, wireLeft, renumber_update (g := ({ · with left := true })) fun _ => rfl,
      renumber_update (g := ({ · with right := true })) fun _ => rfl]

theorem renumber_extend (row : Row) (k : Nat) :
    renumber n (row.extend k) = (renumber n row).extend k := by
  induction k generalizing row with
  | zero => rfl
  | succ k ih =>
    have hid : renumber n (row.update row.length id) = (renumber n row).update row.length id :=
      renumber_update (f := id) (g := id) (fun _ => rfl) row row.length
    rw [extend, extend, ih, renumber_wireLeft, hid, length_renumber]

theorem renumber_wireTo (row : Row) (column : Nat) :
    renumber n (row.wireTo column) = (renumber n row).wireTo column := by
  rw [wireTo, wireTo, renumber_extend, length_renumber]

theorem renumber_shift (row : Row) (offset : Nat) :
    renumber n (row.shift offset) = (renumber n row).shift offset := by
  simp [renumber, shift, Cell.renumber]

theorem renumber_pad (row : Row) (width : Nat) :
    renumber n (row.pad width) = (renumber n row).pad width := by
  simp [renumber, pad, Cell.renumber]

theorem cell_renumber (row : Row) (x : Nat) : (renumber n row).cell x = (row.cell x).renumber n := by
  simp only [cell, renumber, List.getD_eq_getElem?_getD, List.getElem?_map]
  cases row[x]? <;> rfl

theorem startsAtRail_renumber (row : Row) : (renumber n row).startsAtRail = row.startsAtRail := by
  rw [startsAtRail, cell_renumber]
  rfl

/-- Padding twice is padding to the larger width. -/
theorem map_pad_pad {width width' : Nat} (h : width ≤ width') (rows : List Row) :
    (rows.map (pad width)).map (pad width') = rows.map (pad width') := by
  rw [List.map_map]
  refine List.map_congr_left fun row _ => ?_
  simp only [Function.comp_apply, pad, List.length_append, List.length_replicate,
    List.append_assoc, List.replicate_append_replicate]
  congr 2
  omega

end Row

/-- The block with all its rows moved down. -/
def Block.lower (n : Nat) (b : Block) : Block :=
  { b with out := n + b.out, pending := b.pending.map (n + ·), top := n + b.top }

theorem Block.rows_lower (n : Nat) (b : Block) : (b.lower n).rows = b.rows.map (n + ·) := rfl

theorem Diagram.width_renumber (n : Nat) (d : Diagram) : (d.renumber n).width = d.width := by
  cases h : d.rows <;> simp [renumber, width, h]

theorem Sheet.longest_append (rows rows' : List Row) :
    longest (rows ++ rows') = max (longest rows) (longest rows') := by
  rw [longest, List.map_append, List.foldl_append, ← longest, ← Nat.max_zero (longest rows),
    List.foldl_assoc, Nat.max_zero, ← longest]

/-! ## Moving a sheet down -/

/-- What stands above a sheet: the rows, the blocks and anchors that are left open there, and the number
of instructions that left them. -/
structure Remains where
  rows : List Row
  blocks : List Block
  anchors : List (Nat × Nat)
  count : Nat
  anchors_lt : ∀ p ∈ anchors, p.2 < rows.length

namespace Remains

open Sheet

/-- The rows of a sheet below the rows that remain. -/
def above (r : Remains) (rows : List Row) : List Row := r.rows ++ rows.map (Row.renumber r.count)

/-- The place below the rows that remain. -/
def place (r : Remains) (p : Nat × Nat) : Nat × Nat := (p.1, r.rows.length + p.2)

variable {r : Remains} {rows : List Row}

@[simp]
theorem length_above (r : Remains) (rows : List Row) :
    (r.above rows).length = r.rows.length + rows.length := by
  simp [above]

theorem longest_above (r : Remains) (rows : List Row) :
    longest (r.above rows) = max (longest r.rows) (longest rows) := by
  have hlength : List.length ∘ Row.renumber r.count = List.length :=
    funext fun row => Row.length_renumber row
  rw [above, longest_append, longest, longest, longest, List.map_map, hlength]

theorem above_append_nil (r : Remains) (rows : List Row) :
    r.above rows ++ [[]] = r.above (rows ++ [[]]) := by
  simp [above, Row.renumber]

/-- A change of rows that hangs on their numbers, and leaves those that remain alone. -/
theorem mapIdx_above {f g : Nat → Row → Row} (habove : ∀ y < r.rows.length, ∀ row, f y row = row)
    (h : ∀ y row, f (r.rows.length + y) (row.renumber r.count) = (g y row).renumber r.count) :
    (r.above rows).mapIdx f = r.above (rows.mapIdx g) := by
  rw [above, above, List.mapIdx_append]
  congr 1
  · refine List.ext_getElem (by simp) fun y hy hy' => ?_
    rw [List.getElem_mapIdx]
    exact habove y hy' _
  · refine List.ext_getElem (by simp) fun y hy hy' => ?_
    rw [List.getElem_mapIdx, List.getElem_map, List.getElem_map, List.getElem_mapIdx, Nat.add_comm]
    exact h y _

theorem modify_eq_mapIdx (rows : List Row) (y : Nat) (f : Row → Row) :
    rows.modify y f = rows.mapIdx fun k row => if y = k then f row else row := by
  refine List.ext_getElem (by simp) fun k hk hk' => ?_
  rw [List.getElem_modify, List.getElem_mapIdx]

theorem modify_above {f g : Row → Row}
    (h : ∀ row, f (row.renumber r.count) = (g row).renumber r.count) (rows : List Row) (y : Nat) :
    (r.above rows).modify (r.rows.length + y) f = r.above (rows.modify y g) := by
  rw [modify_eq_mapIdx, modify_eq_mapIdx]
  refine mapIdx_above (fun k hk row => if_neg (by omega)) fun k row => ?_
  by_cases hk : y = k
  · rw [if_pos (by omega), if_pos hk, h]
  · rw [if_neg (by omega), if_neg hk]

/-- A change of some of the rows. -/
theorem mapIdx_mem_above {f : Row → Row}
    (h : ∀ row, f (row.renumber r.count) = (f row).renumber r.count) (rows : List Row)
    (ys : List Nat) :
    ((r.above rows).mapIdx fun y row => if y ∈ ys.map (r.rows.length + ·) then f row else row) =
      r.above (rows.mapIdx fun y row => if y ∈ ys then f row else row) := by
  refine mapIdx_above (fun y hy row => if_neg fun hmem => ?_) fun y row => ?_
  · obtain ⟨k, -, rfl⟩ := List.mem_map.1 hmem
    omega
  · simp only [List.mem_map_of_injective fun _ _ => Nat.add_left_cancel]
    split
    · exact h row
    · rfl

end Remains

namespace Sheet

open Remains

variable (r : Remains) (rows : List Row)

theorem put_above (x y : Nat) (i : Instruction) (n : Nat) :
    put (r.above rows) x (r.rows.length + y) i (r.count + n) = r.above (put rows x y i n) := by
  rw [put, put]
  refine modify_above (fun row => ?_) rows y
  rw [Row.renumber_update]
  exact fun _ => rfl

theorem putWired_above (x y : Nat) (i : Instruction) (n : Nat) :
    putWired (r.above rows) x (r.rows.length + y) i (r.count + n) = r.above (putWired rows x y i n) := by
  rw [putWired, putWired, put_above]
  exact modify_above (fun row => (Row.renumber_wireLeft row x).symm) _ y

theorem wireRowsTo_above (ys : List Nat) (column : Nat) :
    wireRowsTo (r.above rows) (ys.map (r.rows.length + ·)) column =
      r.above (wireRowsTo rows ys column) :=
  mapIdx_mem_above (fun row => (Row.renumber_wireTo row column).symm) rows ys

theorem tie_above (x top bottom : Nat) :
    tie (r.above rows) x (r.rows.length + top) (r.rows.length + bottom) =
      r.above (tie rows x top bottom) := by
  refine mapIdx_above (fun y hy row => if_neg (by simp; omega)) fun y row => ?_
  simp only [Nat.add_le_add_iff_left, Nat.add_lt_add_iff_left]
  split
  · rw [Row.renumber_update]
    exact fun _ => rfl
  · rfl

theorem shiftRows_above (top offset : Nat) :
    shiftRows (r.above rows) (r.rows.length + top) offset = r.above (shiftRows rows top offset) := by
  refine mapIdx_above (fun y hy row => if_neg (by omega)) fun y row => ?_
  simp only [Nat.add_le_add_iff_left]
  split
  · exact (Row.renumber_shift row offset).symm
  · rfl

theorem railRows_above (top : Nat) :
    railRows (r.above rows) (r.rows.length + top) = (railRows rows top).map (r.rows.length + ·) := by
  have hrows : (rows.map (Row.renumber r.count)).zipIdx r.rows.length =
      rows.zipIdx.map (Prod.map (Row.renumber r.count) (r.rows.length + ·)) := by
    rw [List.zipIdx_map, List.zipIdx_eq_map_add, List.map_map]
    rfl
  rw [railRows, above, List.zipIdx_append, List.filter_append,
    List.filter_eq_nil_iff (l := r.rows.zipIdx) |>.2, List.nil_append, Nat.zero_add, hrows,
    List.filter_map, railRows, List.map_map, List.map_map]
  · refine congrArg (List.map _) (List.filter_congr fun p _ => ?_)
    simp [Row.startsAtRail_renumber]
  · -- the rows that remain are not counted
    rintro ⟨row, y⟩ hmem
    have hy := (List.mem_zipIdx hmem).2.1
    simp
    omega

theorem tiePending_above (b : Block) :
    tiePending (r.above rows) (b.lower r.rows.length) = r.above (tiePending rows b) := by
  rw [tiePending, tiePending, Block.rows_lower, Block.lower, List.getLast?_map]
  cases b.pending.getLast? with
  | none => rfl
  | some bottom =>
    cases b.width with
    | zero => rfl
    | succ x =>
      rw [Option.map_some]
      simp only [wireRowsTo_above, tie_above]

theorem junction_above (a : Block) (entries : List Nat) (bottom : Nat) :
    junction (r.above rows) (a.lower r.rows.length) (entries.map (r.rows.length + ·))
        (r.rows.length + bottom) = r.above (junction rows a entries bottom) := by
  rw [junction, junction, Block.lower,
    modify_above (fun row => (Row.renumber_wireLeft row a.width).symm), tie_above]
  exact mapIdx_mem_above (fun row => (Row.renumber_wireLeft row (a.width + 1)).symm) _ entries

/-- The sheet below what remains. -/
def under (r : Remains) (s : Sheet) : Sheet where
  rows := r.above s.rows
  block := s.block.lower r.rows.length
  waiting := s.waiting.map (Block.lower r.rows.length) ++ r.blocks
  anchors := s.anchors.map r.place ++ r.anchors

variable {s : Sheet} (i : Instruction) (n : Nat)

theorem isBare_under (h : s.isBare = false) : (s.under r).isBare = false := by
  have hrows : (s.rows.map (Row.renumber r.count)).all List.isEmpty = s.isBare := by
    rw [isBare, List.all_map]
    congr 1
    funext row
    cases row <;> rfl
  rw [isBare, under, above, List.all_append, hrows, h, Bool.and_false]

theorem start_under (h : s.isBare = false) :
    (s.under r).start i (r.count + n) = (s.start i n).under r := by
  rw [start, start, if_neg (by rw [isBare_under r h]; decide), if_neg (by rw [h]; decide)]
  simp only [under, length_above, above_append_nil, put_above]
  rfl

theorem parallel_under : (s.under r).parallel i (r.count + n) = (s.parallel i n).under r := by
  simp only [parallel, under, length_above, above_append_nil, put_above, Block.lower, List.map_append]
  rfl

theorem series_under : (s.under r).series i (r.count + n) = (s.series i n).under r := by
  have hput := putWired_above r (tiePending s.rows s.block) s.block.width s.block.out i n
  rw [← tiePending_above] at hput
  simp only [series, under]
  rw [← hput]
  rfl

theorem pushBranch_under : (s.under r).pushBranch i (r.count + n) = (s.pushBranch i n).under r := by
  rw [pushBranch, series_under]
  rfl

theorem waiting_under {a : Block} {waiting : List Block} (h : s.waiting = a :: waiting) :
    (s.under r).waiting =
      a.lower r.rows.length :: (waiting.map (Block.lower r.rows.length) ++ r.blocks) := by
  rw [under, h]
  rfl

theorem joinParallel_under (h : s.waiting ≠ []) :
    (s.under r).joinParallel = s.joinParallel.under r := by
  obtain ⟨a, waiting, hw⟩ := List.exists_cons_of_ne_nil h
  have hwire := wireRowsTo_above r s.rows (a.rows ++ s.block.rows) (max a.width s.block.width)
  rw [List.map_append] at hwire
  rw [joinParallel, waiting_under r hw, joinParallel, hw]
  simp only [under, Block.lower, List.map_append]
  rw [← hwire]
  simp [Block.rows]

/-- A join in series moves none of the anchors that remain, since they stand above its rows. -/
theorem map_anchors_under (anchors : List (Nat × Nat)) (top offset : Nat) :
    (anchors.map r.place ++ r.anchors).map
        (fun (x, y) => if r.rows.length + top ≤ y then (x + offset, y) else (x, y)) =
      (anchors.map fun (x, y) => if top ≤ y then (x + offset, y) else (x, y)).map r.place ++
        r.anchors := by
  rw [List.map_append]
  congr 1
  · rw [List.map_map, List.map_map]
    refine List.map_congr_left fun p _ => ?_
    by_cases h : top ≤ p.2 <;> simp [place, h]
  · refine (List.map_congr_left fun p hmem => if_neg ?_).trans (List.map_id _)
    have := r.anchors_lt p hmem
    omega

theorem rows_joinSeries_under (h : s.waiting ≠ []) :
    (s.under r).joinSeries.rows = r.above s.joinSeries.rows := by
  obtain ⟨a, waiting, hw⟩ := List.exists_cons_of_ne_nil h
  have hbottom : ∀ entries : List Nat, r.rows.length + entries.getLast?.getD s.block.top =
      (entries.map (r.rows.length + ·)).getLast?.getD (r.rows.length + s.block.top) := by
    intro entries
    rw [List.getLast?_map, Option.getD_map]
  rw [rows_joinSeries hw, ← junction_above, ← shiftRows_above, hbottom, ← railRows_above,
    ← tiePending_above, rows_joinSeries (waiting_under r hw)]
  rfl

theorem joinSeries_under (h : s.waiting ≠ []) : (s.under r).joinSeries = s.joinSeries.under r := by
  have hrows := rows_joinSeries_under r h
  obtain ⟨a, waiting, hw⟩ := List.exists_cons_of_ne_nil h
  have hanchors := map_anchors_under r s.anchors s.block.top (a.width + 1)
  rw [joinSeries, waiting_under r hw, joinSeries, hw] at hrows ⊢
  rw [under, Sheet.mk.injEq]
  exact ⟨hrows, rfl, rfl, hanchors⟩

theorem dropBranch_under (h : s.anchors ≠ []) (keep : Bool) :
    (s.under r).dropBranch i (r.count + n) keep = (s.dropBranch i n keep).under r := by
  obtain ⟨⟨x, top⟩, anchors, ha⟩ := List.exists_cons_of_ne_nil h
  have ha' : (s.under r).anchors = (x, r.rows.length + top) ::
      (anchors.map r.place ++ r.anchors) := by
    rw [under, ha]
    rfl
  rw [dropBranch, ha', dropBranch, ha]
  simp only [under, length_above, above_append_nil, tie_above, put_above]
  cases keep <;> rfl

/-- Whether an instruction finds what it needs: a join a block that waits, and a read or a pop an
anchor. -/
def Serves (s : Sheet) (i : Instruction) : Prop :=
  (i.isJoin = true → s.waiting ≠ []) ∧ (i.isDrop = true → s.anchors ≠ [])

instance (s : Sheet) (i : Instruction) : Decidable (s.Serves i) :=
  inferInstanceAs (Decidable (_ ∧ _))

/-- **An instruction that finds what it needs is drawn below what remains as it is drawn alone.** -/
theorem draw_under (hbare : s.isBare = false) (h : s.Serves i) :
    (s.under r).draw i (r.count + n) = (s.draw i n).under r := by
  unfold draw
  split
  · exact start_under r i n hbare
  · exact parallel_under r i n
  · exact series_under r i n
  · exact series_under r i n
  · next hop => exact joinParallel_under r (h.1 (by simp [Instruction.isJoin, hop]))
  · next hop => exact joinSeries_under r (h.1 (by simp [Instruction.isJoin, hop]))
  · exact pushBranch_under r i n
  · next hop => exact dropBranch_under r i n (h.2 (by simp [Instruction.isDrop, hop])) true
  · next hop => exact dropBranch_under r i n (h.2 (by simp [Instruction.isDrop, hop])) false
  · rfl

/-! ## What a program leaves on the sheet -/

/-- No row of a sheet is ever taken away. -/
theorem length_le_draw (s : Sheet) : s.rows.length ≤ (s.draw i n).rows.length := by
  unfold draw
  split
  · unfold start
    split <;> simp
  · simp [parallel]
  · simp [series]
  · simp [series]
  · unfold joinParallel
    split <;> simp
  · unfold joinSeries
    split <;> simp
  · simp [pushBranch, series]
  · unfold dropBranch
    split <;> simp
  · unfold dropBranch
    split <;> simp
  · exact Nat.le_refl _

/-- An anchor stands on the row of an earlier one, or on the output row of the block. -/
theorem mem_anchors_draw {p : Nat × Nat} (h : p ∈ (s.draw i n).anchors) :
    (∃ q ∈ s.anchors, q.2 = p.2) ∨ p.2 = s.block.out := by
  have hdrop (keep : Bool) (hp : p ∈ (s.dropBranch i n keep).anchors) :
      ∃ q ∈ s.anchors, q.2 = p.2 := by
    unfold dropBranch at hp
    split at hp
    · exact ⟨p, hp, rfl⟩
    · next ha =>
      rw [ha] at hp ⊢
      cases keep with
      | true => exact ⟨p, hp, rfl⟩
      | false => exact ⟨p, List.mem_cons_of_mem _ hp, rfl⟩
  unfold draw at h
  split at h
  · unfold start at h
    split at h <;> exact .inl ⟨p, h, rfl⟩
  · exact .inl ⟨p, h, rfl⟩
  · exact .inl ⟨p, h, rfl⟩
  · exact .inl ⟨p, h, rfl⟩
  · unfold joinParallel at h
    split at h <;> exact .inl ⟨p, h, rfl⟩
  · obtain ⟨f, hf, hanchors⟩ := anchors_joinSeries s
    rw [hanchors] at h
    obtain ⟨q, hq, rfl⟩ := List.mem_map.1 h
    exact .inl ⟨q, hq, (hf q).symm⟩
  · rcases List.mem_cons.1 h with rfl | h
    · exact .inr rfl
    · exact .inl ⟨p, h, rfl⟩
  · exact .inl (hdrop true h)
  · exact .inl (hdrop false h)
  · exact .inl ⟨p, h, rfl⟩

end Sheet

namespace Program

open Sheet

/-- Whether every join of a program finds two blocks, and every read and every pop a branch. -/
def NoneDangling (program : Program) : Prop :=
  ∀ n (h : n < program.length), (sheet (program.take n)).Serves program[n]

instance (program : Program) : Decidable program.NoneDangling :=
  inferInstanceAs (Decidable (∀ n (_ : n < program.length), _))

/-- Every anchor stands on a row of the sheet. -/
theorem anchors_lt_sheet (program : Program) :
    ∀ p ∈ (sheet program).anchors, p.2 < (sheet program).rows.length := by
  induction program using List.reverseRecOn with
  | nil => exact fun p hp => nomatch hp
  | append_singleton program i ih =>
    rw [sheet_append]
    intro p hp
    refine Nat.lt_of_lt_of_le ?_ (length_le_draw i program.length (sheet program))
    rcases mem_anchors_draw i _ hp with ⟨q, hq, he⟩ | he
    · rw [← he]
      exact ih q hq
    · rw [he]
      exact (placed_sheet program).block_room.out_lt

/-- A sheet stays as it is until an instruction is drawn. -/
theorem sheet_eq_of_isBare {program : Program} (h : (sheet program).isBare = true) :
    sheet program = {} := by
  have hnone : ∀ n, ¬IsDrawn program n := by
    intro n hn
    obtain ⟨x, y, he⟩ := (placed_sheet program).holds.drawn hn
    rw [marks_of_isBare h] at he
    cases he
  clear h
  induction program using List.reverseRecOn with
  | nil => rfl
  | append_singleton program i ih =>
    have hs : sheet program = {} :=
      ih fun n hn => hnone n ((isDrawn_append i hn.lt).2 hn)
    have hi := mt (isDrawn_length i).2 (hnone program.length)
    rw [sheet_append, hs]
    unfold draw
    -- what is not drawn is a join, a read or a pop, and finds nothing here
    split
    · next hop => exact absurd (by rw [Instruction.isDrawn, hop]) hi
    · next hop => exact absurd (by rw [Instruction.isDrawn, hop]) hi
    · next hop => exact absurd (by rw [Instruction.isDrawn, hop]) hi
    · next hop => exact absurd (by rw [Instruction.isDrawn, hop]) hi
    · rfl
    · rfl
    · next hop => exact absurd (by rw [Instruction.isDrawn, hop]) hi
    · rfl
    · rfl
    · rfl

/-- What a program leaves for the rungs below it. A sheet without cells leaves nothing: its only row is
the first row of the next rung. -/
def remains (program : Program) : Remains :=
  if (sheet program).isBare then
    { rows := [], blocks := [], anchors := [], count := program.length, anchors_lt := by simp }
  else
    { rows := (sheet program).rows
      blocks := (sheet program).block :: (sheet program).waiting
      anchors := (sheet program).anchors
      count := program.length
      anchors_lt := anchors_lt_sheet program }

@[simp]
theorem count_remains (program : Program) : program.remains.count = program.length := by
  unfold remains
  split <;> rfl

/-- The first contact of a rung opens its block below what remains. -/
theorem sheet_append_start (program : Program) {i : Instruction} {test : Test}
    (hi : i.operation = .known (.contact .start test)) :
    sheet (program ++ [i]) = (sheet [i]).under program.remains := by
  have hput := put_above program.remains [[]] 0 0 i 0
  rw [sheet_append, sheet_singleton hi, draw]
  simp only [hi]
  rw [start]
  rw [remains] at hput ⊢
  split
  · next hbare =>
    rw [sheet_eq_of_isBare hbare]
    rfl
  · next hbare =>
    rw [if_neg hbare] at hput
    rw [under, Sheet.mk.injEq]
    exact ⟨hput, rfl, rfl, rfl⟩

/-- **A rung is drawn below a program as it is drawn alone.** -/
theorem sheet_append_rung (program : Program) {rung : Program} (hb : rung.BeginsBlock)
    (hd : rung.NoneDangling) : sheet (program ++ rung) = (sheet rung).under program.remains := by
  induction rung using List.reverseRecOn with
  | nil =>
    obtain ⟨i, test, rest, he, -⟩ := hb
    cases he
  | append_singleton rung i ih =>
    -- the first instruction opens the block; from then on the rung's own sheet is not bare
    by_cases hnil : rung = []
    · subst hnil
      obtain ⟨j, test, rest, he, hj⟩ := hb
      rw [List.nil_append, List.cons.injEq] at he
      exact sheet_append_start program (he.1 ▸ hj)
    · have hb' := hb.of_append hnil
      obtain ⟨hd', hi⟩ := (forall_append (P := fun before i => (sheet before).Serves i)).1 hd
      have hdraw := draw_under program.remains i rung.length (isBare_sheet hb') hi
      rw [count_remains, ← ih hb' hd', ← sheet_append] at hdraw
      rw [← List.append_assoc, sheet_append, List.length_append, hdraw]

/-! ## The diagrams -/

theorem unplaced_layout (program : Program) :
    program.layout.unplaced =
      program.remains.rows.map (Row.pad (longest program.remains.rows)) := by
  rw [layout_eq, remains]
  cases hbare : (sheet program).isBare with
  | true => simp [toDiagram, hbare, Diagram.unplaced]
  | false => rw [toDiagram_eq hbare, Diagram.unplaced_ofRows]; rfl

theorem width_layout (program : Program) :
    program.layout.width = longest program.remains.rows := by
  rw [layout_eq, remains]
  cases hbare : (sheet program).isBare with
  | true => simp [toDiagram, hbare, Diagram.width, longest]
  | false => exact width_toDiagram hbare

theorem unplaced_renumber_layout {rung : Program} (hb : rung.BeginsBlock) (n : Nat) :
    ((layout rung).renumber n).unplaced =
      ((sheet rung).rows.map (Row.renumber n)).map (Row.pad (longest (sheet rung).rows)) := by
  rw [Diagram.unplaced_renumber, layout_eq, toDiagram_eq (isBare_sheet hb), Diagram.unplaced_ofRows,
    List.map_map, List.map_map]
  exact List.map_congr_left fun row _ => Row.renumber_pad row _

/-- **A rung is laid out on its own.** Let a program begin with a block, and let all its joins, reads
and pops find what they need. Then below any other program it gets the diagram that it has alone, with
its sources counted on. -/
theorem layout_append_rung (program : Program) {rung : Program} (hb : rung.BeginsBlock)
    (hd : rung.NoneDangling) :
    layout (program ++ rung) = (layout program).stack ((layout rung).renumber program.length) := by
  have hbare := isBare_sheet hb
  let width := longest (program.remains.above (sheet rung).rows)
  have hle := Remains.longest_above program.remains (sheet rung).rows
  have hwidth : max (layout program).width ((layout rung).renumber program.length).width = width := by
    rw [Diagram.width_renumber, width_layout, layout_eq, width_toDiagram hbare, ← hle]
  have habove : (layout program).unplaced.map (Row.pad width) =
      program.remains.rows.map (Row.pad width) := by
    rw [unplaced_layout, Row.map_pad_pad (by omega)]
  have hbelow : ((layout rung).renumber program.length).unplaced.map (Row.pad width) =
      ((sheet rung).rows.map (Row.renumber program.length)).map (Row.pad width) := by
    rw [unplaced_renumber_layout hb, Row.map_pad_pad (by omega)]
  rw [Diagram.stack, hwidth, List.map_append, habove, hbelow, ← List.map_append, layout_eq,
    sheet_append_rung program hb hd, toDiagram_eq (isBare_under _ hbare), ← count_remains program]
  rfl

/-- A rung with parallel contacts, a join in series and a branch below a program that leaves two blocks
and an anchor open; the program is wider than the rung. -/
theorem layout_append_rung_left_open :
    let program := Listing.parse "LD X0\nAND X1\nMPS\nAND X2\nANI X8\nOUT Y0\nLDI X3\nLD X4"
    let rung := Listing.parse "LD= D0 K5\nOR X5\nLD X6\nORI X7\nANB\nMPS\nOUT Y1\nMPP\nSET Y2"
    rung.BeginsBlock ∧ rung.NoneDangling ∧ (sheet program).waiting ≠ [] ∧
      (sheet program).anchors ≠ [] ∧
      layout (program ++ rung) = (layout program).stack ((layout rung).renumber program.length) := by
  intro program rung
  have hb : rung.BeginsBlock := by decide
  have hd : rung.NoneDangling := by decide
  exact ⟨hb, hd, by decide, by decide, layout_append_rung program hb hd⟩

end Program

end LadderLogic
