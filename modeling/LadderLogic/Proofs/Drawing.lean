import LadderLogic.Proofs.Sheet

/-!
# What each drawing step does to a cell

A sheet is read as an unbounded grid: `cellAt rows x y` is the cell in column `x` of row `y`, and an
empty cell where nothing is drawn. Each step of `LadderLogic.Proofs.Sheet` is described by one
equation for `cellAt` and one for the length of a row. The equations give the new cell as the old one
with some stubs added, so that what a step leaves alone can be read off them.

Source: the operations of `_LayoutBuilder` (section 4.1 of the specification).
-/

namespace LadderLogic

namespace Row

theorem cell_of_length_le {row : Row} {k : Nat} (h : row.length ≤ k) : row.cell k = {} := by
  simp [cell, List.getElem?_eq_none h]

/-- Wiring a cell to the left adds one stub on each side of the border. -/
theorem cell_wireLeft (row : Row) (x k : Nat) :
    (row.wireLeft x).cell k =
      { row.cell k with
        left := (row.cell k).left || decide (k = x ∧ 0 < x)
        right := (row.cell k).right || decide (k + 1 = x) } := by
  cases x with
  | zero => simp [wireLeft]
  | succ x =>
    simp only [wireLeft, cell_update]
    by_cases hk : k = x + 1
    · subst hk
      simp
    · by_cases hx : k = x
      · subst hx
        simp
      · simp [hk, hx]

/-- Plain wire behind a row: each new cell is wired to the one on its left. -/
theorem cell_extend (row : Row) (n k : Nat) :
    (row.extend n).cell k =
      { row.cell k with
        left := (row.cell k).left || decide (row.length ≤ k ∧ 0 < k ∧ k < row.length + n)
        right := (row.cell k).right || decide (row.length ≤ k + 1 ∧ k + 1 < row.length + n) } := by
  induction n generalizing row with
  | zero =>
    have h : ¬(row.length ≤ k ∧ 0 < k ∧ k < row.length) := by omega
    have h' : ¬(row.length ≤ k + 1 ∧ k + 1 < row.length) := by omega
    simp [extend, h, h']
  | succ n ih =>
    have hlen : ((row.update row.length id).wireLeft row.length).length = row.length + 1 := by
      rw [length_wireLeft, length_update]
      split <;> omega
    have hid : (row.update row.length id).cell k = row.cell k := by
      rw [cell_update]
      split
      · next h => rw [h, id]
      · rfl
    rw [extend, ih, hlen, cell_wireLeft, hid]
    -- one wired cell and then `n` of them are `n + 1` wired cells
    have hl : ((k = row.length ∧ 0 < row.length) ∨
        (row.length + 1 ≤ k ∧ 0 < k ∧ k < row.length + 1 + n)) ↔
        (row.length ≤ k ∧ 0 < k ∧ k < row.length + (n + 1)) := by omega
    have hr : (k + 1 = row.length ∨ (row.length + 1 ≤ k + 1 ∧ k + 1 < row.length + 1 + n)) ↔
        (row.length ≤ k + 1 ∧ k + 1 < row.length + (n + 1)) := by omega
    simp only [Bool.or_assoc, ← Bool.decide_or, hl, hr]

theorem cell_wireTo (row : Row) (column k : Nat) :
    (row.wireTo column).cell k =
      { row.cell k with
        left := (row.cell k).left || decide (row.length ≤ k ∧ 0 < k ∧ k < column)
        right := (row.cell k).right || decide (row.length ≤ k + 1 ∧ k + 1 < column) } := by
  rw [wireTo, cell_extend]
  have hl : (row.length ≤ k ∧ 0 < k ∧ k < row.length + (column - row.length)) ↔
      (row.length ≤ k ∧ 0 < k ∧ k < column) := by omega
  have hr : (row.length ≤ k + 1 ∧ k + 1 < row.length + (column - row.length)) ↔
      (row.length ≤ k + 1 ∧ k + 1 < column) := by omega
  simp only [hl, hr]

end Row

namespace Sheet

/-- The row with a number. -/
def rowAt (rows : List Row) (y : Nat) : Row := rows.getD y []

/-- The cell in a column of a row. -/
def cellAt (rows : List Row) (x y : Nat) : Cell := (rowAt rows y).cell x

theorem rowAt_of_length_le {rows : List Row} {y : Nat} (h : rows.length ≤ y) :
    rowAt rows y = [] := by
  simp [rowAt, List.getElem?_eq_none h]

theorem rowAt_mapIdx {rows : List Row} {y : Nat} (f : Nat → Row → Row) (h : y < rows.length) :
    rowAt (rows.mapIdx f) y = f y (rowAt rows y) := by
  simp [rowAt, h]

theorem rowAt_modify {rows : List Row} {i : Nat} (f : Row → Row) (y : Nat) (h : i < rows.length) :
    rowAt (rows.modify i f) y = if y = i then f (rowAt rows y) else rowAt rows y := by
  by_cases hy : y = i
  · subst hy
    simp [rowAt, h]
  · simp [rowAt, hy, Ne.symm hy]

@[simp]
theorem rowAt_append_nil (rows : List Row) (y : Nat) : rowAt (rows ++ [[]]) y = rowAt rows y := by
  rcases Nat.lt_trichotomy y rows.length with h | h | h
  · simp [rowAt, List.getElem?_append_left h]
  · subst h
    simp [rowAt]
  · rw [rowAt_of_length_le (Nat.le_of_lt h), rowAt_of_length_le]
    rw [List.length_append, List.length_singleton]
    exact h

@[simp]
theorem cellAt_append_nil (rows : List Row) (x y : Nat) :
    cellAt (rows ++ [[]]) x y = cellAt rows x y := by
  rw [cellAt, rowAt_append_nil, cellAt]

theorem cellAt_append_nil_eq (rows : List Row) : cellAt (rows ++ [[]]) = cellAt rows :=
  funext fun x => funext fun y => cellAt_append_nil rows x y

theorem cellAt_of_length_le {rows : List Row} {x y : Nat} (h : (rowAt rows y).length ≤ x) :
    cellAt rows x y = {} :=
  Row.cell_of_length_le h

theorem cellAt_of_height_le {rows : List Row} {x y : Nat} (h : rows.length ≤ y) :
    cellAt rows x y = {} := by
  apply cellAt_of_length_le
  rw [rowAt_of_length_le h]
  exact Nat.zero_le x

/-! ## Instructions -/

@[simp]
theorem length_put (rows : List Row) (x y : Nat) (i : Instruction) (n : Nat) :
    (put rows x y i n).length = rows.length := by
  simp [put]

theorem cellAt_put {rows : List Row} {y : Nat} (x : Nat) (i : Instruction) (n : Nat) (x' y' : Nat)
    (hy : y < rows.length) :
    cellAt (put rows x y i n) x' y' =
      if x' = x ∧ y' = y then { cellAt rows x y with instruction := some i, source := some n }
      else cellAt rows x' y' := by
  rw [cellAt, put, rowAt_modify _ _ hy]
  by_cases h : y' = y
  · subst h
    rw [if_pos rfl, Row.cell_update]
    by_cases hx : x' = x <;> simp [hx, cellAt]
  · simp [h, cellAt]

theorem length_rowAt_put {rows : List Row} {y : Nat} (x : Nat) (i : Instruction) (n : Nat) (y' : Nat)
    (hy : y < rows.length) :
    (rowAt (put rows x y i n) y').length =
      if y' = y then max (rowAt rows y').length (x + 1) else (rowAt rows y').length := by
  rw [put, rowAt_modify _ _ hy]
  split <;> simp

@[simp]
theorem length_putWired (rows : List Row) (x y : Nat) (i : Instruction) (n : Nat) :
    (putWired rows x y i n).length = rows.length := by
  simp [putWired]

theorem cellAt_putWired {rows : List Row} {y : Nat} (x : Nat) (i : Instruction) (n : Nat)
    (x' y' : Nat) (hy : y < rows.length) :
    cellAt (putWired rows x y i n) x' y' =
      { cellAt (put rows x y i n) x' y' with
        left := (cellAt rows x' y').left || decide (y' = y ∧ x' = x ∧ 0 < x)
        right := (cellAt rows x' y').right || decide (y' = y ∧ x' + 1 = x) } := by
  have hput := cellAt_put x i n x' y' hy
  have hl : (cellAt (put rows x y i n) x' y').left = (cellAt rows x' y').left := by
    rw [hput]; split
    · next h => rw [h.1, h.2]
    · rfl
  have hr : (cellAt (put rows x y i n) x' y').right = (cellAt rows x' y').right := by
    rw [hput]; split
    · next h => rw [h.1, h.2]
    · rfl
  rw [cellAt, putWired, rowAt_modify _ _ (by simpa using hy)]
  by_cases h : y' = y
  · rw [if_pos h, Row.cell_wireLeft, ← cellAt, hl, hr]
    simp [h]
  · rw [if_neg h, ← cellAt]
    simp [h, ← hl, ← hr]

theorem length_rowAt_putWired {rows : List Row} {y : Nat} (x : Nat) (i : Instruction) (n : Nat)
    (y' : Nat) (hy : y < rows.length) :
    (rowAt (putWired rows x y i n) y').length =
      if y' = y then max (rowAt rows y').length (x + 1) else (rowAt rows y').length := by
  rw [putWired, rowAt_modify _ _ (by simpa using hy)]
  by_cases h : y' = y
  · rw [if_pos h, if_pos h, Row.length_wireLeft, length_rowAt_put _ _ _ _ hy, if_pos h]
    split <;> omega
  · rw [if_neg h, if_neg h, length_rowAt_put _ _ _ _ hy, if_neg h]

/-! ## Wire -/

@[simp]
theorem length_wireRowsTo (rows : List Row) (ys : List Nat) (column : Nat) :
    (wireRowsTo rows ys column).length = rows.length := by
  simp [wireRowsTo]

theorem cellAt_wireRowsTo (rows : List Row) (ys : List Nat) (column x y : Nat) :
    cellAt (wireRowsTo rows ys column) x y =
      { cellAt rows x y with
        left := (cellAt rows x y).left || decide (y < rows.length ∧ y ∈ ys ∧
          (rowAt rows y).length ≤ x ∧ 0 < x ∧ x < column)
        right := (cellAt rows x y).right || decide (y < rows.length ∧ y ∈ ys ∧
          (rowAt rows y).length ≤ x + 1 ∧ x + 1 < column) } := by
  by_cases hy : y < rows.length
  · rw [cellAt, wireRowsTo, rowAt_mapIdx _ hy]
    by_cases h : y ∈ ys
    · simp [h, hy, Row.cell_wireTo, cellAt]
    · simp [h, cellAt]
  · rw [cellAt_of_height_le (by simpa using hy), cellAt_of_height_le (by omega)]
    simp [hy]

theorem rowAt_wireRowsTo_of_notMem {rows : List Row} {ys : List Nat} {y : Nat} (hy : y ∉ ys)
    (column : Nat) : rowAt (wireRowsTo rows ys column) y = rowAt rows y := by
  by_cases h : y < rows.length
  · rw [wireRowsTo, rowAt_mapIdx _ h, if_neg hy]
  · rw [rowAt_of_length_le (by simpa using h), rowAt_of_length_le (by omega)]

theorem length_rowAt_wireRowsTo (rows : List Row) (ys : List Nat) (column y : Nat) :
    (rowAt (wireRowsTo rows ys column) y).length =
      if y < rows.length ∧ y ∈ ys then max (rowAt rows y).length column
      else (rowAt rows y).length := by
  by_cases hy : y < rows.length
  · rw [wireRowsTo, rowAt_mapIdx _ hy]
    by_cases h : y ∈ ys <;> simp [h, hy]
  · rw [rowAt_of_length_le (by simpa using hy), rowAt_of_length_le (by omega)]
    simp [hy]

@[simp]
theorem length_tie (rows : List Row) (x top bottom : Nat) :
    (tie rows x top bottom).length = rows.length := by
  simp [tie]

theorem cellAt_tie (rows : List Row) (x top bottom k y : Nat) :
    cellAt (tie rows x top bottom) k y =
      { cellAt rows k y with
        up := (cellAt rows k y).up ||
          decide (y < rows.length ∧ k = x ∧ top < y ∧ y ≤ bottom)
        down := (cellAt rows k y).down ||
          decide (y < rows.length ∧ k = x ∧ top ≤ y ∧ y < bottom) } := by
  by_cases hy : y < rows.length
  · rw [cellAt, tie, rowAt_mapIdx _ hy]
    by_cases h : top ≤ y ∧ y ≤ bottom
    · rw [if_pos (by simpa using h), Row.cell_update]
      by_cases hk : k = x
      · subst hk
        simp [h.1, h.2, hy, cellAt]
      · simp [hk, cellAt]
    · have hu : ¬(top < y ∧ y ≤ bottom) := by omega
      have hd : ¬(top ≤ y ∧ y < bottom) := by omega
      rw [if_neg (by simpa using h)]
      simp [hu, hd, cellAt]
  · rw [cellAt_of_height_le (by simpa using hy), cellAt_of_height_le (by omega)]
    simp [hy]

theorem length_rowAt_tie (rows : List Row) (x top bottom y : Nat) :
    (rowAt (tie rows x top bottom) y).length =
      if y < rows.length ∧ top ≤ y ∧ y ≤ bottom then max (rowAt rows y).length (x + 1)
      else (rowAt rows y).length := by
  by_cases hy : y < rows.length
  · rw [tie, rowAt_mapIdx _ hy]
    by_cases h : top ≤ y ∧ y ≤ bottom
    · rw [if_pos (by simpa using h), if_pos ⟨hy, h⟩, Row.length_update]
    · rw [if_neg (by simpa using h), if_neg (fun e => h e.2)]
  · rw [rowAt_of_length_le (by simpa using hy), rowAt_of_length_le (by omega)]
    simp [hy]

/-! ## Pending rows -/

theorem tiePending_of_nil {b : Block} (rows : List Row) (h : b.pending = []) :
    tiePending rows b = rows := by
  simp [tiePending, h]

theorem tiePending_of_width {b : Block} (rows : List Row) (h : b.width = 0) :
    tiePending rows b = rows := by
  rw [tiePending]
  split
  · next hw => omega
  · rfl

theorem tiePending_eq {b : Block} {x bottom : Nat} (rows : List Row)
    (hp : b.pending.getLast? = some bottom) (hw : b.width = x + 1) :
    tiePending rows b = tie (wireRowsTo rows b.rows (x + 1)) x b.out bottom := by
  rw [tiePending, hp, hw]

/-- Tying the pending rows of a block is a tie of wired rows, or nothing at all. -/
theorem tiePending_cases (rows : List Row) (b : Block) :
    tiePending rows b = rows ∨ ∃ bottom x, b.pending.getLast? = some bottom ∧ b.width = x + 1 ∧
      tiePending rows b = tie (wireRowsTo rows b.rows (x + 1)) x b.out bottom := by
  cases hp : b.pending.getLast? with
  | none => exact .inl (tiePending_of_nil rows (List.getLast?_eq_none_iff.1 hp))
  | some bottom =>
    cases hw : b.width with
    | zero => exact .inl (tiePending_of_width rows hw)
    | succ x => exact .inr ⟨bottom, x, rfl, rfl, tiePending_eq rows hp hw⟩

@[simp]
theorem length_tiePending (rows : List Row) (b : Block) :
    (tiePending rows b).length = rows.length := by
  rcases tiePending_cases rows b with h | ⟨_, _, _, _, h⟩ <;> simp [h]

/-! ## Joins in series -/

@[simp]
theorem length_shiftRows (rows : List Row) (top offset : Nat) :
    (shiftRows rows top offset).length = rows.length := by
  simp [shiftRows]

theorem cellAt_shiftRows (rows : List Row) (top offset x y : Nat) :
    cellAt (shiftRows rows top offset) x y =
      if top ≤ y then (if x < offset then {} else cellAt rows (x - offset) y)
      else cellAt rows x y := by
  by_cases hy : y < rows.length
  · rw [cellAt, shiftRows, rowAt_mapIdx _ hy]
    split
    · exact Row.cell_shift offset _ x
    · rfl
  · have hb (k : Nat) : cellAt rows k y = {} := cellAt_of_height_le (by omega)
    rw [cellAt_of_height_le (by simpa using hy), hb, hb]
    split
    · split <;> rfl
    · rfl

theorem length_rowAt_shiftRows (rows : List Row) (top offset y : Nat) :
    (rowAt (shiftRows rows top offset) y).length =
      if y < rows.length ∧ top ≤ y then offset + (rowAt rows y).length
      else (rowAt rows y).length := by
  by_cases hy : y < rows.length
  · rw [shiftRows, rowAt_mapIdx _ hy]
    by_cases h : top ≤ y <;> simp [h, hy, Row.shift]
  · rw [rowAt_of_length_le (by simpa using hy), rowAt_of_length_le (by omega)]
    simp [hy]

/-- The rows that begin at the rail, from `top` down. -/
theorem mem_railRows {rows : List Row} {top y : Nat} :
    y ∈ railRows rows top ↔ top ≤ y ∧ y < rows.length ∧ (cellAt rows 0 y).isEmpty = false := by
  simp only [railRows, List.mem_map, List.mem_filter, Bool.and_eq_true, decide_eq_true_eq,
    Prod.exists, exists_eq_right]
  constructor
  · rintro ⟨row, hm, ht, hs⟩
    obtain ⟨-, hlt, he⟩ := List.mem_zipIdx hm
    rw [Nat.zero_add] at hlt
    refine ⟨ht, hlt, ?_⟩
    have hrow : rowAt rows y = row := by simp [rowAt, hlt, he]
    simpa [Row.startsAtRail, cellAt, hrow] using hs
  · rintro ⟨ht, hlt, hs⟩
    refine ⟨rowAt rows y, ?_, ht, by simpa [Row.startsAtRail, cellAt] using hs⟩
    rw [List.mem_zipIdx_iff_getElem?]
    simp [rowAt, hlt]

theorem le_of_getLast? {ys : List Nat} {last y : Nat} (hs : ys.Pairwise (· < ·))
    (hl : ys.getLast? = some last) (hy : y ∈ ys) : y ≤ last := by
  obtain ⟨front, rfl⟩ := List.getLast?_eq_some_iff.1 hl
  rcases List.mem_append.1 hy with h | h
  · exact Nat.le_of_lt ((List.pairwise_append.1 hs).2.2 y h last (List.mem_singleton_self last))
  · exact Nat.le_of_eq (List.mem_singleton.1 h)

theorem pairwise_railRows (rows : List Row) (top : Nat) : (railRows rows top).Pairwise (· < ·) := by
  have hsub : (railRows rows top).Sublist (rows.zipIdx.map Prod.snd) :=
    (List.filter_sublist (l := rows.zipIdx)).map Prod.snd
  rw [List.zipIdx_map_snd] at hsub
  exact (List.pairwise_lt_range' (s := 0)).sublist hsub

/-- The last of the rows from `top` down that begin at the rail. -/
def lastEntry (rows : List Row) (top : Nat) : Nat := (railRows rows top).getLast?.getD top

theorem le_lastEntry {rows : List Row} {top y : Nat} (hy : y ∈ railRows rows top) : y ≤ lastEntry rows top := by
  cases hl : (railRows rows top).getLast? with
  | none => rw [List.getLast?_eq_none_iff.1 hl] at hy; cases hy
  | some last =>
    rw [lastEntry, hl]
    exact le_of_getLast? (pairwise_railRows rows top) hl hy

theorem lastEntry_mem_Ico {rows : List Row} {top : Nat} (h : top < rows.length) :
    top ≤ lastEntry rows top ∧ lastEntry rows top < rows.length := by
  cases hl : (railRows rows top).getLast? with
  | none =>
    rw [lastEntry, hl]
    exact ⟨Nat.le_refl top, h⟩
  | some last =>
    obtain ⟨h₁, h₂, -⟩ := mem_railRows.1 (List.mem_of_getLast? hl)
    rw [lastEntry, hl]
    exact ⟨h₁, h₂⟩

/-- Draws a junction: the output row of a block is wired to the column behind it, the column is tied
down to `bottom`, and each of the entry rows is wired to the column. -/
def junction (rows : List Row) (a : Block) (entries : List Nat) (bottom : Nat) : List Row :=
  (tie (rows.modify a.out (·.wireLeft a.width)) a.width a.out bottom).mapIdx fun y row =>
    if y ∈ entries then row.wireLeft (a.width + 1) else row

@[simp]
theorem length_junction (rows : List Row) (a : Block) (entries : List Nat) (bottom : Nat) :
    (junction rows a entries bottom).length = rows.length := by
  simp [junction]

theorem cellAt_junction {rows : List Row} {a : Block} (entries : List Nat) (bottom x y : Nat)
    (ha : a.out < rows.length) :
    cellAt (junction rows a entries bottom) x y =
      { cellAt rows x y with
        up := (cellAt rows x y).up ||
          decide (y < rows.length ∧ x = a.width ∧ a.out < y ∧ y ≤ bottom)
        down := (cellAt rows x y).down ||
          decide (y < rows.length ∧ x = a.width ∧ a.out ≤ y ∧ y < bottom)
        left := (cellAt rows x y).left || decide ((y = a.out ∧ x = a.width ∧ 0 < a.width) ∨
          (y < rows.length ∧ y ∈ entries ∧ x = a.width + 1))
        right := (cellAt rows x y).right || decide ((y = a.out ∧ x + 1 = a.width) ∨
          (y < rows.length ∧ y ∈ entries ∧ x = a.width)) } := by
  have hwire : cellAt (rows.modify a.out (·.wireLeft a.width)) x y =
      { cellAt rows x y with
        left := (cellAt rows x y).left || decide (y = a.out ∧ x = a.width ∧ 0 < a.width)
        right := (cellAt rows x y).right || decide (y = a.out ∧ x + 1 = a.width) } := by
    rw [cellAt, rowAt_modify _ _ ha]
    by_cases h : y = a.out
    · simp [h, Row.cell_wireLeft, cellAt]
    · simp [h, cellAt]
  have htie := cellAt_tie (rows.modify a.out (·.wireLeft a.width)) a.width a.out bottom x y
  rw [List.length_modify, hwire] at htie
  by_cases hy : y < rows.length
  · rw [cellAt, junction, rowAt_mapIdx _ (by simpa using hy)]
    by_cases h : y ∈ entries
    · rw [if_pos h, Row.cell_wireLeft, ← cellAt, htie]
      simp [h, hy, Bool.or_assoc]
    · rw [if_neg h, ← cellAt, htie]
      simp [h]
  · have hne : y ≠ a.out := by omega
    rw [cellAt_of_height_le (by simpa using hy), cellAt_of_height_le (by omega)]
    simp [hy, hne]

theorem length_rowAt_junction {rows : List Row} {a : Block} (entries : List Nat) (bottom y : Nat)
    (ha : a.out < rows.length) (hy : y < rows.length) :
    (rowAt (junction rows a entries bottom) y).length =
      max (max (rowAt rows y).length (if a.out ≤ y ∧ y ≤ bottom then a.width + 1 else 0))
        (max (if y = a.out ∧ 0 < a.width then a.width + 1 else 0)
          (if y ∈ entries then a.width + 2 else 0)) := by
  have hwire : (rowAt (rows.modify a.out (·.wireLeft a.width)) y).length =
      max (rowAt rows y).length (if y = a.out ∧ 0 < a.width then a.width + 1 else 0) := by
    rw [rowAt_modify _ _ ha]
    by_cases h : y = a.out
    · rw [if_pos h, Row.length_wireLeft]
      by_cases hw : a.width = 0
      · simp [hw]
      · simp [hw, h, Nat.pos_of_ne_zero hw]
    · simp [h]
  have htie := length_rowAt_tie (rows.modify a.out (·.wireLeft a.width)) a.width a.out bottom y
  simp only [List.length_modify, hy, true_and] at htie
  rw [junction, rowAt_mapIdx _ (by simpa using hy)]
  by_cases h : y ∈ entries
  · rw [if_pos h, Row.length_wireLeft, htie, hwire, if_neg (Nat.succ_ne_zero _), if_pos h]
    split <;> split <;> omega
  · rw [if_neg h, htie, hwire, if_neg h]
    split <;> split <;> omega

/-- The rows after a join in series: what waits is tied, the rest moves behind it, and a junction is
drawn between them. -/
theorem rows_joinSeries {s : Sheet} {a : Block} {waiting : List Block}
    (hw : s.waiting = a :: waiting) :
    s.joinSeries.rows =
      junction (shiftRows (tiePending s.rows a) s.block.top (a.width + 1)) a
        (railRows (tiePending s.rows a) s.block.top)
        ((railRows (tiePending s.rows a) s.block.top).getLast?.getD s.block.top) := by
  rw [joinSeries, hw]
  rfl

/-- The block after a join in series begins where the waiting one did and goes on with the last. -/
theorem block_joinSeries {s : Sheet} {a : Block} {waiting : List Block}
    (hw : s.waiting = a :: waiting) :
    s.joinSeries.block =
      { s.block with width := a.width + 1 + s.block.width, top := a.top } := by
  rw [joinSeries, hw]

theorem waiting_joinSeries {s : Sheet} {a : Block} {waiting : List Block}
    (hw : s.waiting = a :: waiting) : s.joinSeries.waiting = waiting := by
  rw [joinSeries, hw]

/-- A join in series moves the anchors along their rows. -/
theorem anchors_joinSeries (s : Sheet) :
    ∃ f : Nat × Nat → Nat × Nat, (∀ p, (f p).2 = p.2) ∧ s.joinSeries.anchors = s.anchors.map f := by
  unfold joinSeries
  split
  · exact ⟨id, fun _ => rfl, (List.map_id _).symm⟩
  · refine ⟨_, fun p => ?_, rfl⟩
    dsimp only
    split <;> rfl

/-! ## The finished diagram -/

theorem le_foldl_max (lengths : List Nat) (m : Nat) :
    m ≤ lengths.foldl max m ∧ ∀ n ∈ lengths, n ≤ lengths.foldl max m := by
  induction lengths generalizing m with
  | nil => simp
  | cons first rest ih =>
    obtain ⟨hm, hrest⟩ := ih (max m first)
    refine ⟨Nat.le_trans (Nat.le_max_left m first) hm, fun n hn => ?_⟩
    rcases List.mem_cons.1 hn with rfl | hn
    · exact Nat.le_trans (Nat.le_max_right m n) hm
    · exact hrest n hn

/-- The length of the longest row. -/
def longest (rows : List Row) : Nat := (rows.map List.length).foldl max 0

theorem length_rowAt_le_longest (rows : List Row) (y : Nat) :
    (rowAt rows y).length ≤ longest rows := by
  by_cases hy : y < rows.length
  · refine (le_foldl_max (rows.map List.length) 0).2 _ (List.mem_map.2 ⟨rowAt rows y, ?_, rfl⟩)
    simp [rowAt, hy]
  · rw [rowAt_of_length_le (by omega)]
    exact Nat.zero_le _

theorem foldl_max_le {lengths : List Nat} {m k : Nat} (hm : m ≤ k) (h : ∀ n ∈ lengths, n ≤ k) :
    lengths.foldl max m ≤ k := by
  induction lengths generalizing m with
  | nil => exact hm
  | cons first rest ih =>
    obtain ⟨hfirst, hrest⟩ := List.forall_mem_cons.1 h
    exact ih (Nat.max_le.2 ⟨hm, hfirst⟩) hrest

theorem longest_le {rows : List Row} {k : Nat} (h : ∀ y, (rowAt rows y).length ≤ k) :
    longest rows ≤ k := by
  refine foldl_max_le (Nat.zero_le k) fun n hn => ?_
  obtain ⟨row, hrow, rfl⟩ := List.mem_map.1 hn
  obtain ⟨y, hy, rfl⟩ := List.mem_iff_getElem.1 hrow
  simpa [rowAt, hy] using h y

theorem isBare_iff {s : Sheet} : s.isBare = true ↔ ∀ y, rowAt s.rows y = [] := by
  constructor
  · intro h y
    by_cases hy : y < s.rows.length
    · simpa [rowAt, hy] using List.all_eq_true.1 h _ (List.getElem_mem hy)
    · exact rowAt_of_length_le (by omega)
  · intro h
    refine List.all_eq_true.2 fun row hrow => ?_
    obtain ⟨y, hy, rfl⟩ := List.mem_iff_getElem.1 hrow
    simpa [rowAt, hy] using h y

theorem toDiagram_eq {s : Sheet} (h : s.isBare = false) :
    s.toDiagram = .ofRows (s.rows.map (Row.pad (longest s.rows))) := by
  simp [toDiagram, h, longest]

theorem length_of_mem_pad {rows : List Row} {row : Row} (hrow : row ∈ rows.map (Row.pad (longest rows))) :
    row.length = longest rows := by
  obtain ⟨r, hr, rfl⟩ := List.mem_map.1 hrow
  obtain ⟨y, hy, rfl⟩ := List.mem_iff_getElem.1 hr
  have hle := length_rowAt_le_longest rows y
  simp only [rowAt, List.getD_eq_getElem?_getD, List.getElem?_eq_getElem hy, Option.getD_some] at hle
  simp only [Row.pad, List.length_append, List.length_replicate]
  omega

theorem height_toDiagram {s : Sheet} (h : s.isBare = false) :
    s.toDiagram.height = s.rows.length := by
  rw [toDiagram_eq h, Diagram.height_ofRows, List.length_map]

theorem width_toDiagram {s : Sheet} (h : s.isBare = false) : s.toDiagram.width = longest s.rows := by
  rw [toDiagram_eq h, Diagram.width_ofRows]
  cases hrows : s.rows with
  | nil => simp [isBare, hrows] at h
  | cons row rest => exact length_of_mem_pad (by simp)

theorem isRectangular_toDiagram (s : Sheet) : s.toDiagram.IsRectangular := by
  cases h : s.isBare with
  | true => simp [toDiagram, h, Diagram.IsRectangular]
  | false =>
    rw [toDiagram_eq h]
    exact Diagram.isRectangular_ofRows fun row => length_of_mem_pad

/-- The cells of the diagram are those of the sheet in their places, up to the longest row. -/
theorem cell?_toDiagram (s : Sheet) (x y : Nat) :
    s.toDiagram.cell? x y =
      if x < s.toDiagram.width ∧ y < s.toDiagram.height then some ((cellAt s.rows x y).placed x y)
      else none := by
  cases h : s.isBare with
  | true => simp [toDiagram, h, Diagram.cell?, Diagram.height]
  | false =>
    rw [width_toDiagram h, height_toDiagram h, toDiagram_eq h, Diagram.cell?_ofRows]
    by_cases hy : y < s.rows.length
    · have hrow : s.rows[y]? = some (rowAt s.rows y) := by simp [rowAt, hy]
      have hle := length_rowAt_le_longest s.rows y
      rw [List.getElem?_map, hrow, Option.map_some, Option.bind_some]
      simp only [hy, and_true, Row.pad, cellAt, Row.cell, List.getElem?_append,
        List.getD_eq_getElem?_getD, List.getElem?_replicate]
      by_cases hx : x < (rowAt s.rows y).length
      · simp [hx, Nat.lt_of_lt_of_le hx hle]
      · rw [if_neg hx, List.getElem?_eq_none (by omega)]
        by_cases hw : x < longest s.rows
        · rw [if_pos (by omega), if_pos hw]; rfl
        · rw [if_neg (by omega), if_neg hw]; rfl
    · simp [hy]

/-- A cell with something in it lies inside the diagram. -/
theorem mem_toDiagram_of_ne {s : Sheet} {x y : Nat} (h : cellAt s.rows x y ≠ {}) :
    x < s.toDiagram.width ∧ y < s.toDiagram.height := by
  have hx : x < (rowAt s.rows y).length := Nat.lt_of_not_le fun hle => h (cellAt_of_length_le hle)
  have hy : y < s.rows.length := Nat.lt_of_not_le fun hle => h (cellAt_of_height_le hle)
  have hbare : s.isBare = false := by
    refine Bool.eq_false_iff.2 fun hb => ?_
    rw [isBare_iff.1 hb y] at hx
    exact Nat.not_lt_zero x hx
  rw [width_toDiagram hbare, height_toDiagram hbare]
  exact ⟨Nat.lt_of_lt_of_le hx (length_rowAt_le_longest s.rows y), hy⟩

end Sheet
end LadderLogic
