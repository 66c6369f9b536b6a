import LadderLogic.Diagram.Layout
import LadderLogic.Proofs.Drawing

/-!
# Strips as rows

A strip tells a place that is not drawn from one with an empty cell, and has a margin. A row of a sheet
has neither (`Strip.toRow`). Each operation on strips comes to the one on rows, if what it asks of the
strip holds: a cell is wired to the left only if there is one (`toRow_joinLeft`), wire is drawn behind
the last cell (`Sound.toRow_fillTo`), and a strip moves without its margin (`toRow_shift`).

Two things are followed along all operations. `Strip.Sound` says of a strip that its last cell is drawn,
and, for every row but the first one, that it has a cell and none at the rail is empty. `GoOn` says of
rows that what is drawn stays drawn and what is sound stays sound.

Source: `cell`, `join_left`, `fill_row`, `vertical` and `_shift_rows` of `_LayoutBuilder` (section 4.1 of
the specification).
-/

namespace LadderLogic

namespace Strip

/-! ## Strips as rows -/

/-- The row that can be seen of a strip: no margin, and an empty cell where none is drawn. -/
def toRow (s : Strip) : Row := s.cells.map (·.getD {})

theorem length_toRow (s : Strip) : s.toRow.length = s.cells.length := List.length_map _

theorem cell_toRow (s : Strip) (x : Nat) : s.toRow.cell x = (s.cell? x).getD {} := by
  simp only [toRow, Row.cell, cell?, List.getD_eq_getElem?_getD, List.getElem?_map]
  cases s.cells[x]? <;> rfl

/-- The cells of a strip up to a width, with empty ones where none is drawn. -/
theorem pad_toRow {s : Strip} {width : Nat} (h : s.cells.length ≤ width) :
    s.toRow.pad width = (List.range width).map fun x => (s.cell? x).getD {} := by
  have hlen : (s.toRow.pad width).length = width := by
    rw [Row.pad, List.length_append, List.length_replicate, length_toRow]
    omega
  refine List.ext_getElem (by simp [hlen]) fun x hx _ => ?_
  rw [List.getElem_map, List.getElem_range, ← cell_toRow, Row.cell, List.getD_eq_getElem?_getD]
  simp only [Row.pad, List.getElem_append]
  split
  · next hin => rw [List.getElem?_eq_getElem hin, Option.getD_some]
  · next hout => rw [List.getElem?_eq_none (Nat.le_of_not_lt hout), List.getElem_replicate, Option.getD_none]

theorem toRow_update (s : Strip) (x : Nat) (f : Cell → Cell) :
    (s.update x f).toRow = s.toRow.update x f := by
  have h (cells : List (Option Cell)) :
      (change f x cells).map (·.getD {}) = Row.update (cells.map (·.getD {})) x f := by
    induction x generalizing cells with
    | zero => cases cells <;> rfl
    | succ x ih =>
      cases cells with
      | nil => exact congrArg (({} : Cell) :: ·) (ih [])
      | cons c rest => exact congrArg (c.getD {} :: ·) (ih rest)
  exact h s.cells

theorem cell?_update (s : Strip) (x : Nat) (f : Cell → Cell) (k : Nat) :
    (s.update x f).cell? k = if k = x then some (f ((s.cell? x).getD {})) else s.cell? k := by
  have h (cells : List (Option Cell)) : (change f x cells).getD k none =
      if k = x then some (f ((cells.getD x none).getD {})) else cells.getD k none := by
    induction x generalizing cells k with
    | zero => cases cells <;> cases k <;> simp [change]
    | succ x ih =>
      cases cells with
      | nil =>
        cases k with
        | zero => simp [change]
        | succ k => simpa [change] using ih k []
      | cons c rest =>
        cases k with
        | zero => simp [change]
        | succ k => simpa [change] using ih k rest
  exact h s.cells

theorem length_update (s : Strip) (x : Nat) (f : Cell → Cell) :
    (s.update x f).cells.length = max s.cells.length (x + 1) := by
  rw [← length_toRow, toRow_update, Row.length_update, length_toRow]

/-- A cell is wired to the left as on a sheet if the cell on its left is drawn. -/
theorem toRow_joinLeft {s : Strip} {x : Nat} (h : ∀ k, x = k + 1 → (s.cell? k).isSome = true) :
    (s.joinLeft x).toRow = s.toRow.wireLeft x := by
  cases x with
  | zero => rfl
  | succ x =>
    rw [joinLeft, if_pos (h x rfl), toRow_update, toRow_update]
    rfl

/-! ## What holds of a strip -/

/-- What holds of the strip of row `y`: its last cell is drawn. Every row but the first one has a cell;
and if it has one at the rail, then something is in it. -/
structure Sound (y : Nat) (s : Strip) : Prop where
  last : ∀ x, s.cells.length = x + 1 → (s.cell? x).isSome = true
  started : 0 < y → 0 < s.cells.length
  rail : 0 < y → ∀ c, s.cell? 0 = some c → c.isEmpty = false

/-- The first row may be without a cell. -/
theorem sound_blank : Sound 0 {} where
  last x hx := by cases hx
  started h := absurd h (Nat.lt_irrefl 0)
  rail h := absurd h (Nat.lt_irrefl 0)

/-- A strip goes on as another one: what is drawn stays so, and what holds of the strip holds on. -/
structure GoesOn (y : Nat) (s s' : Strip) : Prop where
  isSome : ∀ x, (s.cell? x).isSome = true → (s'.cell? x).isSome = true
  sound : s.Sound y → s'.Sound y

namespace GoesOn

variable {y : Nat} {s s' s'' : Strip}

theorem refl (y : Nat) (s : Strip) : s.GoesOn y s := ⟨fun _ h => h, fun h => h⟩

theorem trans (h : s.GoesOn y s') (h' : s'.GoesOn y s'') : s.GoesOn y s'' :=
  ⟨fun x hx => h'.isSome x (h.isSome x hx), fun hs => h'.sound (h.sound hs)⟩

/-- A cell is changed, so that something is in it if it stands at the rail of a row but the first. -/
theorem update {x : Nat} {f : Cell → Cell} (hf : x = 0 → 0 < y → ∀ c, (f c).isEmpty = false) :
    s.GoesOn y (s.update x f) := by
  refine ⟨fun k hk => ?_, fun hs => ⟨fun k hk => ?_, fun _ => ?_, fun hy c hc => ?_⟩⟩
  · rw [cell?_update]
    split
    · rfl
    · exact hk
  · rw [length_update] at hk
    rw [cell?_update]
    split
    · rfl
    · exact hs.last k (by omega)
  · rw [length_update]
    omega
  · rw [cell?_update] at hc
    split at hc
    · next hx => exact Option.some.inj hc ▸ hf hx.symm hy _
    · exact hs.rail hy c hc

theorem joinLeft (x : Nat) : s.GoesOn y (s.joinLeft x) := by
  cases x with
  | zero => exact refl y s
  | succ x =>
    rw [Strip.joinLeft]
    split
    · exact (update fun _ _ c => by simp [Cell.isEmpty, Cell.isWired]).trans
        (update fun _ _ c => by simp [Cell.isEmpty, Cell.isWired])
    · exact refl y s

/-- Plain wire at the end of a row never stands at the rail, but for the first row. -/
theorem extend (hs : s.Sound y) (n : Nat) : s.GoesOn y (s.extend n) := by
  induction n generalizing s with
  | zero => exact refl y s
  | succ n ih =>
    have hstep : s.GoesOn y ((s.update s.cells.length id).joinLeft s.cells.length) :=
      (update fun hx hy => absurd hx (Nat.ne_of_gt (hs.started hy))).trans (joinLeft _)
    exact hstep.trans (ih (hstep.sound hs))

theorem fillTo (hs : s.Sound y) (column : Nat) : s.GoesOn y (s.fillTo column) := extend hs _

/-- The margin is no part of what is asked of a strip. -/
theorem updateBefore {column : Nat} {f : Cell → Cell}
    (hf : column = 1 → 0 < y → ∀ c, (f c).isEmpty = false) : s.GoesOn y (s.updateBefore column f) := by
  cases column with
  | zero => exact ⟨fun _ h => h, fun h => ⟨h.last, h.started, h.rail⟩⟩
  | succ x => exact update fun hx => hf (congrArg (· + 1) hx)

end GoesOn

/-- A new strip with one cell, in which there is something. -/
theorem sound_update {x : Nat} {f : Cell → Cell} (hf : ∀ c, (f c).isEmpty = false) (y : Nat) :
    (update {} x f).Sound y := by
  refine ⟨fun k hk => ?_, fun _ => ?_, fun _ c hc => ?_⟩
  · obtain rfl : k = x := by
      rw [length_update] at hk
      simp at hk
      omega
    rw [cell?_update, if_pos rfl]
    rfl
  · rw [length_update]
    omega
  · rw [cell?_update] at hc
    split at hc
    · exact Option.some.inj hc ▸ hf _
    · cases hc

theorem Sound.toRow_extend {y : Nat} {s : Strip} (hs : s.Sound y) (n : Nat) :
    (s.extend n).toRow = s.toRow.extend n := by
  induction n generalizing s with
  | zero => rfl
  | succ n ih =>
    have hend : s.GoesOn y (s.update s.cells.length id) :=
      .update fun hx hy => absurd hx (Nat.ne_of_gt (hs.started hy))
    have hjoin : ((s.update s.cells.length id).joinLeft s.cells.length).toRow =
        (s.toRow.update s.toRow.length id).wireLeft s.toRow.length := by
      rw [toRow_joinLeft fun k hk => hend.isSome k (hs.last k hk), toRow_update, length_toRow]
    rw [extend, Row.extend, ih ((hend.trans (.joinLeft _)).sound hs), hjoin]

theorem Sound.toRow_fillTo {y : Nat} {s : Strip} (hs : s.Sound y) (column : Nat) :
    (s.fillTo column).toRow = s.toRow.wireTo column := by
  rw [fillTo, hs.toRow_extend, ← length_toRow, Row.wireTo]

theorem isDrawn_of_isSome {s : Strip} {x : Nat} (h : (s.cell? x).isSome = true) : s.isDrawn = true := by
  rw [cell?, List.getD_eq_getElem?_getD] at h
  cases hc : s.cells[x]? with
  | none =>
    rw [hc] at h
    cases h
  | some c =>
    rw [hc] at h
    rw [isDrawn, Bool.or_eq_true]
    exact .inr (List.any_eq_true.2 ⟨c, List.mem_of_getElem? hc, h⟩)

theorem Sound.isDrawn_of_length_pos {y : Nat} {s : Strip} (hs : s.Sound y) (h : 0 < s.cells.length) :
    s.isDrawn = true := by
  obtain ⟨x, hx⟩ := Nat.exists_eq_succ_of_ne_zero (Nat.ne_of_gt h)
  exact isDrawn_of_isSome (hs.last x hx)

/-- A strip is drawn up to its last cell. -/
theorem Sound.extent_eq {y : Nat} {s : Strip} (hs : s.Sound y) : s.extent = s.cells.length := by
  rw [extent]
  rcases List.eq_nil_or_concat s.cells with hnil | ⟨cells, c, hcells⟩
  · rw [hnil]
    rfl
  · have hlast := hs.last cells.length (by rw [hcells, List.length_concat])
    rw [cell?, hcells, List.concat_eq_append, List.getD_eq_getElem?_getD, List.getElem?_concat_length,
      Option.getD_some] at hlast
    rw [hcells, List.concat_eq_append, List.reverse_concat, List.dropWhile_cons_of_neg, List.length_cons,
      List.length_reverse, List.length_append, List.length_singleton]
    rw [Option.isNone_iff_eq_none]
    exact Option.isSome_iff_ne_none.1 hlast

/-! ## Strips that move -/

variable {s : Strip} {y : Nat}

theorem cells_shift (h : s.isDrawn = true) (hm : s.margin = none) (n : Nat) :
    (s.shift (n + 1)).cells = List.replicate (n + 1) none ++ s.cells := by
  rw [shift, if_pos h, hm, List.replicate_succ', List.append_assoc]
  rfl

theorem margin_shift (h : s.isDrawn = true) (n : Nat) : (s.shift (n + 1)).margin = none := by
  rw [shift, if_pos h]

theorem toRow_shift (h : s.isDrawn = true) (hm : s.margin = none) (n : Nat) :
    (s.shift (n + 1)).toRow = s.toRow.shift (n + 1) := by
  rw [toRow, cells_shift h hm, List.map_append, List.map_replicate]
  rfl

theorem cell?_shift (h : s.isDrawn = true) (hm : s.margin = none) (n x : Nat) :
    (s.shift (n + 1)).cell? x = if x < n + 1 then none else s.cell? (x - (n + 1)) := by
  rw [cell?, cells_shift h hm, List.getD_eq_getElem?_getD, List.getElem?_append, List.length_replicate,
    cell?, List.getD_eq_getElem?_getD]
  split
  · next hx => rw [List.getElem?_replicate, if_pos hx]; rfl
  · rfl

theorem Sound.shift (hs : s.Sound y) (h : s.isDrawn = true) (hm : s.margin = none) (n : Nat) :
    (s.shift (n + 1)).Sound y := by
  have hlen : (s.shift (n + 1)).cells.length = n + 1 + s.cells.length := by
    rw [cells_shift h hm, List.length_append, List.length_replicate]
  have hpos : 0 < s.cells.length := by
    rw [isDrawn, hm] at h
    exact List.length_pos_iff.2 fun hnil => by simp [hnil] at h
  refine ⟨fun x hx => ?_, fun _ => ?_, fun _ c hc => ?_⟩
  · rw [cell?_shift h hm, if_neg (by omega)]
    exact hs.last _ (by omega)
  · omega
  · rw [cell?_shift h hm, if_pos (Nat.succ_pos n)] at hc
    cases hc

/-- A strip that moves begins behind the junction exactly if it began at the rail. -/
theorem beginsAt_shift (h : s.isDrawn = true) (hm : s.margin = none) (n : Nat) :
    (s.shift (n + 1)).beginsAt (n + 1) = (s.cell? 0).isSome := by
  have hfind : (s.shift (n + 1)).cells.findIdx? Option.isSome =
      (s.cells.findIdx? Option.isSome).map (· + (n + 1)) := by
    rw [cells_shift h hm, List.findIdx?_append, List.findIdx?_replicate, List.length_replicate]
    simp
  have hfirst : s.cells.findIdx? Option.isSome = some 0 ↔ (s.cell? 0).isSome = true := by
    cases hcells : s.cells with
    | nil => simp [cell?, hcells]
    | cons c rest => cases c <;> simp [cell?, hcells, List.findIdx?_cons]
  rw [Bool.eq_iff_iff, ← hfirst, beginsAt, margin_shift h, List.findIdx?_cons, hfind, beq_iff_eq]
  simp [Nat.add_assoc]

end Strip

namespace Canvas

/-! ## Rows of strips -/

variable {rows rows' rows'' : List Strip} {y : Nat}

/-- What holds of the rows. -/
def Strips (rows : List Strip) : Prop := ∀ (y : Nat) (s : Strip), rows[y]? = some s → s.Sound y

/-- All rows go on, and none is added. -/
def GoOn (rows rows' : List Strip) : Prop :=
  rows'.length = rows.length ∧
    ∀ (y : Nat) (s : Strip), rows[y]? = some s → ∃ s', rows'[y]? = some s' ∧ s.GoesOn y s'

theorem GoOn.trans (h : GoOn rows rows') (h' : GoOn rows' rows'') : GoOn rows rows'' := by
  refine ⟨h'.1.trans h.1, fun y s hs => ?_⟩
  obtain ⟨s', hs', hgo⟩ := h.2 y s hs
  obtain ⟨s'', hs'', hgo'⟩ := h'.2 y s' hs'
  exact ⟨s'', hs'', hgo.trans hgo'⟩

theorem GoOn.mapIdx {f : Nat → Strip → Strip}
    (h : ∀ (y : Nat) (s : Strip), rows[y]? = some s → s.GoesOn y (f y s)) : GoOn rows (rows.mapIdx f) := by
  refine ⟨List.length_mapIdx, fun y s hs => ⟨f y s, ?_, h y s hs⟩⟩
  rw [List.getElem?_mapIdx, hs, Option.map_some]

theorem GoOn.modify {f : Strip → Strip} (h : ∀ s, rows[y]? = some s → s.GoesOn y (f s)) :
    GoOn rows (rows.modify y f) := by
  refine ⟨List.length_modify .., fun y' s hs => ?_⟩
  rw [List.getElem?_modify, hs]
  by_cases hy : y = y'
  · exact ⟨f s, by simp [hy], hy ▸ h s (hy ▸ hs)⟩
  · exact ⟨s, by simp [hy], .refl y' s⟩

theorem GoOn.strips (h : GoOn rows rows') (hs : Strips rows) : Strips rows' := by
  intro y s' hs'
  have hy : y < rows.length := h.1 ▸ (List.getElem?_eq_some_iff.1 hs').1
  obtain ⟨s'', hs'', hgo⟩ := h.2 y _ (List.getElem?_eq_getElem hy)
  rw [Option.some.inj (hs'.symm.trans hs'')]
  exact hgo.sound (hs y _ (List.getElem?_eq_getElem hy))

/-- The rows that can be seen. -/
def toRows (rows : List Strip) : List Row := rows.map Strip.toRow

theorem length_toRows (rows : List Strip) : (toRows rows).length = rows.length := List.length_map _

theorem toRows_mapIdx {f : Nat → Strip → Strip} {g : Nat → Row → Row}
    (h : ∀ (y : Nat) (s : Strip), rows[y]? = some s → (f y s).toRow = g y s.toRow) :
    toRows (rows.mapIdx f) = (toRows rows).mapIdx g := by
  refine List.ext_getElem? fun y => ?_
  rw [toRows, List.getElem?_map, List.getElem?_mapIdx, List.getElem?_mapIdx, toRows, List.getElem?_map]
  cases hs : rows[y]? with
  | none => rfl
  | some s => exact congrArg some (h y s hs)

theorem toRows_modify {f : Strip → Strip} {g : Row → Row}
    (h : ∀ s, rows[y]? = some s → (f s).toRow = g s.toRow) :
    toRows (rows.modify y f) = (toRows rows).modify y g := by
  refine List.ext_getElem? fun y' => ?_
  rw [toRows, List.getElem?_map, List.getElem?_modify, List.getElem?_modify, toRows, List.getElem?_map]
  cases hs : rows[y']? with
  | none => rfl
  | some s =>
    by_cases hy : y = y'
    · simpa [hy] using h s (hy ▸ hs)
    · simp [hy]

/-- A new row is changed alone. -/
theorem modify_concat (rows : List Strip) (s : Strip) (f : Strip → Strip) :
    (rows ++ [s]).modify rows.length f = rows ++ [f s] := by
  induction rows with
  | nil => rfl
  | cons first rest ih => exact congrArg (first :: ·) ih

theorem toRows_concat (rows : List Strip) : toRows (rows ++ [({} : Strip)]) = toRows rows ++ [[]] :=
  List.map_append

/-! ## Operations on rows -/

theorem toRows_put (rows : List Strip) (x y : Nat) (i : Instruction) (n : Nat) :
    toRows (put rows x y i n) = Sheet.put (toRows rows) x y i n :=
  toRows_modify fun s _ => s.toRow_update x _

theorem GoOn.put (x y : Nat) (i : Instruction) (n : Nat) : GoOn rows (put rows x y i n) :=
  .modify fun _ _ => .update fun _ _ _ => rfl

theorem toRows_putWired {x : Nat} (i : Instruction) (n : Nat)
    (hleft : ∀ k, x = k + 1 → ∃ s, rows[y]? = some s ∧ (s.cell? k).isSome = true) :
    toRows (putWired rows x y i n) = Sheet.putWired (toRows rows) x y i n := by
  rw [putWired, Sheet.putWired, ← toRows_put]
  refine toRows_modify fun s' hs' => Strip.toRow_joinLeft fun k hk => ?_
  obtain ⟨s, hs, hcell⟩ := hleft k hk
  have hput : GoOn rows (put rows x y i n) := .put x y i n
  obtain ⟨s'', hs'', hgo⟩ := hput.2 y s hs
  rw [Option.some.inj (hs'.symm.trans hs'')]
  exact hgo.isSome k hcell

theorem GoOn.putWired (x y : Nat) (i : Instruction) (n : Nat) : GoOn rows (putWired rows x y i n) :=
  (GoOn.put x y i n).trans (.modify fun _ _ => .joinLeft x)

/-- The instruction is drawn. -/
theorem isSome_putWired (x : Nat) (i : Instruction) (n : Nat) (hy : y < rows.length) :
    ∃ s, (putWired rows x y i n)[y]? = some s ∧ (s.cell? x).isSome = true := by
  have hput : (put rows x y i n)[y]? =
      some (rows[y].update x ({ · with instruction := some i, source := some n })) := by
    rw [put, List.getElem?_modify, List.getElem?_eq_getElem hy]
    simp
  have hjoin : GoOn (put rows x y i n) (putWired rows x y i n) := .modify fun _ _ => .joinLeft x
  obtain ⟨s, hs, hgo⟩ := hjoin.2 y _ hput
  refine ⟨s, hs, hgo.isSome x ?_⟩
  rw [Strip.cell?_update, if_pos rfl]
  rfl

theorem toRows_fillRows (hs : Strips rows) (ys : List Nat) (column : Nat) :
    toRows (fillRows rows ys column) = Sheet.wireRowsTo (toRows rows) ys column := by
  refine toRows_mapIdx fun y s h => ?_
  split
  · exact (hs y s h).toRow_fillTo column
  · rfl

theorem GoOn.fillRows (hs : Strips rows) (ys : List Nat) (column : Nat) :
    GoOn rows (fillRows rows ys column) := by
  refine .mapIdx fun y s h => ?_
  split
  · exact .fillTo (hs y s h) column
  · exact .refl y s

/-- No row is drawn up to column 0. -/
theorem fillRows_zero (rows : List Strip) (ys : List Nat) : fillRows rows ys 0 = rows := by
  refine List.ext_getElem? fun y => ?_
  rw [fillRows, List.getElem?_mapIdx]
  cases rows[y]? with
  | none => rfl
  | some s => simp [Strip.fillTo, Strip.extend]

theorem toRows_tieBefore (rows : List Strip) (x top bottom : Nat) :
    toRows (tieBefore rows (x + 1) top bottom) = Sheet.tie (toRows rows) x top bottom := by
  refine toRows_mapIdx fun y s _ => ?_
  split
  · exact s.toRow_update x _
  · rfl

/-- A tie in front of column 0 cannot be seen. -/
theorem toRows_tieBefore_zero (rows : List Strip) (top bottom : Nat) :
    toRows (tieBefore rows 0 top bottom) = toRows rows := by
  refine List.ext_getElem? fun y => ?_
  rw [toRows, List.getElem?_map, tieBefore, List.getElem?_mapIdx, Option.map_map, toRows, List.getElem?_map]
  refine congrArg (Option.map · rows[y]?) (funext fun s => ?_)
  dsimp only [Function.comp_apply]
  split <;> rfl

theorem GoOn.tieBefore {top bottom : Nat} (column : Nat) (h : top < bottom) :
    GoOn rows (tieBefore rows column top bottom) := by
  refine .mapIdx fun y s _ => ?_
  split
  · next hy =>
    refine .updateBefore fun _ _ c => ?_
    have hstub : top < y ∨ y < bottom := by omega
    rcases hstub with hstub | hstub <;> simp [Cell.isEmpty, Cell.isWired, hstub]
  · exact .refl y s

/-- A tie down to a new row. -/
theorem tieBefore_concat {x top : Nat} (h : top < rows.length) :
    tieBefore (rows ++ [({} : Strip)]) (x + 1) top rows.length =
      tieBefore rows (x + 1) top rows.length ++ [Strip.update {} x ({ · with up := true })] := by
  rw [tieBefore, List.mapIdx_append, ← tieBefore, List.append_cancel_left_eq]
  simp [Nat.le_of_lt h, h, Strip.updateBefore]

/-- All cells of a tie are drawn. -/
theorem isSome_tieBefore {top bottom : Nat} (x : Nat) (hy : y < rows.length) (htop : top ≤ y)
    (hbottom : y ≤ bottom) :
    ∃ s, (tieBefore rows (x + 1) top bottom)[y]? = some s ∧ (s.cell? x).isSome = true := by
  refine ⟨_, by rw [tieBefore, List.getElem?_mapIdx, List.getElem?_eq_getElem hy, Option.map_some], ?_⟩
  rw [if_pos (by simp [htop, hbottom]), Strip.updateBefore, Strip.cell?_update, if_pos rfl]
  rfl

/-! ## Margins -/

/-- The margins of all rows. -/
def margins (rows : List Strip) : List (Option Cell) := rows.map Strip.margin

theorem margins_mapIdx {f : Nat → Strip → Strip}
    (h : ∀ (y : Nat) (s : Strip), rows[y]? = some s → (f y s).margin = s.margin) :
    margins (rows.mapIdx f) = margins rows := by
  refine List.ext_getElem? fun y => ?_
  rw [margins, List.getElem?_map, List.getElem?_mapIdx, margins, List.getElem?_map]
  cases hs : rows[y]? with
  | none => rfl
  | some s => exact congrArg some (h y s hs)

theorem margins_modify {f : Strip → Strip} (h : ∀ s, (f s).margin = s.margin) :
    margins (rows.modify y f) = margins rows := by
  refine List.ext_getElem? fun y' => ?_
  rw [margins, List.getElem?_map, List.getElem?_modify, margins, List.getElem?_map]
  cases rows[y']? with
  | none => rfl
  | some s => by_cases hy : y = y' <;> simp [hy, h]

end Canvas

namespace Strip

@[simp]
theorem margin_update (s : Strip) (x : Nat) (f : Cell → Cell) : (s.update x f).margin = s.margin := rfl

@[simp]
theorem margin_joinLeft (s : Strip) (x : Nat) : (s.joinLeft x).margin = s.margin := by
  cases x with
  | zero => rfl
  | succ x =>
    rw [joinLeft]
    split <;> rfl

@[simp]
theorem margin_extend (s : Strip) (n : Nat) : (s.extend n).margin = s.margin := by
  induction n generalizing s with
  | zero => rfl
  | succ n ih => rw [extend, ih, margin_joinLeft, margin_update]

end Strip

namespace Canvas

theorem margins_put (rows : List Strip) (x y : Nat) (i : Instruction) (n : Nat) :
    margins (put rows x y i n) = margins rows :=
  margins_modify fun _ => rfl

theorem margins_putWired (rows : List Strip) (x y : Nat) (i : Instruction) (n : Nat) :
    margins (putWired rows x y i n) = margins rows :=
  (margins_modify fun s => s.margin_joinLeft x).trans (margins_put rows x y i n)

theorem margins_fillRows (rows : List Strip) (ys : List Nat) (column : Nat) :
    margins (fillRows rows ys column) = margins rows := by
  refine margins_mapIdx fun y s _ => ?_
  split
  · exact s.margin_extend _
  · rfl

theorem margins_tieBefore (rows : List Strip) (x top bottom : Nat) :
    margins (tieBefore rows (x + 1) top bottom) = margins rows := by
  refine margins_mapIdx fun y s _ => ?_
  split <;> rfl

/-- A tie in front of column 0 draws no margins but those of its rows. -/
theorem getElem?_margins_tieBefore {bottom : Nat} (rows : List Strip) (top : Nat) (h : bottom < y) :
    (margins (tieBefore rows 0 top bottom))[y]? = (margins rows)[y]? := by
  rw [margins, List.getElem?_map, tieBefore, List.getElem?_mapIdx, Option.map_map, margins,
    List.getElem?_map]
  refine congrArg (Option.map · rows[y]?) (funext fun s => ?_)
  rw [Function.comp_apply, if_neg (by simp; omega)]

end Canvas
end LadderLogic
