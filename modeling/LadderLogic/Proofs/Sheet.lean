import LadderLogic.Diagram.Cell

/-!
# Sheets

A sheet is a drawing in progress of which only what can be seen is kept. A row lists its cells up to the
last one that was drawn; beyond it, and in the gaps, the cells are empty ones, so that a place that is
not drawn and one with an empty cell are the same. There is no margin, and a block keeps its output row
apart from its `pending` rows, which stand below it.

This is the form in which drawings are reasoned about. `Row.cell` reads a row with its gaps, and each
operation on rows is described by what it does to this reading. That every program leaves the same
diagram on a sheet as on a canvas is shown in `LadderLogic.Proofs.Canvas`.

Source: the operations of `_LayoutBuilder`, less what cannot be seen (section 4.1 of the specification).
-/

namespace LadderLogic

/-- The cells of a row, up to the last one drawn. -/
abbrev Row := List Cell

namespace Row

/-- The cell in a column. -/
def cell (row : Row) (x : Nat) : Cell := row.getD x {}

/-- Changes the cell in a column. -/
def update : Row → Nat → (Cell → Cell) → Row
  | [], 0, f => [f {}]
  | [], x + 1, f => {} :: update [] x f
  | c :: rest, 0, f => f c :: rest
  | c :: rest, x + 1, f => c :: update rest x f

/-- Wires a cell to the one on its left. A cell in column 0 has none. -/
def wireLeft (row : Row) : Nat → Row
  | 0 => row
  | x + 1 => (row.update x ({ · with right := true })).update (x + 1) ({ · with left := true })

/-- Adds `n` cells of plain wire at the end of a row. -/
def extend (row : Row) : Nat → Row
  | 0 => row
  | n + 1 => extend ((row.update row.length id).wireLeft row.length) n

/-- Draws plain wire behind a row, up to but not including a column. -/
def wireTo (row : Row) (column : Nat) : Row := row.extend (column - row.length)

/-- Moves a row to the right. -/
def shift (offset : Nat) (row : Row) : Row := List.replicate offset ({} : Cell) ++ row

/-- Adds empty cells at the end of a row, up to a width. -/
def pad (width : Nat) (row : Row) : Row := row ++ List.replicate (width - row.length) ({} : Cell)

/-- Whether a row begins at the rail. -/
def startsAtRail (row : Row) : Bool := !(row.cell 0).isEmpty

/-- A row is given by its length and its cells. -/
theorem ext_cell {row row' : Row} (hlen : row.length = row'.length)
    (h : ∀ k, row.cell k = row'.cell k) : row = row' :=
  List.ext_getElem hlen fun k hk hk' => by simpa [cell, hk, hk'] using h k

theorem cell_update (row : Row) (x : Nat) (f : Cell → Cell) (k : Nat) :
    (row.update x f).cell k = if k = x then f (row.cell x) else row.cell k := by
  induction row generalizing x k with
  | nil =>
    induction x generalizing k with
    | zero => cases k <;> simp [update, cell]
    | succ x ih =>
      cases k with
      | zero => simp [update, cell]
      | succ k => simpa [update, cell] using ih k
  | cons c rest ih =>
    cases x with
    | zero => cases k <;> simp [update, cell]
    | succ x =>
      cases k with
      | zero => simp [update, cell]
      | succ k => simpa [update, cell] using ih x k

@[simp]
theorem length_update (row : Row) (x : Nat) (f : Cell → Cell) :
    (row.update x f).length = max row.length (x + 1) := by
  induction row generalizing x with
  | nil =>
    induction x with
    | zero => rfl
    | succ x ih => simp only [update, List.length_cons, ih, List.length_nil]; omega
  | cons c rest ih =>
    cases x with
    | zero => simp only [update, List.length_cons]; omega
    | succ x => simp only [update, List.length_cons, ih]; omega

@[simp]
theorem length_wireLeft (row : Row) (x : Nat) :
    (row.wireLeft x).length = if x = 0 then row.length else max row.length (x + 1) := by
  cases x with
  | zero => rfl
  | succ x => simp only [wireLeft, length_update, if_neg (Nat.succ_ne_zero x)]; omega

@[simp]
theorem length_extend (row : Row) (n : Nat) : (row.extend n).length = row.length + n := by
  induction n generalizing row with
  | zero => rfl
  | succ n ih =>
    rw [extend, ih, length_wireLeft, length_update]
    split <;> omega

@[simp]
theorem length_wireTo (row : Row) (column : Nat) :
    (row.wireTo column).length = max row.length column := by
  rw [wireTo, length_extend]; omega

theorem cell_shift (offset : Nat) (row : Row) (k : Nat) :
    (row.shift offset).cell k = if k < offset then {} else row.cell (k - offset) := by
  by_cases h : k < offset
  · simp [shift, cell, List.getElem?_append, h]
  · simp [shift, cell, List.getElem?_append, h]

end Row

/-! ## Blocks -/

/-- A block of a drawing. Series elements go to column `width` of row `out`, once the `pending` rows
below are tied to it; every row from `top` down belongs to the block. -/
structure Block where
  width : Nat := 0
  out : Nat := 0
  pending : List Nat := []
  top : Nat := 0
  deriving DecidableEq, Repr

/-- The open rows of a block, from top to bottom. -/
def Block.rows (b : Block) : List Nat := b.out :: b.pending

/-! ## Drawing -/

/-- A drawing in progress. -/
structure Sheet where
  rows : List Row := [[]]
  block : Block := {}
  waiting : List Block := []
  anchors : List (Nat × Nat) := []
  deriving DecidableEq, Repr

namespace Sheet

/-- Whether nothing is drawn yet. -/
def isBare (s : Sheet) : Bool := s.rows.all List.isEmpty

/-- Puts an instruction into a cell. -/
def put (rows : List Row) (x y : Nat) (i : Instruction) (index : Nat) : List Row :=
  rows.modify y (·.update x ({ · with instruction := some i, source := some index }))

/-- Puts an instruction into a cell and wires it to the left. -/
def putWired (rows : List Row) (x y : Nat) (i : Instruction) (index : Nat) : List Row :=
  (put rows x y i index).modify y (·.wireLeft x)

/-- Draws plain wire behind each of the given rows, up to a column. -/
def wireRowsTo (rows : List Row) (ys : List Nat) (column : Nat) : List Row :=
  rows.mapIdx fun y row => if y ∈ ys then row.wireTo column else row

/-- Ties the rows from `top` to `bottom` together in a column. -/
def tie (rows : List Row) (x top bottom : Nat) : List Row :=
  rows.mapIdx fun y row =>
    if top ≤ y && y ≤ bottom then
      row.update x fun c => { c with up := c.up || top < y, down := c.down || y < bottom }
    else row

/-- Moves the rows from `top` down to the right. -/
def shiftRows (rows : List Row) (top offset : Nat) : List Row :=
  rows.mapIdx fun y row => if top ≤ y then row.shift offset else row

/-- The rows from `top` down that begin at the rail. -/
def railRows (rows : List Row) (top : Nat) : List Nat :=
  (rows.zipIdx.filter fun (row, y) => top ≤ y && row.startsAtRail).map (·.2)

/-- Ties the pending rows of a block to its output row, at its last column. -/
def tiePending (rows : List Row) (b : Block) : List Row :=
  match b.pending.getLast?, b.width with
  | some bottom, x + 1 => tie (wireRowsTo rows b.rows b.width) x b.out bottom
  | _, _ => rows

/-- Draws a contact at the start of a block. -/
def start (s : Sheet) (i : Instruction) (index : Nat) : Sheet :=
  if s.isBare then
    { s with rows := put s.rows 0 0 i index, block := { width := 1 } }
  else
    let y := s.rows.length
    { s with
      rows := put (s.rows ++ [[]]) 0 y i index
      block := { width := 1, out := y, top := y }
      waiting := s.block :: s.waiting }

/-- Draws a contact in parallel to the block. -/
def parallel (s : Sheet) (i : Instruction) (index : Nat) : Sheet :=
  let y := s.rows.length
  { s with
    rows := put (s.rows ++ [[]]) 0 y i index
    block := { s.block with pending := s.block.pending ++ [y] } }

/-- Draws an element in series with the block. -/
def series (s : Sheet) (i : Instruction) (index : Nat) : Sheet :=
  let b := s.block
  { s with
    rows := putWired (tiePending s.rows b) b.width b.out i index
    block := { b with width := b.width + 1, pending := [] } }

/-- Joins the block in parallel with the one that waits. -/
def joinParallel (s : Sheet) : Sheet :=
  match s.waiting with
  | [] => s
  | a :: waiting =>
    let b := s.block
    let width := max a.width b.width
    { s with
      rows := wireRowsTo s.rows (a.rows ++ b.rows) width
      block := { width, out := a.out, pending := a.pending ++ b.rows, top := a.top }
      waiting }

/-- Joins the block in series behind the one that waits. -/
def joinSeries (s : Sheet) : Sheet :=
  match s.waiting with
  | [] => s
  | a :: waiting =>
    let b := s.block
    let rows := tiePending s.rows a
    let offset := a.width + 1
    let entries := railRows rows b.top
    let bottom := entries.getLast?.getD b.top
    let rows := (shiftRows rows b.top offset).modify a.out (·.wireLeft a.width)
    let rows := tie rows a.width a.out bottom
    { rows := rows.mapIdx fun y row => if y ∈ entries then row.wireLeft offset else row
      block := { width := offset + b.width, out := b.out, pending := b.pending, top := a.top }
      waiting
      anchors := s.anchors.map fun (x, y) => if b.top ≤ y then (x + offset, y) else (x, y) }

/-- Draws the push of a branch, and leaves an anchor there. -/
def pushBranch (s : Sheet) (i : Instruction) (index : Nat) : Sheet :=
  { s.series i index with anchors := (s.block.width, s.block.out) :: s.anchors }

/-- Draws a branch from the last anchor, which stays or goes. -/
def dropBranch (s : Sheet) (i : Instruction) (index : Nat) (keep : Bool) : Sheet :=
  match s.anchors with
  | [] => s
  | (x, top) :: anchors =>
    let y := s.rows.length
    { s with
      rows := put (tie (s.rows ++ [[]]) x top y) x y i index
      block := { s.block with width := x + 1, out := y, pending := [] }
      anchors := if keep then s.anchors else anchors }

/-- Draws one instruction. -/
def draw (s : Sheet) (i : Instruction) (index : Nat) : Sheet :=
  match i.operation with
  | .known (.contact .start _) => s.start i index
  | .known (.contact .parallel _) => s.parallel i index
  | .known (.contact .series _) => s.series i index
  | .known (.coil _) => s.series i index
  | .known (.block .parallel) => s.joinParallel
  | .known (.block .series) => s.joinSeries
  | .known (.branch .push) => s.pushBranch i index
  | .known (.branch .read) => s.dropBranch i index true
  | .known (.branch .pop) => s.dropBranch i index false
  | .unknown _ => s

/-- The diagram on a sheet: every row with empty cells up to the longest one. -/
def toDiagram (s : Sheet) : Diagram :=
  if s.isBare then ⟨[]⟩
  else
    let width := (s.rows.map List.length).foldl max 0
    .ofRows (s.rows.map (Row.pad width))

end Sheet

namespace Program

/-- The sheet after the whole program. -/
def sheet (program : Program) : Sheet :=
  program.zipIdx.foldl (fun s (i, index) => s.draw i index) {}

theorem sheet_append (program : Program) (i : Instruction) :
    sheet (program ++ [i]) = (sheet program).draw i program.length := by
  simp [sheet, List.zipIdx_append]

end Program
end LadderLogic
