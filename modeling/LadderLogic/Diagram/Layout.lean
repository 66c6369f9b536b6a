import LadderLogic.Diagram.Strip

/-!
# Layout of a program

A program is drawn from left to right in one pass. The canvas holds the rows drawn so far, the region
being drawn, the regions that wait to be joined with it, and the anchors of open branches.

- A contact at the start opens a region on a new row below all others.
- A contact in parallel opens a new row at the rail; the row stays active until the next element in
  series, or a join, closes it.
- A contact or coil in series ties the active rows to the output row at the last column of the
  region, and goes behind them on the output row.
- A join in parallel draws the rows of both regions to a common width.
- A join in series moves the rows of the current region to the right of the one before, with one
  junction column between them.
- A branch that is pushed leaves an anchor; reading or popping it drops a tie from the anchor to a
  new row, where the drawing goes on.

An active row reaches the output row over its tie alone: it gets no stub to the right behind it, so
that a later tie across it cannot feed it. A join without a waiting region, and a branch read or
popped without an anchor, draws nothing.

A region without a column, which a program that opens with a contact in parallel begins with, is tied in
front of column 0. Such a tie stands in the margin, and no part of the diagram hangs on it.

Source: `_Block`, `_LayoutBuilder` and `layout` (section 4.1 of the specification).
-/

namespace LadderLogic

/-- A region of a drawing. Series elements go to column `width` of row `out`, once the `active` rows
are tied to it; every row from `top` down belongs to the region. -/
structure Region where
  width : Nat := 0
  active : List Nat := [0]
  out : Nat := 0
  top : Nat := 0
  deriving DecidableEq, Repr

namespace Region

/-- The rows of the first list, and those of the second that are not among them. -/
def union (ys zs : List Nat) : List Nat := ys ++ zs.filter fun z => !ys.contains z

/-- The first active row. -/
def first (r : Region) : Nat := r.active.min?.getD r.out

/-- The last active row. -/
def last (r : Region) : Nat := r.active.max?.getD r.out

end Region

/-- A drawing in progress. -/
structure Canvas where
  rows : List Strip := [{}]
  region : Region := {}
  waiting : List Region := []
  anchors : List (Nat × Nat) := []
  deriving DecidableEq, Repr

namespace Canvas

/-- Whether nothing is drawn yet. -/
def isBlank (c : Canvas) : Bool := !c.rows.any Strip.isDrawn

/-- Puts an instruction into a cell. -/
def put (rows : List Strip) (x y : Nat) (i : Instruction) (index : Nat) : List Strip :=
  rows.modify y (·.update x ({ · with instruction := some i, source := some index }))

/-- Puts an instruction into a cell and wires it to the left. -/
def putWired (rows : List Strip) (x y : Nat) (i : Instruction) (index : Nat) : List Strip :=
  (put rows x y i index).modify y (·.joinLeft x)

/-- Draws plain wire behind each of the given rows, up to a column. -/
def fillRows (rows : List Strip) (ys : List Nat) (column : Nat) : List Strip :=
  rows.mapIdx fun y s => if y ∈ ys then s.fillTo column else s

/-- Ties the rows from `top` to `bottom` together in front of a column. -/
def tieBefore (rows : List Strip) (column top bottom : Nat) : List Strip :=
  rows.mapIdx fun y s =>
    if top ≤ y && y ≤ bottom then
      s.updateBefore column fun c => { c with up := c.up || top < y, down := c.down || y < bottom }
    else s

/-- Moves the rows from `top` down to the right. -/
def shiftRows (rows : List Strip) (top offset : Nat) : List Strip :=
  rows.mapIdx fun y s => if top ≤ y then s.shift offset else s

/-- The rows from `top` down whose first cell stands in a column. -/
def rowsFrom (rows : List Strip) (top column : Nat) : List Nat :=
  (rows.zipIdx.filter fun (s, y) => top ≤ y && s.beginsAt column).map (·.2)

/-- Ties the active rows of a region together at its last column, so that the output row goes on alone. -/
def converge (rows : List Strip) (r : Region) : List Strip × Region :=
  if r.active.length ≤ 1 then (rows, r)
  else
    (tieBefore (fillRows rows r.active r.width) r.width r.first r.last, { r with active := [r.out] })

/-- Draws a contact at the start of a region. -/
def start (c : Canvas) (i : Instruction) (index : Nat) : Canvas :=
  if c.isBlank && c.waiting.isEmpty then
    -- the first instruction that is drawn begins a new diagram
    { c with rows := put [{}] 0 0 i index, region := { width := 1 }, anchors := [] }
  else
    let y := c.rows.length
    { c with
      rows := put (c.rows ++ [{}]) 0 y i index
      region := { width := 1, active := [y], out := y, top := y }
      waiting := c.region :: c.waiting }

/-- Draws a contact in parallel to the region. -/
def parallel (c : Canvas) (i : Instruction) (index : Nat) : Canvas :=
  let y := c.rows.length
  { c with
    rows := put (c.rows ++ [{}]) 0 y i index
    region := { c.region with active := Region.union c.region.active [y] } }

/-- Draws an element in series with the region. -/
def series (c : Canvas) (i : Instruction) (index : Nat) : Canvas :=
  let (rows, r) := converge c.rows c.region
  { c with
    rows := putWired rows r.width r.out i index
    region := { r with width := r.width + 1 } }

/-- Joins the region in parallel with the one that waits. -/
def joinParallel (c : Canvas) : Canvas :=
  match c.waiting with
  | [] => c
  | a :: waiting =>
    let b := c.region
    let width := max a.width b.width
    let active := Region.union a.active b.active
    { c with
      rows := fillRows c.rows active width
      region := { width, active, out := min a.out b.out, top := a.top }
      waiting }

/-- Joins the region in series behind the one that waits. -/
def joinSeries (c : Canvas) : Canvas :=
  match c.waiting with
  | [] => c
  | a :: waiting =>
    let b := c.region
    let (rows, a) := converge c.rows a
    let junction := a.width
    let offset := junction + 1
    let rows := shiftRows rows b.top offset
    -- the rows that began at the rail begin behind the junction now
    let entries := rowsFrom rows b.top offset
    let bottom := entries.max?.getD b.top
    let rows := rows.modify a.out fun s => (s.update junction id).joinLeft junction
    let rows := tieBefore rows offset a.out bottom
    { rows := rows.mapIdx fun y s => if y ∈ entries then s.joinLeft offset else s
      region := { width := offset + b.width, active := b.active, out := b.out, top := a.top }
      waiting
      anchors := c.anchors.map fun (x, y) => if b.top ≤ y then (x + offset, y) else (x, y) }

/-- Draws the push of a branch, and leaves an anchor there. -/
def pushBranch (c : Canvas) (i : Instruction) (index : Nat) : Canvas :=
  let (_, r) := converge c.rows c.region
  { c.series i index with anchors := (r.width, r.out) :: c.anchors }

/-- Draws a branch from the last anchor, which stays or goes. -/
def dropBranch (c : Canvas) (i : Instruction) (index : Nat) (keep : Bool) : Canvas :=
  match c.anchors with
  | [] => c
  | (x, top) :: anchors =>
    let y := c.rows.length
    { c with
      rows := put (tieBefore (c.rows ++ [{}]) (x + 1) top y) x y i index
      region := { c.region with width := x + 1, active := [y], out := y }
      anchors := if keep then c.anchors else anchors }

/-- Draws one instruction. -/
def draw (c : Canvas) (i : Instruction) (index : Nat) : Canvas :=
  match i.operation with
  | .known (.contact .start _) => c.start i index
  | .known (.contact .parallel _) => c.parallel i index
  | .known (.contact .series _) => c.series i index
  | .known (.coil _) => c.series i index
  | .known (.block .parallel) => c.joinParallel
  | .known (.block .series) => c.joinSeries
  | .known (.branch .push) => c.pushBranch i index
  | .known (.branch .read) => c.dropBranch i index true
  | .known (.branch .pop) => c.dropBranch i index false
  | .unknown _ => c

/-- The diagram on a canvas: all columns and rows up to the last ones that are drawn. -/
def toDiagram (c : Canvas) : Diagram :=
  if c.isBlank then ⟨[]⟩
  else
    let width := (c.rows.map Strip.extent).foldl max 0
    let rows := (c.rows.reverse.dropWhile fun s => !s.isDrawn).reverse
    .ofRows (rows.map fun s => (List.range width).map fun x => (s.cell? x).getD {})

end Canvas

namespace Program

/-- The canvas after the whole program. -/
def canvas (program : Program) : Canvas :=
  program.zipIdx.foldl (fun c (i, index) => c.draw i index) {}

/-- The diagram of a program. -/
def layout (program : Program) : Diagram := program.canvas.toDiagram

end Program
end LadderLogic
