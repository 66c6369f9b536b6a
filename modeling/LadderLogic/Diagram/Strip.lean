import LadderLogic.Diagram.Cell

/-!
# Rows of a drawing

A strip is a row of a drawing in progress. A place of it is drawn or not, and one that is not has no cell:
a wire is drawn to the left of a cell only if there is a cell. In front of column 0 there is a margin of
one place, which is no part of the diagram.

Source: one row of `cells` and `row_end` of `_LayoutBuilder`, with `cell`, `join_left`, `fill_row`, and
what `vertical`, `_shift_rows` and `_row_start` do to one row (section 4.1 of the specification).
-/

namespace LadderLogic

/-- A row of a drawing in progress: the cells from column 0 to the last one drawn, and the one in front
of them. -/
structure Strip where
  margin : Option Cell := none
  cells : List (Option Cell) := []
  deriving DecidableEq, Repr

namespace Strip

/-- The cell in a column, if it is drawn. -/
def cell? (s : Strip) (x : Nat) : Option Cell := s.cells.getD x none

/-- Whether a cell is drawn. -/
def isDrawn (s : Strip) : Bool := s.margin.isSome || s.cells.any Option.isSome

/-- The number of columns up to the last cell that is drawn. -/
def extent (s : Strip) : Nat := (s.cells.reverse.dropWhile Option.isNone).length

/-- Whether the first cell that is drawn stands in a column. -/
def beginsAt (s : Strip) (x : Nat) : Bool :=
  (s.margin :: s.cells).findIdx? Option.isSome == some (x + 1)

/-- Changes the cell in a place, which is an empty one if none is drawn there. -/
def change (f : Cell → Cell) : Nat → List (Option Cell) → List (Option Cell)
  | 0, [] => [some (f {})]
  | 0, c :: rest => some (f (c.getD {})) :: rest
  | x + 1, [] => none :: change f x []
  | x + 1, c :: rest => c :: change f x rest

/-- Changes the cell in a column. -/
def update (s : Strip) (x : Nat) (f : Cell → Cell) : Strip := { s with cells := change f x s.cells }

/-- Changes the cell in front of a column. In front of column 0 that is the margin. -/
def updateBefore (s : Strip) (column : Nat) (f : Cell → Cell) : Strip :=
  match column with
  | 0 => { s with margin := some (f (s.margin.getD {})) }
  | x + 1 => s.update x f

/-- Wires a cell to the one on its left, if there is one. A cell in column 0 has none. -/
def joinLeft (s : Strip) : Nat → Strip
  | 0 => s
  | x + 1 =>
    if (s.cell? x).isSome then
      (s.update x ({ · with right := true })).update (x + 1) ({ · with left := true })
    else s

/-- Adds `n` cells of plain wire at the end. -/
def extend (s : Strip) : Nat → Strip
  | 0 => s
  | n + 1 => extend ((s.update s.cells.length id).joinLeft s.cells.length) n

/-- Draws plain wire at the end, up to but not including a column. -/
def fillTo (s : Strip) (column : Nat) : Strip := s.extend (column - s.cells.length)

/-- Moves all cells to the right. -/
def shift (s : Strip) (offset : Nat) : Strip :=
  match offset with
  | 0 => s
  | n + 1 => if s.isDrawn then { cells := List.replicate n none ++ s.margin :: s.cells } else s

end Strip
end LadderLogic
