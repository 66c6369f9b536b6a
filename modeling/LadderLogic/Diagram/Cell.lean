import LadderLogic.Instruction

/-!
# Diagrams

A diagram is a grid of cells, row by row. A cell holds an instruction or none, and has wire stubs
towards its four neighbours. In a diagram it also carries the place that it was given: column 0 stands at
the left power rail. A diagram may be put together of any cells, so that the place a cell carries need
not be the one where it is found.

Source: `Connections`, `GridCell` and `Grid` (section 3 of the specification).
-/

namespace LadderLogic

/-- A cell as it is drawn. `source` is the place of its instruction in the drawn program. -/
structure Cell where
  instruction : Option Instruction := none
  source : Option Nat := none
  up : Bool := false
  down : Bool := false
  left : Bool := false
  right : Bool := false
  deriving DecidableEq, Repr

namespace Cell

/-- Whether a cell has a wire stub. -/
def isWired (c : Cell) : Bool := c.up || c.down || c.left || c.right

/-- Whether a cell is a wire or a junction without an instruction. -/
def isWire (c : Cell) : Bool := c.instruction.isNone && c.isWired

/-- Whether nothing is drawn in a cell. -/
def isEmpty (c : Cell) : Bool := c.instruction.isNone && !c.isWired

end Cell

/-- A cell of a diagram: a cell, its column and its row. -/
structure GridCell extends Cell where
  x : Int
  y : Int
  deriving DecidableEq, Repr

/-- The cell in a column and a row. -/
def Cell.placed (c : Cell) (x y : Nat) : GridCell := { c with x, y }

/-- A grid of cells, row by row. -/
structure Diagram where
  rows : List (List GridCell)
  deriving DecidableEq, Repr

namespace Diagram

/-- The number of columns, as the first row has them. -/
def width (d : Diagram) : Nat := (d.rows.headD []).length

/-- The number of rows. -/
def height (d : Diagram) : Nat := d.rows.length

/-- The cell in column `x` of row `y`. -/
def cell? (d : Diagram) (x y : Nat) : Option GridCell := (d.rows[y]?).bind (·[x]?)

/-- Whether all rows have the same number of cells. -/
def IsRectangular (d : Diagram) : Prop := ∀ row ∈ d.rows, row.length = d.width

/-- The diagram with given cells, each in the place where it stands. -/
def ofRows (rows : List (List Cell)) : Diagram :=
  ⟨rows.mapIdx fun y row => row.mapIdx fun x c => c.placed x y⟩

theorem cell?_ofRows (rows : List (List Cell)) (x y : Nat) :
    (ofRows rows).cell? x y = ((rows[y]?).bind (·[x]?)).map (·.placed x y) := by
  rw [ofRows, cell?, List.getElem?_mapIdx]
  cases rows[y]? with
  | none => rfl
  | some row => exact List.getElem?_mapIdx

theorem height_ofRows (rows : List (List Cell)) : (ofRows rows).height = rows.length :=
  List.length_mapIdx

theorem width_ofRows (rows : List (List Cell)) : (ofRows rows).width = (rows.headD []).length := by
  cases rows with
  | nil => rfl
  | cons row rest => simp [ofRows, width]

theorem isRectangular_ofRows {rows : List (List Cell)} {n : Nat} (h : ∀ row ∈ rows, row.length = n) :
    (ofRows rows).IsRectangular := by
  intro row hrow
  obtain ⟨y, hy, rfl⟩ := List.mem_mapIdx.1 hrow
  rw [List.length_mapIdx, h _ (List.getElem_mem hy), width_ofRows]
  cases rows with
  | nil => cases hy
  | cons first rest => exact (h first List.mem_cons_self).symm

end Diagram
end LadderLogic
