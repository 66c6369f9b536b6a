import LadderLogic.Diagram.Cell
import LadderLogic.Diagram.Closure

/-!
# Power in a diagram

Every cell has an inlet on its left and an outlet on its right, which is also its place on the
vertical wires. Power enters at the inlets of column 0 and spreads from the inlet to the outlet of a
cell that conducts, from an outlet to the inlet of the right neighbour over a stub to the right, and
from an outlet to the outlets above and below over stubs up and down. A cell is looked up by the place
where it stands, and not by the one that it carries.

Source: `conducts` and `energize` (section 4.3 of the specification).
-/

namespace LadderLogic

/-- The sides of a cell. -/
inductive Side where
  | inlet
  | outlet
  deriving DecidableEq, Repr

/-- One side of one cell, by its column and its row. -/
structure Terminal (ι : Type := Nat) where
  x : ι
  y : ι
  side : Side
  deriving DecidableEq, Repr

/-- The terminal of the cell that carries the column and the row. -/
def Terminal.toInt (t : Terminal) : Terminal Int := ⟨t.x, t.y, t.side⟩

/-- Whether power goes through a cell. Contacts that test a bit let it through or not; everything
else does. -/
def Cell.conducts (bits : Text → Bool) (c : Cell) : Bool :=
  match c.instruction with
  | none => true
  | some i =>
    match i.operation with
    | .known (.contact _ .on) => bits i.value
    | .known (.contact _ .off) => !bits i.value
    | _ => true

namespace Diagram

/-- Why power cannot be followed: it reaches a place where a row has no cell. -/
inductive PowerError where
  | missingCell
  deriving DecidableEq, Repr

/-- The wording of a power error. -/
def PowerError.message : PowerError → Text
  | .missingCell => "list index out of range"

/-- The terminals that power spreads to from a terminal. -/
def successors (d : Diagram) (bits : Text → Bool) (t : Terminal) : List Terminal :=
  match d.cell? t.x t.y with
  | none => []
  | some c =>
    match t.side with
    | .inlet => if c.conducts bits then [⟨t.x, t.y, .outlet⟩] else []
    | .outlet =>
      (if c.right && t.x + 1 < d.width then [⟨t.x + 1, t.y, .inlet⟩] else []) ++
      (if c.down && t.y + 1 < d.height then [⟨t.x, t.y + 1, .outlet⟩] else []) ++
      (if c.up && 0 < t.y then [⟨t.x, t.y - 1, .outlet⟩] else [])

/-- The inlets at the power rail, one in each row. -/
def rail (d : Diagram) : List Terminal := (List.range d.height).map (⟨0, ·, .inlet⟩)

/-- All terminals, row by row. Column 0 counts even if the first row is empty. -/
def terminals (d : Diagram) : List Terminal :=
  (List.range d.height).flatMap fun y =>
    (List.range (max 1 d.width)).flatMap fun x => [⟨x, y, .inlet⟩, ⟨x, y, .outlet⟩]

/-- The terminals that power reaches, in the order in which it gets there: first the rail, and then
what is nearest to it. -/
def visits (d : Diagram) (bits : Text → Bool) : List Terminal :=
  Closure.reach (d.successors bits) d.terminals d.rail

/-- The terminals that power reaches, in the order of `terminals`. -/
def power (d : Diagram) (bits : Text → Bool) : Except PowerError (List Terminal) :=
  let reached := d.visits bits
  if reached.all fun t => (d.cell? t.x t.y).isSome then
    .ok (d.terminals.filter reached.contains)
  else .error .missingCell

end Diagram
end LadderLogic
