import LadderLogic.Draft.Basic

/-!
# Diagrams of drafts

A diagram whose cells hold drafts. Its picture is that of the instructions with the texts of all
fields. Its power is that of a diagram in which every cell tests a bit of its own: so a contact finds
what its own value says, whether it is a text or not. A draft that cannot be asked is refused only if
power reaches its cell, and so is a place without a cell: the one that power reaches first decides.

Source: `GridFormatter.format`, `conducts` and `energize` on a grid of such instructions (sections 2 and
4.3 of the specification).
-/

namespace LadderLogic
namespace Draft

/-- A cell of a diagram with a draft. -/
structure Cell where
  x : Int
  y : Int
  draft : Option Draft := none
  up : Bool := false
  down : Bool := false
  left : Bool := false
  right : Bool := false

namespace Cell

/-- The cell with an instruction, or none, in place of the draft. -/
def withInstruction (c : Cell) (i : Option Instruction) : GridCell :=
  { x := c.x, y := c.y, instruction := i, up := c.up, down := c.down, left := c.left, right := c.right }

/-- The cell with the texts of all fields. -/
def shown (c : Cell) : Except Json.ConversionError GridCell :=
  match c.draft with
  | none => .ok (c.withInstruction none)
  | some d => d.shown.map fun i => c.withInstruction (some i)

/-- Whether power goes through a cell. -/
def conducts (bits : Text → Bool) (c : Cell) : Except Json.ConversionError Bool :=
  match c.draft with
  | none => .ok true
  | some d => d.conducts bits

end Cell

/-- Why power cannot be followed. -/
inductive PowerError where
  | power (error : Diagram.PowerError)
  | conversion (error : Json.ConversionError)
  deriving DecidableEq, Repr

/-- The wording of a power error. -/
def PowerError.message : PowerError → Text
  | .power error => error.message
  | .conversion error => error.message

/-- The picture's diagram of rows of cells. -/
def picture (rows : List (List Cell)) : Except Json.ConversionError Diagram :=
  (rows.mapM (List.mapM Cell.shown)).map Diagram.mk

/-- The name of the bit that only the cell at a place tests. -/
def placeName (x y : Nat) : Text := Text.ofString (Nat.repr x) ++ .char ',' :: Text.ofString (Nat.repr y)

/-- The contact at a place that tests the bit of the place. -/
def placeContact (x y : Nat) : Instruction :=
  { id := 0, operation := .known (.contact .start .on), value := placeName x y, args := [] }

/-- The diagram in which every cell tests the bit of its place. -/
def placeDiagram (rows : List (List Cell)) : Diagram :=
  ⟨rows.mapIdx fun y row => row.mapIdx fun x c => c.withInstruction (some (placeContact x y))⟩

/-- Whether each cell lets power through, under the name of its place. -/
def placeBits (rows : List (List Cell)) (bits : Text → Bool) :
    List (Text × Except Json.ConversionError Bool) :=
  (rows.mapIdx fun y row => row.mapIdx fun x c => (placeName x y, c.conducts bits)).flatten

/-- The terminals that power reaches in a diagram with the given rows. -/
def power (rows : List (List Cell)) (bits : Text → Bool) : Except PowerError (List Terminal) :=
  let d := placeDiagram rows
  let found := placeBits rows bits
  let at? (name : Text) : Option (Except Json.ConversionError Bool) :=
    (found.find? (·.1 == name)).map (·.2)
  let isOn (name : Text) : Bool :=
    match at? name with
    | some (.ok b) => b
    | _ => false
  let fault? (t : Terminal) : Option PowerError :=
    match t.side, at? (placeName t.x t.y) with
    | _, none => some (.power .missingCell)
    | .inlet, some (.error e) => some (.conversion e)
    | _, _ => none
  let visited := d.visits isOn
  match visited.findSome? fault? with
  | some e => .error e
  | none => .ok (d.terminals.filter visited.contains)

end Draft
end LadderLogic
