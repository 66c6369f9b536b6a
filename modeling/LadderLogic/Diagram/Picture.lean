import LadderLogic.Diagram.Power
import LadderLogic.Text.Blank

/-!
# Pictures of diagrams

A diagram as plain text. A row of cells is one line, nine code points for each cell behind the rail,
and a second line with the links to the row below if it has any. Wire with power on it is drawn with
`=` and wire without with `-`. Blanks at the end of a line are left out.

Whether a cell stands at the rail, and whether its outlet has power on it, hangs on the column and the
row that the cell carries.

Source: `GridFormatter.label`, `cell_text` and `format`, the grid formatter of section 2 of the
specification.
-/

namespace LadderLogic
namespace Picture

/-- The code points of a label, and with one more on each side those of a cell. -/
def labelWidth : Nat := 7

/-- The wire with or without power on it. -/
def wire (live : Bool) : CodePoint := if live then '=' else '-'

/-- The full label of an instruction. -/
def fullLabel (i : Instruction) : Text :=
  match i.operation with
  | .known (.contact _ .on) => '[' :: (i.value ++ [.char ']'])
  | .known (.contact _ .off) => '[' :: '/' :: (i.value ++ [.char ']'])
  | .known (.contact _ .equal) => '[' :: (i.value ++ .char '=' :: (i.arg 1 ['0'] ++ [.char ']']))
  | .known (.coil .out) => '(' :: (i.value ++ [.char ')'])
  | .known (.coil .set) => '(' :: 'S' :: ' ' :: (i.value ++ [.char ')'])
  | .known (.coil .reset) => '(' :: 'R' :: ' ' :: (i.value ++ [.char ')'])
  | .known (.coil c) => (Opcode.coil c).name ++ .char ' ' :: (i.arg 0 [] ++ .char '>' :: i.arg 1 [])
  | operation => operation.name

/-- The label of an instruction, cut to its width. -/
def label (i : Instruction) : Text := (fullLabel i).take labelWidth

/-- A label in the middle of its width. Of an odd number of code points around it the one more goes
to the left. -/
def centred (fill : CodePoint) (label : Text) : Text :=
  let around := labelWidth - label.length
  List.replicate (around / 2 + around % 2) fill ++ label ++ List.replicate (around / 2) fill

/-- Whether a cell is fed from its left: over a stub, or by the rail. -/
def isFed (c : Cell) (atRail : Bool) : Bool := c.left || (atRail && !c.isEmpty)

/-- What stands in the middle of a cell. -/
def body (c : Cell) (atRail live : Bool) : Text :=
  match c.instruction with
  | some i => centred (if isFed c atRail then wire live else .char ' ') (label i)
  | none => List.replicate labelWidth (if c.left || c.right then wire live else .char ' ')

/-- What stands at the right of a cell. -/
def rightEdge (c : Cell) (live : Bool) : CodePoint :=
  if c.up || c.down then '+' else if c.right then wire live else .char ' '

/-- The text of a cell. -/
def cellText (c : Cell) (atRail live : Bool) : Text :=
  (if isFed c atRail then wire live else .char ' ') :: (body c atRail live ++ [rightEdge c live])

/-- The outlet of a cell. -/
def outlet (c : GridCell) : Terminal Int := ⟨c.x, c.y, .outlet⟩

/-- The text of a cell in its place, where `live` tells which terminals have power on them. -/
def placedText (live : Terminal Int → Bool) (c : GridCell) : Text :=
  cellText c.toCell (c.x == 0) (live (outlet c))

/-- The line of a row. -/
def rowLine (row : List GridCell) (live : Terminal Int → Bool) : Text :=
  Text.trimEnd ('|' :: row.flatMap (placedText live))

/-- The link of a cell to the one below. -/
def link (c : GridCell) : Text :=
  List.replicate (labelWidth + 1) (.char ' ') ++ [if c.down then .char '|' else .char ' ']

/-- The line with the links of a row. -/
def linkLine (row : List GridCell) : Text :=
  Text.trimEnd ('|' :: row.flatMap link)

/-- The lines of a row. -/
def rowLines (row : List GridCell) (live : Terminal Int → Bool) : List Text :=
  if row.any (·.down) then [rowLine row live, linkLine row] else [rowLine row live]

/-- The lines of a diagram. -/
def lines (d : Diagram) (live : Terminal Int → Bool) : List Text :=
  d.rows.flatMap fun row => rowLines row live

/-- The picture of a diagram. -/
def render (d : Diagram) (live : Terminal Int → Bool) : Text :=
  (['\n'] : Text).intercalate (lines d live)

end Picture
end LadderLogic
