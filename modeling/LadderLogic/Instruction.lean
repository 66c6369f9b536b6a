import LadderLogic.Number.Numeral
import LadderLogic.Opcode

/-!
# Instructions

An instruction has an id that never changes, an operation, a first operand and all its operands. An
operation is an opcode, or a name that is none; such an instruction does nothing anywhere.

Source: `Instruction` (section 3 of the specification).
-/

namespace LadderLogic

/-- An opcode, or the name of none. -/
inductive Operation where
  | known (opcode : Opcode)
  | unknown (name : Text)
  deriving DecidableEq, Repr

namespace Operation

/-- The operation with exactly this name. -/
def ofName (name : Text) : Operation :=
  match Opcode.ofName? name with
  | some c => .known c
  | none => .unknown name

/-- The operation with this name, where an opcode is found in capitals or small letters. -/
def parse (name : Text) : Operation :=
  match Opcode.parse? name with
  | some c => .known c
  | none => .unknown name

/-- The name of an operation. -/
def name : Operation → Text
  | .known c => c.name
  | .unknown s => s

/-- The opcode of an operation. -/
def opcode? : Operation → Option Opcode
  | .known c => some c
  | .unknown _ => none

@[simp]
theorem name_ofName (s : Text) : (ofName s).name = s := by
  unfold ofName
  split
  · next c h => exact Opcode.name_of_ofName? h
  · rfl

end Operation

/-- An instruction. The first of `args`, if there are any, is usually `value`. -/
structure Instruction where
  id : Int
  operation : Operation
  value : Text
  args : List Text
  deriving DecidableEq, Repr

/-- A program is a list of instructions, in the order in which they are run. -/
abbrev Program := List Instruction

namespace Instruction

/-- The operand at an index, or `default` if there is none. -/
def arg (i : Instruction) (index : Nat) (default : Text) : Text := i.args.getD index default

/-- The operand at any index. -/
def argAt? (i : Instruction) (index : Int) : Option Text :=
  if index < 0 then none else i.args[index.toNat]?

/-- The name under which the enable of a pulse move with an id is remembered. It hangs on the id and
not on the place in the program. -/
def pulseKey (id : Int) : Except Numeral.Fault Text := (Numeral.write id).map ("MOVP:" ++ ·)

/-- An id that is not among some ids. -/
def nextId : List Int → Int
  | [] => 1
  | first :: rest => rest.foldl max first + 1

end Instruction

namespace Program

/-- An id that no instruction of the program has. -/
def nextId (program : Program) : Int := Instruction.nextId (program.map Instruction.id)

end Program
end LadderLogic
