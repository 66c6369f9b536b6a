import LadderLogic.Instruction
import LadderLogic.Json.Convert

/-!
# Instruction records

An instruction as the fields of a JSON object: `id`, `type`, `value`, and `args` if there are any. A
record may hold any values: the type, the value and the operands are taken as texts, the id as an
integer.

Source: `Instruction.from_dict` and `to_dict`, the instruction record of sections 3 and 6 of the
specification.
-/

namespace LadderLogic
namespace Instruction

/-- The operands in a field: none if its value is empty or false, else the texts of its items. -/
def argsOf (v : Json) : Except Json.ConversionError (List Text) :=
  if v.truth then v.items.bind Json.toTexts else .ok []

/-- Reads a record. The type is looked at first, then the id, the value and the operands. -/
def ofRecord (record : Json) : Except Json.ConversionError Instruction := do
  let type ← (← record.get "type").toText
  let id ← (← record.get "id").toInt
  let value ← (record.getD "value" (.str [])).toText
  let args ← argsOf (record.getD "args" .null)
  return { id, operation := .parse type, value, args }

/-- Writes a record. -/
def toRecord (i : Instruction) : Json.Fields :=
  let args : Json.Fields := if i.args = [] then [] else [("args", .arr (i.args.map .str))]
  ("id", .int i.id) :: ("type", .str i.operation.name) :: ("value", .str i.value) :: args

/-- A record as a value. -/
def toJson (i : Instruction) : Json := .obj i.toRecord

end Instruction
end LadderLogic
