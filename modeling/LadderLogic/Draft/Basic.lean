import LadderLogic.Diagram.Layout
import LadderLogic.Diagram.Power
import LadderLogic.Key
import LadderLogic.Listing
import LadderLogic.Operand

/-!
# Drafts

An instruction as an editor leaves it. Its type, its value and its operands may be any values; they
stay as they are and are looked at only where something is made of them. A picture shows each of them
by its text. A listing wants texts. A type that is no text names no opcode, and one that is an array or
an object cannot be looked up at all.

Source: `Instruction` with fields of any kind, as `GridFormatter.label`, `format_instruction`,
`conducts` and `resolve_operand` look at it (sections 3, 4 and 6 of the specification).
-/

namespace LadderLogic

/-- An instruction with any values in its fields. -/
structure Draft where
  id : Int
  type : Json
  value : Json
  args : List Json

namespace Draft

/-- The draft of an instruction. -/
def ofInstruction (i : Instruction) : Draft where
  id := i.id
  type := .str i.operation.name
  value := .str i.value
  args := i.args.map .str

/-- Reads a draft from a record, and leaves its values as they are. An id that is no integer counts as
0. -/
def ofRecord (record : Json) : Except Json.ConversionError Draft := do
  let id ← record.get "id"
  let type ← record.get "type"
  let args ← (record.getD "args" (.arr [])).items
  return { id := id.integer?.getD 0, type, value := record.getD "value" (.str []), args }

/-- Writes the record of a draft. The type is written as a text. -/
def toRecord (d : Draft) : Except Json.ConversionError Json.Fields :=
  d.type.toText.map fun type =>
    let args : Json.Fields := if d.args.isEmpty then [] else [("args", .arr d.args)]
    ("id", .int d.id) :: ("type", .str type) :: ("value", d.value) :: args

/-- The instruction with the texts of all fields. -/
def shown (d : Draft) : Except Json.ConversionError Instruction := do
  let type ← d.type.toText
  let value ← d.value.toText
  let args ← Json.toTexts d.args
  return { id := d.id, operation := .ofName type, value, args }

/-- The operation of a draft. -/
def operation (d : Draft) : Except Json.ConversionError Operation := do
  let _ ← d.type.key
  return .ofName (← d.type.toText)

/-- The operands that are written: all of them, or the value if there are none and it is not empty. -/
def writtenOperands (d : Draft) : List Json :=
  if !d.args.isEmpty then d.args else if d.value.truth then [d.value] else []

/-- The line of a draft in a listing. -/
def line (d : Draft) : Except Json.ConversionError Text := do
  let operation ← d.operation
  let operands ← Json.texts 1 d.writtenOperands
  return Listing.lineOf (Listing.operationName operation) operands

/-- The value of a bit that only names can have. -/
def namedBit (bits : Text → Bool) : Key → Bool
  | .name name => bits name
  | .other _ => false

/-- The value of the bit that a field names. -/
def bitOf (bits : Key → Bool) (v : Json) : Except Json.ConversionError Bool := v.key.map bits

/-- Whether power goes through a cell with a draft. -/
def conducts (bits : Text → Bool) (d : Draft) : Except Json.ConversionError Bool := do
  match ← d.operation with
  | .known (.contact _ .on) => bitOf (namedBit bits) d.value
  | .known (.contact _ .off) => (bitOf (namedBit bits) d.value).map (!·)
  | _ => return true

/-- The value of a token, where `registers` gives the values of the registers. What is empty, zero,
null or false has the value 0. -/
def resolve (registers : Text → Except Json.ConversionError Int) (token : Json) :
    Except Json.ConversionError Int :=
  match token with
  | .str s =>
    match Operand.ofToken s with
    | .register name => registers name
    | operand => (operand.value fun _ => 0).mapError .numeral
  | v => if v.truth then .error (.notName v.kind) else .ok 0

/-- The listing of drafts. -/
def listing (drafts : List Draft) : Except Json.ConversionError Text :=
  (drafts.mapM line).map Listing.joinLines

/-- The diagram of drafts. -/
def layout (drafts : List Draft) : Except Json.ConversionError Diagram := do
  let _ ← drafts.mapM operation
  return Program.layout (← drafts.mapM shown)

end Draft
end LadderLogic
