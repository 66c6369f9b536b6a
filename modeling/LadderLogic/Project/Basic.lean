import LadderLogic.Instruction.Record
import LadderLogic.Json.Reader
import LadderLogic.Json.Writer
import LadderLogic.Project.Stamp
import LadderLogic.Text.Lines
import LadderLogic.Text.Utf8

/-!
# Projects

A project is a JSON object with the records of a program under `instructions`, and a version and a
date under `meta`. A bare array of records is read too.

Source: `dump_project`, `save_project`, `load_project_data`, `loads_project`, `load_project` and
`ProjectFormatError` (sections 6 and 7 of the specification).
-/

namespace LadderLogic
namespace Project

/-- The version that is written. -/
def version : Text := "1.0"

/-- What is wrong with the form of a project. -/
inductive FormatError where
  /-- The text is no JSON text. -/
  | notJson (cause : Json.Cause) (place : Json.Place)
  /-- The object has no array of instructions. -/
  | noInstructions
  /-- The value is neither an object nor an array. -/
  | notProject
  /-- The record at a position is no object. -/
  | notRecord (position : Nat)
  /-- The record at a position is no instruction. -/
  | badRecord (position : Nat) (error : Json.ConversionError)
  deriving DecidableEq, Repr

/-- The wording of a format error. -/
def FormatError.message : FormatError → Text
  | .notJson cause place =>
    "Project is not valid JSON: " ++ (Json.ReadError.malformed cause place).message
  | .noInstructions => "Project has no 'instructions' array"
  | .notProject => "Project must be an object or an array of instructions"
  | .notRecord position => s!"Instruction {position} is not an object"
  | .badRecord position error => s!"Invalid instruction {position}: " ++ error.message

/-- Why a project cannot be read. Beside its form these are the limits of numbers: an id that is
infinite, and an integer with too many digits in the text. -/
inductive LoadError where
  | format (error : FormatError)
  | infiniteId
  | numeral (fault : Numeral.Fault)
  | encoding (fault : Utf8.Fault)
  deriving DecidableEq, Repr

/-- The wording of a load error. -/
def LoadError.message : LoadError → Text
  | .format error => error.message
  | .infiniteId => Binary64.Fault.infinite.message
  | .numeral fault => fault.message
  | .encoding fault => fault.message

/-- The load error for the record at a position. -/
def recordError (position : Nat) : Json.ConversionError → LoadError
  | .number .infinite => .infiniteId
  | error => .format (.badRecord position error)

/-- Reads records, the first of which stands at a position. -/
def ofRecords (position : Nat) : List Json → Except LoadError Program
  | [] => .ok []
  | .obj fields :: rest =>
    match Instruction.ofRecord (.obj fields) with
    | .error e => .error (recordError position e)
    | .ok i => (ofRecords (position + 1) rest).map (i :: ·)
  | _ :: _ => .error (.format (.notRecord position))

/-- Reads a project from a value. -/
def ofJson : Json → Except LoadError Program
  | .obj fields =>
    match Json.field? fields "instructions" with
    | some (.arr records) => ofRecords 0 records
    | _ => .error (.format .noInstructions)
  | .arr records => ofRecords 0 records
  | _ => .error (.format .notProject)

/-- Reads a project from a text. -/
def ofText (text : Text) : Except LoadError Program :=
  match Json.read text with
  | .ok v => ofJson v
  | .error (.malformed cause place) => .error (.format (.notJson cause place))
  | .error (.numeral fault) => .error (.numeral fault)

/-- Reads a project from the bytes of a file. -/
def ofBytes (bytes : List UInt8) : Except LoadError Program :=
  match Utf8.decode bytes with
  | .ok text => ofText (Text.unifyLineEnds text)
  | .error fault => .error (.encoding fault)

/-- The project of a program, with a date. -/
def toJson (program : Program) (date : Stamp) : Json :=
  .obj [("instructions", .arr (program.map Instruction.toJson)),
    ("meta", .obj [("version", .str version), ("date", .str date.text)])]

/-- The text of a project. -/
def toText (program : Program) (date : Stamp) : Except Numeral.Fault Text :=
  (toJson program date).pretty

/-- The bytes of a project file. -/
def toBytes (program : Program) (date : Stamp) : Except Numeral.Fault (List UInt8) :=
  (toText program date).map Utf8.encode

end Project
end LadderLogic
