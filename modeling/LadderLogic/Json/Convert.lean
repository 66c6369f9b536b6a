import LadderLogic.Json.Basic
import LadderLogic.Number.Numeral
import LadderLogic.Number.Shortest

/-!
# Values as truths, integers, lists and texts

How a value that may be of any kind is understood where a truth, an integer, a list, a text, a name or
a record is wanted.

Source: the conversions in `Instruction.from_dict`, `with_io` and `with_data` (section 3 of the
specification).
-/

namespace LadderLogic
namespace Json

/-- Why a value cannot be understood as wanted. -/
inductive ConversionError where
  /-- A text is no numeral, or an integer has too many digits. -/
  | numeral (fault : Numeral.Fault)
  /-- A number is not finite. -/
  | number (fault : Binary64.Fault)
  /-- A value of this kind is no integer. -/
  | notInteger (kind : Kind)
  /-- A value of this kind has no items. -/
  | notIterable (kind : Kind)
  /-- A value of this kind is no name. -/
  | notName (kind : Kind)
  /-- Nothing can stand in a table under a value of this kind. -/
  | notKey (kind : Kind)
  /-- A value of this kind is no record. -/
  | notRecord (kind : Kind)
  /-- A record has no field of this name. -/
  | missing (name : Text)
  /-- The item at a place is of this kind and no text. -/
  | notText (place : Nat) (kind : Kind)
  /-- Values of these kinds are in no order. -/
  | notOrdered (relation : String) (left right : Kind)
  /-- A value of this kind is no number of times. -/
  | notCount (kind : Kind)
  /-- A value of this kind cannot be added to an integer. -/
  | notSummand (kind : Kind)
  /-- A value of this kind is no place in a list or another container. -/
  | notPlace (container : String) (kind : Kind)
  /-- A value is no bound of a part of a list. -/
  | notBound
  /-- A value of this kind is no JSON text. -/
  | notDocument (kind : Kind)
  /-- A value of this kind is no number. -/
  | notReal (kind : Kind)
  /-- An integer is beyond all floating-point numbers. -/
  | tooLarge
  /-- Nothing can be in a value of this kind. -/
  | notContainer (kind : Kind)
  /-- A field of a state cannot be of this kind. -/
  | notField (name : String) (kind : Kind)
  /-- What is done with a text cannot be done with a value of this kind. -/
  | noOperation (kind : Kind) (operation : String)
  deriving DecidableEq, Repr

/-- The wording of a conversion error. -/
def ConversionError.message : ConversionError → Text
  | .numeral fault => fault.message
  | .number fault => fault.message
  | .notInteger kind =>
    "int() argument must be a string, a bytes-like object or a real number, not '" ++ kind.name ++ "'"
  | .notIterable kind => "'" ++ kind.name ++ "' object is not iterable"
  | .notName kind => "expected string or bytes-like object, got '" ++ kind.name ++ "'"
  | .notKey kind => "unhashable type: '" ++ kind.name ++ "'"
  | .notRecord .str => "string indices must be integers, not 'str'"
  | .notRecord .arr => "list indices must be integers or slices, not str"
  | .notRecord kind => "'" ++ kind.name ++ "' object is not subscriptable"
  | .missing name => Text.quoted name
  | .notText place kind =>
    s!"sequence item {place}: expected str instance, " ++ kind.name ++ " found"
  | .notOrdered relation left right =>
    "'" ++ relation ++ "' not supported between instances of '" ++ left.name ++ "' and '" ++
      right.name ++ "'"
  | .notCount kind => "'" ++ kind.name ++ "' object cannot be interpreted as an integer"
  | .notSummand kind => "unsupported operand type(s) for +: 'int' and '" ++ kind.name ++ "'"
  | .notPlace container kind => container ++ " indices must be integers or slices, not " ++ kind.name
  | .notBound => "slice indices must be integers or None or have an __index__ method"
  | .notDocument kind => "the JSON object must be str, bytes or bytearray, not " ++ kind.name
  | .notReal kind => "float() argument must be a string or a real number, not '" ++ kind.name ++ "'"
  | .tooLarge => "int too large to convert to float"
  | .notContainer kind => "argument of type '" ++ kind.name ++ "' is not iterable"
  | .notField name kind => "Invalid type for field SimulationState." ++ name ++ ", was " ++ kind.name
  | .noOperation kind operation =>
    "'" ++ kind.name ++ "' object has no attribute '" ++ operation ++ "'"

/-- The truth of a value: what is empty, zero, null or false is false. -/
def truth : Json → Bool
  | .null => false
  | .bool b => b
  | .int n => n ≠ 0
  | .real x => !x.isZero
  | .str s => !s.isEmpty
  | .arr items => !items.isEmpty
  | .obj fields => !fields.isEmpty

/-- The integer of a value: a truth is 0 or 1, a fraction is cut off, a text is read. -/
def toInt : Json → Except ConversionError Int
  | .bool b => .ok (if b then 1 else 0)
  | .int n => .ok n
  | .real x => x.truncate.mapError .number
  | .str s => (Numeral.read s).mapError .numeral
  | v => .error (.notInteger v.kind)

/-- The items of a value: those of an array, the code points of a text, the names of an object. -/
def items : Json → Except ConversionError (List Json)
  | .arr items => .ok items
  | .str s => .ok (s.map fun p => .str [p])
  | .obj fields => .ok (fields.map fun f => .str f.1)
  | v => .error (.notIterable v.kind)

/-- The text of a value that is one. -/
def name : Json → Except ConversionError Text
  | .str s => .ok s
  | v => .error (.notName v.kind)

/-- The field of a record. -/
def get (record : Json) (name : Text) : Except ConversionError Json :=
  match record with
  | .obj fields =>
    match field? fields name with
    | some v => .ok v
    | none => .error (.missing name)
  | v => .error (.notRecord v.kind)

/-- The field of a record, or a value in its place if there is none. -/
def getD (record : Json) (name : Text) (default : Json) : Json :=
  match record with
  | .obj fields => (field? fields name).getD default
  | _ => default

/-! ## Texts -/

/-- Texts with a comma and a blank between them. -/
def commaSeparated : List Text → Text
  | [] => []
  | [t] => t
  | t :: ts => t ++ .char ',' :: .char ' ' :: commaSeparated ts

mutual

/-- A value spelled out, with texts in quotes. -/
def spelled : Json → Except Numeral.Fault Text
  | .null => .ok "None"
  | .bool b => .ok (if b then "True" else "False")
  | .int n => Numeral.write n
  | .real x => .ok x.text
  | .str s => .ok (Text.quoted s)
  | .arr items => (spelledItems items).map fun ts => "[" ++ commaSeparated ts ++ "]"
  | .obj fields => (spelledFields fields).map fun ts => "\x7b" ++ commaSeparated ts ++ "\x7d"

/-- The items of an array spelled out. -/
def spelledItems : List Json → Except Numeral.Fault (List Text)
  | [] => .ok []
  | v :: rest =>
    match spelled v, spelledItems rest with
    | .ok t, .ok ts => .ok (t :: ts)
    | .error e, _ => .error e
    | _, .error e => .error e

/-- The fields of an object spelled out. -/
def spelledFields : List (Text × Json) → Except Numeral.Fault (List Text)
  | [] => .ok []
  | (name, v) :: rest =>
    match spelled v, spelledFields rest with
    | .ok t, .ok ts => .ok ((Text.quoted name ++ ": " ++ t) :: ts)
    | .error e, _ => .error e
    | _, .error e => .error e

end

/-- The text of a value: a text is itself, any other value is spelled out. -/
def toText : Json → Except ConversionError Text
  | .str s => .ok s
  | v => v.spelled.mapError .numeral

/-- The texts of some values that all are texts. Their places are counted from `place` on. -/
def texts (place : Nat) : List Json → Except ConversionError (List Text)
  | [] => .ok []
  | .str s :: rest => (texts (place + 1) rest).map (s :: ·)
  | v :: _ => .error (.notText place v.kind)

/-- The texts of some values. -/
def toTexts : List Json → Except ConversionError (List Text)
  | [] => .ok []
  | v :: rest =>
    match v.toText with
    | .error e => .error e
    | .ok s => (toTexts rest).map (s :: ·)

end Json
end LadderLogic
