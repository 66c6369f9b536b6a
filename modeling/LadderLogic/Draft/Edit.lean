import LadderLogic.Draft.Basic

/-!
# Editing drafts

Changes, deletes and inserts single drafts. An index counts from 0, and an insertion goes behind its
index, so that -1 stands for the front. A draft keeps its id for ever, and a new one gets an id that no
other has.

Source: `next_instruction_id`, `update_instruction`, `delete_instruction`, `insert_instruction`,
`insert_series` and `insert_parallel`, the editor helpers of sections 2 and 7 of the specification.
-/

namespace LadderLogic
namespace Draft

/-- Why an edit is refused. -/
inductive EditError where
  /-- The index, as it is shown, is not one from `first` to the last. -/
  | outOfRange (index : Text) (first last : Int)
  /-- A change has the name of what says where it goes. -/
  | repeatedArgument (name : Text)
  | immutableId
  | unknownField (name : Text)
  /-- A change has the name of the draft that is changed. -/
  | reservedField
  | conversion (error : Json.ConversionError)
  deriving DecidableEq, Repr

/-- The wording of an edit error. -/
def EditError.message : EditError → Text
  | .outOfRange index first last =>
    "instruction index " ++ index ++ s!" out of range ({first}..{last})"
  | .repeatedArgument name => "update_instruction() got multiple values for argument '" ++ name ++ "'"
  | .immutableId => "instruction id is immutable"
  | .unknownField name =>
    "Instruction.__init__() got an unexpected keyword argument '" ++ name ++ "'"
  | .reservedField => "Instruction.__init__() got multiple values for argument 'self'"
  | .conversion error => error.message

/-- An id that no draft has. -/
def nextId (drafts : List Draft) : Int := Instruction.nextId (drafts.map Draft.id)

/-- Where an index points, from `first` to the last draft. -/
def slot (drafts : List Draft) (first : Int) (index : Json) : Except EditError Json.Slot :=
  match index.slot? first drafts.length with
  | .error e => .error (.conversion e)
  | .ok (some slot) => .ok slot
  | .ok none =>
    match index.spelled with
    | .ok shown => .error (.outOfRange shown first (drafts.length - 1))
    | .error fault => .error (.conversion (.numeral fault))

/-- The first of some changes whose name is wanted. -/
def findChange (changes : Json.Fields) (wanted : Text → Bool) : Option Text :=
  (changes.find? fun change => wanted change.1).map (·.1)

/-- The operands among some changes. -/
def operands (changes : Json.Fields) : Except EditError (Option (List Json)) :=
  match Json.field? changes "args" with
  | none => .ok none
  | some v => (v.items.mapError .conversion).map some

/-- A draft with some fields changed, where `args` are its new operands. All fields must be known. -/
def change (d : Draft) (changes : Json.Fields) (args : List Json) : Except EditError Draft :=
  let known : List Text := ["type", "value", "args"]
  match findChange changes fun name => !known.contains name with
  | some name => .error (if name = Text.ofString "self" then .reservedField else .unknownField name)
  | none => .ok { d with
      type := (Json.field? changes "type").getD d.type
      value := (Json.field? changes "value").getD d.value
      args }

/-- Changes fields of the draft at a place. The id cannot be changed, then the operands must have
items, then the place must be an integer, and then all fields must be known. -/
def changeAt (drafts : List Draft) (slot : Json.Slot) (changes : Json.Fields) :
    Except EditError (List Draft) :=
  if (Json.field? changes "id").isSome then .error .immutableId
  else
    match operands changes, slot with
    | .error e, _ => .error e
    | .ok _, .fraction => .error (.conversion (.notPlace "list" .real))
    | .ok args, .whole n =>
      match drafts[n.toNat]? with
      | none => .ok drafts
      | some d => (d.change changes (args.getD d.args)).map (drafts.set n.toNat)

/-- Changes fields of the draft at an index. -/
def update (drafts : List Draft) (index : Json) (changes : Json.Fields) :
    Except EditError (List Draft) :=
  let taken : List Text := ["instructions", "index"]
  match findChange changes taken.contains with
  | some name => .error (.repeatedArgument name)
  | none =>
    match slot drafts 0 index with
    | .error e => .error e
    | .ok slot => changeAt drafts slot changes

/-- Deletes the draft at an index. -/
def delete (drafts : List Draft) (index : Json) : Except EditError (List Draft) :=
  match slot drafts 0 index with
  | .error e => .error e
  | .ok .fraction => .error (.conversion .notBound)
  | .ok (.whole n) => .ok (drafts.eraseIdx n.toNat)

/-- Inserts a draft behind an index. Without operands its value, if it is not empty, is its operand. -/
def insert (drafts : List Draft) (index type value args : Json) : Except EditError (List Draft) :=
  match slot drafts (-1) index, args.items with
  | .error e, _ => .error e
  | .ok _, .error e => .error (.conversion e)
  | .ok .fraction, .ok _ => .error (.conversion .notBound)
  | .ok (.whole n), .ok args =>
    let args := if !args.isEmpty then args else if value.truth then [value] else []
    .ok (drafts.insertIdx (n + 1).toNat { id := nextId drafts, type, value, args })

/-- Inserts a contact in series, for a bit still to be named, behind an index. -/
def insertSeries (drafts : List Draft) (index : Json) : Except EditError (List Draft) :=
  insert drafts index (.str (Opcode.contact .series .on).name) (.str ['X', '?']) (.arr [])

/-- Inserts a contact in parallel, for a bit still to be named, behind an index. -/
def insertParallel (drafts : List Draft) (index : Json) : Except EditError (List Draft) :=
  insert drafts index (.str (Opcode.contact .parallel .on).name) (.str ['Y', '?']) (.arr [])

end Draft
end LadderLogic
