import LadderLogic.Number.Binary64
import LadderLogic.Text.Basic

/-!
# JSON values

A value of a JSON text. A number is an integer, or a `binary64` number if it is written with a
fraction or an exponent. The fields of an object keep the order in which their names came first.

Source: the values of a persisted project (section 6 of the specification).
-/

namespace LadderLogic

/-- A JSON value. -/
inductive Json where
  | null
  | bool (b : Bool)
  | int (n : Int)
  | real (x : Binary64)
  | str (s : Text)
  | arr (items : List Json)
  | obj (fields : List (Text × Json))
  deriving Repr

namespace Json

/-- The fields of an object, in order. -/
abbrev Fields := List (Text × Json)

/-- The kinds of values. -/
inductive Kind where
  | null
  | bool
  | int
  | real
  | str
  | arr
  | obj
  deriving DecidableEq, Repr

/-- The name of a kind in messages. -/
def Kind.name : Kind → Text
  | .null => "NoneType"
  | .bool => "bool"
  | .int => "int"
  | .real => "float"
  | .str => "str"
  | .arr => "list"
  | .obj => "dict"

/-- The kind of a value. -/
def kind : Json → Kind
  | .null => .null
  | .bool _ => .bool
  | .int _ => .int
  | .real _ => .real
  | .str _ => .str
  | .arr _ => .arr
  | .obj _ => .obj

/-- Sets a field: a name that is there keeps its place and gets the new value, a new one goes to the
end. -/
def setField (fields : Fields) (name : Text) (value : Json) : Fields :=
  match fields with
  | [] => [(name, value)]
  | (n, v) :: rest => if n = name then (name, value) :: rest else (n, v) :: setField rest name value

/-- The value of a field. -/
def field? (fields : Fields) (name : Text) : Option Json :=
  fields.lookup name

@[simp]
theorem field?_setField_self (fields : Fields) (name : Text) (value : Json) :
    field? (setField fields name value) name = some value := by
  induction fields with
  | nil => exact List.lookup_cons_self
  | cons f rest ih =>
    obtain ⟨n, v⟩ := f
    rw [setField]
    split
    · exact List.lookup_cons_self
    · next h =>
      have hn : (name == n) = false := beq_false_of_ne (Ne.symm h)
      rw [field?, List.lookup_cons, hn]
      exact ih

end Json
end LadderLogic
