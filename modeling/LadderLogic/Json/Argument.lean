import LadderLogic.Json.Convert
import LadderLogic.Json.Writer

/-!
# Values as arguments

How an operation understands an argument that may be of any kind: as an index, a number of times, a
span of time, a bound or a text. A truth counts as 0 or 1 among the integers.

Source: the arguments of `LadderRunner`, `History` and the editor helpers (sections 2 and 7 of the
specification).
-/

namespace LadderLogic
namespace Json

/-- The integer that a value is. -/
def integer? : Json → Option Int
  | .int n => some n
  | .bool b => some (if b then 1 else 0)
  | _ => none

/-- Where an index points. -/
inductive Slot where
  | whole (n : Int)
  /-- Between two items, or at one but not as an integer. -/
  | fraction
  deriving DecidableEq, Repr

/-- Where an index points that is `first` at least and below `bound`. -/
def slot? (first bound : Int) (v : Json) : Except ConversionError (Option Slot) :=
  match v, v.integer? with
  | _, some n => .ok (if first ≤ n && n < bound then some (.whole n) else none)
  | .real x, none =>
    .ok (if (x.isAbove first || x.integer? = some first) && x.isBelow bound then some .fraction
      else none)
  | v, none => .error (.notOrdered "<=" .int v.kind)

/-- A number of times. -/
def count (v : Json) : Except ConversionError Int :=
  match v.integer? with
  | some n => .ok n
  | none => .error (.notCount v.kind)

/-- A span of time that is added to another. -/
def span (v : Json) : Except ConversionError Int :=
  match v, v.integer? with
  | _, some n => .ok n
  | .real _, none => .error (.notField "elapsed_ms" .real)
  | v, none => .error (.notSummand v.kind)

/-- The floating-point number nearest to an integer. -/
def nearestReal (n : Int) : Except ConversionError Binary64 :=
  match Binary64.ofInt n with
  | .infinite _ => .error .tooLarge
  | x => .ok x

/-- The number that a value is. -/
def toReal (v : Json) : Except ConversionError Binary64 :=
  match v, v.integer? with
  | .real x, _ => .ok x
  | _, some n => nearestReal n
  | v, none => .error (.notReal v.kind)

/-- How many items are wanted at most. -/
def most (v : Json) : Except ConversionError Int :=
  match v, v.integer? with
  | _, some n => .ok n
  | .real x, none => if x.isAbove 0 || x = .nan then .error .notBound else .ok 0
  | v, none => .error (.notOrdered "<=" v.kind .int)

/-- How many items are kept at most, if there is a limit. A fraction of an item is not kept. -/
def retention (v : Json) : Except ConversionError (Option Int) :=
  match v, v.integer? with
  | .null, _ => .ok none
  | _, some n => .ok (some n)
  | .real x, none =>
    if x.isBelow 1 then .ok (some 0) else .ok x.truncate.toOption
  | v, none => .error (.notOrdered "<" v.kind .int)

/-- An integer that a field of a state holds. -/
def whole (field : String) (v : Json) : Except ConversionError Int :=
  match v.integer? with
  | some n => .ok n
  | none => .error (.notField field v.kind)

/-- A text with which something is done. -/
def textFor (operation : String) : Json → Except ConversionError Text
  | .str s => .ok s
  | v => .error (.noOperation v.kind operation)

/-- The fields of an object with which something is done. -/
def fieldsFor (operation : String) : Json → Except ConversionError Fields
  | .obj fields => .ok fields
  | v => .error (.noOperation v.kind operation)

/-- The fields of an object with which something is done, unless there is nothing. -/
def fieldsIfAny (operation : String) (v : Json) : Except ConversionError Fields :=
  if v.truth then v.fieldsFor operation else .ok []

/-- Whether a character is in a value: among the characters of a text, the items of an array or the
names of an object. -/
def holds (c : Char) : Json → Except ConversionError Bool
  | .str s => .ok (s.contains (.char c))
  | .arr items => .ok (items.any fun v => match v with | .str s => s == [.char c] | _ => false)
  | .obj fields => .ok (fields.any (·.1 == [.char c]))
  | v => .error (.notContainer v.kind)

/-- A JSON text. -/
def document : Json → Except ConversionError Text
  | .str s => .ok s
  | v => .error (.notDocument v.kind)

end Json
end LadderLogic
