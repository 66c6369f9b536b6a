import LadderLogic.Text.Digit
import LadderLogic.Text.Lines

/-!
# Device families

A device belongs to the family that the letter of its address names: `T0` is a timer, `C3` a counter
and `D100` a data register. Every other name is a bit. The number of an address is one or more
decimal digits, and one line feed may stand behind it.

Source: `Namespace` and `namespace_of`, operand resolution in section 2 of the specification.
-/

namespace LadderLogic

/-- The families of devices. -/
inductive Family where
  | timer
  | counter
  | data
  | bit
  deriving DecidableEq, Repr

namespace Family

/-- Whether a name is an address with this letter. -/
def isAddress (letter : Char) (name : Text) : Bool :=
  match Text.chomp name with
  | c :: number => c == .char letter && (Text.digits? number).isSome
  | [] => false

/-- The family that a name belongs to. -/
def ofName (name : Text) : Family :=
  if isAddress 'T' name then .timer
  else if isAddress 'C' name then .counter
  else if isAddress 'D' name then .data
  else .bit

/-- The word for a family. -/
def word : Family → Text
  | .timer => "timer"
  | .counter => "counter"
  | .data => "data"
  | .bit => "bit"

end Family
end LadderLogic
