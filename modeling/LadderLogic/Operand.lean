import LadderLogic.Number.Numeral
import LadderLogic.Text.Lines

/-!
# Operands

An operand is a literal or names a register. `K5`, `K-5` and `K+5` are literals, and so are `5` and
`-5`; a line feed may stand behind each. Every other token, the empty one apart, is the name of a
register. Timer presets are counted in units of 100 ms.

Source: `resolve_operand` and `preset_ms` (section 4.2 of the specification).
-/

namespace LadderLogic

/-- What a token of an instruction stands for. -/
inductive Operand where
  | absent
  | literal (negative : Bool) (digits : List Nat)
  | register (name : Text)
  deriving DecidableEq, Repr

namespace Operand

/-- A literal with a `K` in front, with or without a sign. -/
def constant? : Text → Option Operand
  | .char 'K' :: rest =>
    let (negative, digits) := Numeral.splitSign rest
    (Text.digits? digits).map (.literal negative)
  | _ => none

/-- A plain literal, with or without a minus sign. -/
def plain? : Text → Option Operand
  | .char '-' :: digits => (Text.digits? digits).map (.literal true)
  | digits => (Text.digits? digits).map (.literal false)

/-- The operand that a token stands for. -/
def ofToken (token : Text) : Operand :=
  if token.isEmpty then .absent
  else
    let body := Text.chomp token
    ((constant? body).or (plain? body)).getD (.register token)

/-- The value of an operand, where `registers` gives the values of the registers. A literal fails if
it has too many digits. -/
def value (registers : Text → Int) : Operand → Except Numeral.Fault Int
  | .absent => .ok 0
  | .literal negative digits => Numeral.ofLiteral negative digits
  | .register name => .ok (registers name)

/-- The value of a token. -/
def resolve (registers : Text → Int) (token : Text) : Except Numeral.Fault Int :=
  (ofToken token).value registers

/-- The milliseconds in a unit of a timer preset. -/
def presetUnit : Int := 100

end Operand
end LadderLogic
