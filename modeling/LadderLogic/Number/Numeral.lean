import LadderLogic.Text.Blank
import LadderLogic.Text.Digit
import LadderLogic.Text.Quoted

/-!
# Numerals

An integer in a text: decimal digits of any script, a sign in front, single underscores between
digits, blanks around it. Reading and writing stop at `digitLimit` digits, leading zeros included.

Source: the integers of `resolve_operand` and `Instruction.from_dict` (sections 3 and 4.2 of the
specification).
-/

namespace LadderLogic
namespace Numeral

/-- The most digits a numeral may have. -/
def digitLimit : Nat := 4300

/-- Why an integer cannot be read from a text or written as one. -/
inductive Fault where
  /-- The text is no numeral. -/
  | malformed (text : Text)
  /-- The numeral has too many digits. -/
  | overlong (digits : Nat)
  /-- The integer has too many digits. -/
  | unwritable
  deriving DecidableEq, Repr

/-- The wording of a fault. Of a malformed text at most 200 code points of its quoted form show. -/
def Fault.message : Fault → Text
  | .malformed text => "invalid literal for int() with base 10: " ++ (Text.quoted text).take 200
  | .overlong digits =>
    s!"Exceeds the limit ({digitLimit} digits) for integer string conversion: " ++
      s!"value has {digits} digits; use sys.set_int_max_str_digits() to increase the limit"
  | .unwritable =>
    s!"Exceeds the limit ({digitLimit} digits) for integer string conversion; " ++
      "use sys.set_int_max_str_digits() to increase the limit"

/-- The number with the given decimal digits, the most significant first. -/
def ofDigits (digits : List Nat) : Nat :=
  digits.foldl (fun n d => 10 * n + d) 0

/-- A number with a sign. -/
def signed (negative : Bool) (n : Nat) : Int :=
  if negative then -n else n

/-- The integer with the given sign and digits, if there are not too many. -/
def ofLiteral (negative : Bool) (digits : List Nat) : Except Fault Int :=
  if digitLimit < digits.length then .error (.overlong digits.length)
  else .ok (signed negative (ofDigits digits))

/-- Whether a text starts with a minus sign, and the text behind its sign. -/
def splitSign : Text → Bool × Text
  | .char '-' :: rest => (true, rest)
  | .char '+' :: rest => (false, rest)
  | rest => (false, rest)

/-- The digits of a text in which single underscores may stand between two digits. -/
def grouped? : Text → Option (List Nat)
  | [] => none
  | c :: rest =>
    (Text.digit? c).bind fun d =>
      match rest with
      | [] => some [d]
      | .char '_' :: rest => (grouped? rest).map (d :: ·)
      | rest => (grouped? rest).map (d :: ·)

/-- The blanks that may stand around a numeral. -/
def isPadding (c : CodePoint) : Bool :=
  Text.isBlank c && !(28 ≤ c.toNat && c.toNat ≤ 31)

/-- The code points that a numeral's digits are written with. -/
def isFigure (c : CodePoint) : Bool :=
  c == .char '_' || (Text.digit? c).isSome

/-- Reads a text as an integer. Too many digits are reported even if the text goes on behind them
with something that is no numeral. -/
def read (text : Text) : Except Fault Int :=
  let (negative, body) := splitSign (text.dropWhile isPadding)
  match grouped? (body.takeWhile isFigure) with
  | none => .error (.malformed text)
  | some digits =>
    match ofLiteral negative digits with
    | .error fault => .error fault
    | .ok n =>
      if (body.dropWhile isFigure).all isPadding then .ok n else .error (.malformed text)

/-- Writes an integer in decimal digits, with a minus sign if it is negative. -/
def write (n : Int) : Except Fault Text :=
  if digitLimit < (Nat.repr n.natAbs).length then .error .unwritable else .ok (.ofInt n)

end Numeral
end LadderLogic
