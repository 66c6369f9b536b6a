import LadderLogic.Text.Basic

/-!
# Hexadecimal digits

Numbers in base sixteen with a fixed number of digits, in small letters, the value of a digit, and
bytes written with two digits each.

Source: the escapes in the text of a persisted project (section 6 of the specification).
-/

namespace LadderLogic
namespace Text

/-- The last `width` hexadecimal digits of `n`. -/
def hexDigits : Nat → Nat → Text
  | 0, _ => []
  | width + 1, n => hexDigits width (n / 16) ++ [.char (Nat.digitChar (n % 16))]

/-- The value of a hexadecimal digit, in small or capital letters. -/
def hexValue? (c : CodePoint) : Option Nat :=
  let n := c.toNat
  if 48 ≤ n && n ≤ 57 then some (n - 48)
  else if 97 ≤ n && n ≤ 102 then some (n - 87)
  else if 65 ≤ n && n ≤ 70 then some (n - 55)
  else none

/-- Whether a code point may stand between two bytes: a blank, or one of the controls from the
horizontal tab to the carriage return. -/
def isByteGap (c : CodePoint) : Bool := c.toNat = 32 || (9 ≤ c.toNat && c.toNat ≤ 13)

/-- The bytes of a text that starts at a place, or the place of the first digit that is none. -/
def hexBytesFrom (place : Nat) : Text → Except Nat (List UInt8)
  | [] => .ok []
  | high :: rest =>
    if isByteGap high then hexBytesFrom (place + 1) rest
    else
      match hexValue? high, rest with
      | none, _ => .error place
      | some _, [] => .error (place + 1)
      | some h, low :: rest =>
        match hexValue? low with
        | none => .error (place + 1)
        | some l => (hexBytesFrom (place + 2) rest).map (UInt8.ofNat (16 * h + l) :: ·)

/-- The bytes of a text in hexadecimal digits. What is beyond ASCII is found before all else. -/
def hexBytes (text : Text) : Except Nat (List UInt8) :=
  match text.findIdx? (128 ≤ ·.toNat) with
  | some place => .error place
  | none => hexBytesFrom 0 text

@[simp]
theorem length_hexDigits (width n : Nat) : (hexDigits width n).length = width := by
  induction width generalizing n with
  | zero => rfl
  | succ width ih => simp [hexDigits, ih]

end Text
end LadderLogic
