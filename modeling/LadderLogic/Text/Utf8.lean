import LadderLogic.Text.Hex

/-!
# UTF-8

Decodes bytes one at a time. Between two characters nothing is pending; behind the first byte of a
longer character the machine knows how many bytes are owed and in which range the next one must lie,
which leaves out the long forms, the surrogate halves and everything above U+10FFFF.

Source: the bytes of `load_project` and `save_project` (section 6 of the specification).
-/

namespace LadderLogic
namespace Utf8

/-- What is wrong with some bytes. -/
inductive Reason where
  | badStart
  | badContinuation
  | unexpectedEnd
  deriving DecidableEq, Repr

/-- The wording of a reason. -/
def Reason.message : Reason → Text
  | .badStart => "invalid start byte"
  | .badContinuation => "invalid continuation byte"
  | .unexpectedEnd => "unexpected end of data"

/-- A fault: the bytes of the spoiled character that are right so far, by their position, their
number and the first of them. -/
structure Fault where
  reason : Reason
  position : Nat
  length : Nat
  first : UInt8
  deriving DecidableEq, Repr

/-- The wording of a fault. -/
def Fault.message (f : Fault) : Text :=
  let place : Text :=
    if f.length = 1 then
      "byte 0x" ++ Text.hexDigits 2 f.first.toNat ++ s!" in position {f.position}"
    else s!"bytes in position {f.position}-{f.position + f.length - 1}"
  "'utf-8' codec can't decode " ++ place ++ ": " ++ f.reason.message

/-- A character of which some bytes are still owed. -/
structure Pending where
  position : Nat
  first : UInt8
  seen : Nat
  owed : Nat
  low : Nat
  high : Nat
  code : Nat
  deriving DecidableEq, Repr

/-- The fault that a pending character ends with. -/
def Pending.fault (p : Pending) (reason : Reason) : Fault :=
  { reason, position := p.position, length := p.seen, first := p.first }

/-- What is pending behind the first byte of a character of two bytes or more. -/
def lead? (position : Nat) (first : UInt8) : Option Pending :=
  let b := first.toNat
  let pending (owed low high code : Nat) : Option Pending :=
    some { position, first, seen := 1, owed, low, high, code }
  if b < 0xC2 then none
  else if b < 0xE0 then pending 1 0x80 0xBF (b - 0xC0)
  else if b = 0xE0 then pending 2 0xA0 0xBF 0
  else if b = 0xED then pending 2 0x80 0x9F 0xD
  else if b < 0xF0 then pending 2 0x80 0xBF (b - 0xE0)
  else if b = 0xF0 then pending 3 0x90 0xBF 0
  else if b < 0xF4 then pending 3 0x80 0xBF (b - 0xF0)
  else if b = 0xF4 then pending 3 0x80 0x8F 4
  else none

/-- A character in front of what was decoded behind it. -/
def consOk (c : Char) : Except Fault Text → Except Fault Text
  | .ok text => .ok (c :: text)
  | .error f => .error f

/-- Decodes bytes from a position on, behind what is pending. -/
def decodeFrom : Nat → Option Pending → List UInt8 → Except Fault Text
  | _, none, [] => .ok []
  | _, some p, [] => .error (p.fault .unexpectedEnd)
  | n, none, b :: rest =>
    if b.toNat < 0x80 then consOk (Char.ofNat b.toNat) (decodeFrom (n + 1) none rest)
    else match lead? n b with
      | some p => decodeFrom (n + 1) (some p) rest
      | none => .error { reason := .badStart, position := n, length := 1, first := b }
  | n, some p, b :: rest =>
    if p.low ≤ b.toNat && b.toNat ≤ p.high then
      let code := 64 * p.code + b.toNat % 64
      if p.owed ≤ 1 then consOk (Char.ofNat code) (decodeFrom (n + 1) none rest)
      else
        let p := { p with seen := p.seen + 1, owed := p.owed - 1, low := 0x80, high := 0xBF, code }
        decodeFrom (n + 1) (some p) rest
    else .error (p.fault .badContinuation)

/-- Decodes bytes. -/
def decode (bytes : List UInt8) : Except Fault Text := decodeFrom 0 none bytes

/-- The bytes of a code point. Those of a half are not read back. -/
def encodePoint : CodePoint → List UInt8
  | .char c => String.utf8EncodeChar c
  | .half n => [0xED, UInt8.ofNat (0xA0 + n / 64), UInt8.ofNat (0x80 + n % 64)]

/-- Encodes a text. -/
def encode (text : Text) : List UInt8 := text.flatMap encodePoint

end Utf8
end LadderLogic
