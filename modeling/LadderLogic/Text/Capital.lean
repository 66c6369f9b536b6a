import LadderLogic.Text.Basic

/-!
# Capitals

Names of opcodes are compared in capitals. Unicode gives ten characters outside ASCII a capital form
of ASCII letters, some of two or three letters; every other character outside ASCII has a capital
outside ASCII, or none. Since the names hold ASCII letters only, such a character is left as it is.

Source: the comparison of names in `Opcode.parse`, where case does not count (section 6 of the
specification).
-/

namespace LadderLogic
namespace Text

/-- The capital form of a code point, as far as it is ASCII. -/
def capital (c : CodePoint) : Text :=
  if 97 ≤ c.toNat && c.toNat ≤ 122 then [.ofNat (c.toNat - 32)]
  else match c.toNat with
    | 0xDF => ['S', 'S']
    | 0x131 => ['I']
    | 0x17F => ['S']
    | 0xFB00 => ['F', 'F']
    | 0xFB01 => ['F', 'I']
    | 0xFB02 => ['F', 'L']
    | 0xFB03 => ['F', 'F', 'I']
    | 0xFB04 => ['F', 'F', 'L']
    | 0xFB05 => ['S', 'T']
    | 0xFB06 => ['S', 'T']
    | _ => [c]

/-- A text in capitals. -/
def capitals (text : Text) : Text := text.flatMap capital

@[simp]
theorem capitals_nil : capitals [] = [] := rfl

@[simp]
theorem capitals_cons (c : CodePoint) (text : Text) :
    capitals (c :: text) = capital c ++ capitals text := rfl

end Text
end LadderLogic
