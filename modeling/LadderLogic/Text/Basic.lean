/-!
# Texts

A text is a list of code points. A code point is a character, or a half of a surrogate pair that
stands alone: an escape in a JSON text can name such a half, and it is kept as it is. Code points are
ordered by their numbers, which makes texts keys of ordered tables.

Source: the texts of instructions, listings and projects (sections 3 and 6 of the specification).
-/

namespace LadderLogic

/-- A code point: a character, or the half U+D800 + `n` of a surrogate pair that stands alone. -/
inductive CodePoint where
  | char (c : Char)
  | half (n : Fin 2048)
  deriving DecidableEq, Repr

namespace CodePoint

instance : Coe Char CodePoint := ⟨.char⟩

/-- The number of a code point. -/
def toNat : CodePoint → Nat
  | .char c => c.toNat
  | .half n => 0xD800 + n

/-- The code point with a number. -/
def ofNat (n : Nat) : CodePoint :=
  if h : 0xD800 ≤ n ∧ n < 0xE000 then .half ⟨n - 0xD800, by omega⟩ else .char (Char.ofNat n)

/-- Whether a code point is one of the ASCII digits. -/
def isDigit (p : CodePoint) : Bool := 48 ≤ p.toNat && p.toNat ≤ 57

/-- No character has the number of a half. -/
theorem toNat_char_ne_half (c : Char) (n : Fin 2048) : (char c).toNat ≠ (half n).toNat := by
  have hc : c.toNat < 0xD800 ∨ 0xDFFF < c.toNat ∧ c.toNat < 0x110000 := c.valid
  have hn := n.isLt
  simp only [toNat]
  omega

/-- A code point is known by its number. -/
theorem toNat_inj {a b : CodePoint} (h : a.toNat = b.toNat) : a = b := by
  match a, b with
  | .char c, .char d => rw [Char.toNat_inj.1 h]
  | .char c, .half n => exact absurd h (toNat_char_ne_half c n)
  | .half n, .char c => exact absurd h.symm (toNat_char_ne_half c n)
  | .half m, .half n =>
    simp only [toNat] at h
    exact congrArg half (Fin.ext (by omega))

instance : Ord CodePoint := ⟨compareOn toNat⟩

instance : Std.TransOrd CodePoint := inferInstanceAs (Std.TransCmp (compareOn toNat))

instance : Std.LawfulEqOrd CodePoint where
  compare_self := Std.ReflOrd.compare_self
  eq_of_compare h := toNat_inj (Std.LawfulEqOrd.eq_of_compare h)

end CodePoint

/-- A text: its code points, in order. -/
abbrev Text := List CodePoint

namespace Text

/-- The text with the given characters. -/
def ofString (s : String) : Text := s.toList.map .char

instance : Coe String Text := ⟨ofString⟩

/-- The text of an integer, in decimal digits. -/
def ofInt (n : Int) : Text := if n < 0 then '-' :: ofString (Nat.repr n.natAbs) else Nat.repr n.natAbs

/-- The characters of a text that has no half in it. -/
def toString? (text : Text) : Option String :=
  let char? : CodePoint → Option Char
    | .char c => some c
    | .half _ => none
  (text.mapM char?).map String.ofList

end Text
end LadderLogic
