import LadderLogic.Number.Numeral
import Mathlib.Data.List.Basic

/-!
# Decimal texts

The text of an integer is its decimal digits, the most significant first, with a minus sign in front
of a negative one. The digits make the number again (`ofDigits_ofNat`), so an integer is known by its
text (`ofInt_inj`).

Source: the ids in the edge keys of pulse moves (section 3 of the specification).
-/

namespace LadderLogic
namespace Text

/-- The decimal digits of a number. -/
def ofNat (n : Nat) : Text := (Nat.toDigits 10 n).map .char

theorem ofString_repr (n : Nat) : ofString (Nat.repr n) = ofNat n := by
  rw [ofString, Nat.repr_eq_ofList_toDigits, String.toList_ofList, ofNat]

theorem length_ofNat (n : Nat) : (ofNat n).length = (Nat.repr n).length := by
  rw [← ofString_repr, ofString, List.length_map, String.length_toList]

theorem ofNat_ne_nil (n : Nat) : ofNat n ≠ [] := fun h =>
  Nat.toDigits_ne_nil (List.map_eq_nil_iff.1 h)

theorem isDigit_of_mem_ofNat {n : Nat} {c : CodePoint} (h : c ∈ ofNat n) : c.isDigit = true := by
  obtain ⟨d, hd, rfl⟩ := List.mem_map.1 h
  have hdigit : d.isDigit = true := Nat.isDigit_of_mem_toDigits (by decide) (by decide) hd
  simp only [Char.isDigit, Bool.and_eq_true, decide_eq_true_eq, ge_iff_le,
    UInt32.le_iff_toNat_le] at hdigit
  simp only [CodePoint.isDigit, Bool.and_eq_true, decide_eq_true_eq]
  exact hdigit

theorem ofInt_of_nonneg {n : Int} (h : 0 ≤ n) : ofInt n = ofNat n.natAbs := by
  rw [ofInt, if_neg (Int.not_lt.2 h), ofString_repr]

theorem ofInt_of_neg {n : Int} (h : n < 0) : ofInt n = .char '-' :: ofNat n.natAbs := by
  rw [ofInt, if_pos h, ofString_repr]

/-- The digits of a number make it again. -/
theorem ofDigits_ofNat (n : Nat) : Numeral.ofDigits ((ofNat n).map fun c => c.toNat - 48) = n := by
  rw [Numeral.ofDigits, ofNat, List.map_map, List.foldl_map]
  refine Eq.trans ?_ (Nat.ofDigitChars_ten_toDigits (n := n))
  rw [Nat.ofDigitChars_eq_foldl]
  rfl

/-- Only zero starts with a zero. -/
theorem head?_ofNat {n : Nat} (h : 0 < n) : (ofNat n).head? ≠ some (.char '0') := by
  induction n using Nat.strongRecOn with
  | ind n ih =>
    rw [ofNat, Nat.toDigits_eq_if (by decide)]
    split
    · next hn =>
      have hne : ∀ k < 10, 0 < k → k.digitChar ≠ '0' := by decide
      simpa using hne n hn h
    · next hn =>
      have hdiv : (ofNat (n / 10)).head? ≠ some (.char '0') := ih (n / 10) (by omega) (by omega)
      rw [List.map_append, ← ofNat, List.head?_append_of_ne_nil _ (ofNat_ne_nil (n / 10))]
      exact hdiv

theorem ofNat_inj {m n : Nat} (h : ofNat m = ofNat n) : m = n := by
  rw [← ofDigits_ofNat m, h, ofDigits_ofNat]

/-- An integer is known by its text. -/
theorem ofInt_inj {m n : Int} (h : ofInt m = ofInt n) : m = n := by
  have hminus (k : Nat) : .char '-' ∉ ofNat k := fun hm => by
    cases isDigit_of_mem_ofNat hm
  rcases Int.lt_or_le m 0 with hm | hm <;> rcases Int.lt_or_le n 0 with hn | hn
  · rw [ofInt_of_neg hm, ofInt_of_neg hn] at h
    have := ofNat_inj (List.cons.inj h).2
    omega
  · rw [ofInt_of_neg hm, ofInt_of_nonneg hn] at h
    exact absurd (h ▸ List.mem_cons_self) (hminus n.natAbs)
  · rw [ofInt_of_nonneg hm, ofInt_of_neg hn] at h
    exact absurd (h ▸ List.mem_cons_self) (hminus m.natAbs)
  · rw [ofInt_of_nonneg hm, ofInt_of_nonneg hn] at h
    have := ofNat_inj h
    omega

end Text
end LadderLogic
