import LadderLogic.Json.Reader
import LadderLogic.Json.Writer

/-!
# Strings in JSON texts

What the writer makes of a string, the reader takes for that string again (`string_written`). The
writer works on one code point at a time, but the reader cannot: it must see two codes before it knows
whether they are the halves of one character. So the reader finds pieces first, and a text that
`Spells` a code point is one whose pieces make that code point whatever comes behind them. Two halves
that stand alone side by side are written like a character of both, which is why this holds of
characters only.

Source: the texts of `dump_project` and `loads_project` (section 6 of the specification).
-/

namespace LadderLogic

/-- Whether a code point is a character. -/
def CodePoint.isScalar : CodePoint → Bool
  | .char _ => true
  | .half _ => false

/-- All code points of a text are characters. -/
def Text.IsScalar (text : Text) : Prop := ∀ p ∈ text, p.isScalar = true

instance (text : Text) : Decidable text.IsScalar :=
  inferInstanceAs (Decidable (∀ p ∈ text, p.isScalar = true))

/-- A code point is a line feed or a printable character of ASCII. -/
def CodePoint.IsPrinted (p : CodePoint) : Prop := p = .char '\n' ∨ 32 ≤ p.toNat ∧ p.toNat ≤ 126

instance : DecidablePred CodePoint.IsPrinted :=
  fun p => inferInstanceAs (Decidable (p = .char '\n' ∨ 32 ≤ p.toNat ∧ p.toNat ≤ 126))

theorem CodePoint.ofNat_toNat_char (c : Char) : ofNat (char c).toNat = .char c := by
  have hc : c.toNat < 0xD800 ∨ 0xDFFF < c.toNat ∧ c.toNat < 0x110000 := c.valid
  have hnot : ¬(0xD800 ≤ c.toNat ∧ c.toNat < 0xE000) := by omega
  rw [ofNat, toNat, dif_neg hnot, Char.ofNat_toNat]

namespace Json
namespace Reader

open Writer

/-! ## Pieces -/

/-- A text spells a code point in a string: the reader takes it for pieces that make this code point,
whatever comes behind it. -/
def Spells (t : Text) (p : CodePoint) : Prop :=
  ∃ pieces : List Piece,
    (∀ opening rest, rest ≠ [] →
      stringPieces opening (t ++ rest) = pieces.foldr consPiece (stringPieces opening rest)) ∧
    ∀ behind, ofPieces (pieces ++ behind) = p :: ofPieces behind

/-- A code that is no first half makes a code point by itself. -/
theorem ofPieces_code {n : Nat} (h : isHighHalf n = false) (rest : List Piece) :
    ofPieces (.code n :: rest) = .ofNat n :: ofPieces rest := by
  cases rest with
  | nil => rfl
  | cons piece rest =>
    cases piece with
    | point p => rfl
    | code m => simp [ofPieces, h]

theorem spells_escape {c : CodePoint} {e : Char} (h : escape? c = some e) :
    Spells [.char '\\', c] (.char e) := by
  refine ⟨[.point (.char e)], fun opening rest _ => ?_, fun _ => rfl⟩
  have hu : c ≠ .char 'u' := by
    rintro rfl
    cases h
  simp [stringPieces, hu, h]

theorem spells_self {c : Char} (hq : c ≠ '"') (hb : c ≠ '\\') (h : 32 ≤ c.toNat) :
    Spells [.char c] (.char c) := by
  refine ⟨[.point (.char c)], fun opening rest _ => ?_, fun _ => rfl⟩
  have hcontrol : ¬(CodePoint.char c).toNat ≤ 0x1F := Nat.not_le.2 h
  simp [stringPieces, hq, hb, hcontrol]

/-! ## Codes -/

theorem hexValue?_digitChar {d : Nat} (h : d < 16) :
    Text.hexValue? (.char (Nat.digitChar d)) = some d := by
  have all : ∀ d < 16, Text.hexValue? (.char (Nat.digitChar d)) = some d := by decide
  exact all d h

/-- The reader takes four digits for the code they were written for. -/
theorem stringPieces_codeEscape {n : Nat} (h : n < 0x10000) (opening : Text) {rest : Text}
    (hrest : rest ≠ []) :
    stringPieces opening (codeEscape n ++ rest) =
      consPiece (.code n) (stringPieces opening rest) := by
  have hcode : code? (.char (Nat.digitChar (n / 16 / 16 / 16 % 16)))
      (.char (Nat.digitChar (n / 16 / 16 % 16))) (.char (Nat.digitChar (n / 16 % 16)))
      (.char (Nat.digitChar (n % 16))) = some n := by
    simp only [code?, hexValue?_digitChar (Nat.mod_lt _ (by decide : 16 > 0)), Option.some.injEq]
    omega
  have hempty : rest.isEmpty = false := List.isEmpty_eq_false_iff.2 hrest
  simp [codeEscape, Text.hexDigits, stringPieces, hcode, hempty]

theorem spells_codeEscape {c : Char} (h : c.toNat < 0x10000) :
    Spells (codeEscape c.toNat) (.char c) := by
  have hc : c.toNat < 0xD800 ∨ 0xDFFF < c.toNat ∧ c.toNat < 0x110000 := c.valid
  have hhalf : isHighHalf c.toNat = false := by
    simp only [isHighHalf, Bool.and_eq_false_iff, decide_eq_false_iff_not]
    omega
  refine ⟨[.code c.toNat], fun opening rest => stringPieces_codeEscape h opening, fun behind => ?_⟩
  rw [List.singleton_append, ofPieces_code hhalf]
  exact congrArg (· :: _) (CodePoint.ofNat_toNat_char c)

/-- The codes of a first and a second half spell one character. -/
theorem spells_halves {high low : Nat} (hhigh : isHighHalf high = true) (hlow : isLowHalf low = true) :
    Spells (codeEscape high ++ codeEscape low) (.char (ofHalves high low)) := by
  have hsmall : high < 0x10000 ∧ low < 0x10000 := by
    simp only [isHighHalf, isLowHalf, Bool.and_eq_true, decide_eq_true_eq] at hhigh hlow
    omega
  refine ⟨[.code high, .code low], fun opening rest hrest => ?_, fun behind => ?_⟩
  · rw [List.append_assoc, stringPieces_codeEscape hsmall.1 opening (by simp [codeEscape]),
      stringPieces_codeEscape hsmall.2 opening hrest]
    rfl
  · rw [List.cons_append, List.singleton_append, ofPieces, hhigh, hlow]
    rfl

/-- A character beyond U+FFFF is that of its two halves. -/
theorem spells_beyond {c : Char} (h : 0x10000 ≤ c.toNat) :
    Spells (codeEscape (0xD800 + (c.toNat - 0x10000) / 1024) ++
      codeEscape (0xDC00 + (c.toNat - 0x10000) % 1024)) (.char c) := by
  have hc : c.toNat < 0xD800 ∨ 0xDFFF < c.toNat ∧ c.toNat < 0x110000 := c.valid
  have hnumber : 0x10000 + (0xD800 + (c.toNat - 0x10000) / 1024 - 0xD800) * 1024 +
      (0xDC00 + (c.toNat - 0x10000) % 1024 - 0xDC00) = c.toNat := by omega
  have hhalves : ofHalves (0xD800 + (c.toNat - 0x10000) / 1024)
      (0xDC00 + (c.toNat - 0x10000) % 1024) = c := by
    rw [ofHalves, hnumber, Char.ofNat_toNat]
  have hhigh : isHighHalf (0xD800 + (c.toNat - 0x10000) / 1024) = true := by
    simp only [isHighHalf, Bool.and_eq_true, decide_eq_true_eq]
    omega
  have hlow : isLowHalf (0xDC00 + (c.toNat - 0x10000) % 1024) = true := by
    simp only [isLowHalf, Bool.and_eq_true, decide_eq_true_eq]
    omega
  have hspells := spells_halves hhigh hlow
  rwa [hhalves] at hspells

/-! ## Strings -/

/-- How a character is written: as an escape of one letter, as itself, as its code, or as the codes of
its two halves. -/
theorem writtenPoint_cases (c : Char) :
    (∃ e, escape? e = some c ∧ writtenPoint (.char c) = [.char '\\', e]) ∨
    (c ≠ '"' ∧ c ≠ '\\' ∧ 32 ≤ c.toNat ∧ c.toNat ≤ 126 ∧ writtenPoint (.char c) = [.char c]) ∨
    (c.toNat < 0x10000 ∧ writtenPoint (.char c) = codeEscape c.toNat) ∨
    (0x10000 ≤ c.toNat ∧ writtenPoint (.char c) =
      codeEscape (0xD800 + (c.toNat - 0x10000) / 1024) ++
        codeEscape (0xDC00 + (c.toNat - 0x10000) % 1024)) := by
  by_cases hescape : c ∈ ['"', '\\', '\n', '\r', '\t', '\x0c', '\x08']
  · refine .inl ?_
    simp only [List.mem_cons, List.not_mem_nil, or_false] at hescape
    rcases hescape with rfl | rfl | rfl | rfl | rfl | rfl | rfl
    · exact ⟨.char '"', rfl, rfl⟩
    · exact ⟨.char '\\', rfl, rfl⟩
    · exact ⟨.char 'n', rfl, rfl⟩
    · exact ⟨.char 'r', rfl, rfl⟩
    · exact ⟨.char 't', rfl, rfl⟩
    · exact ⟨.char 'f', rfl, rfl⟩
    · exact ⟨.char 'b', rfl, rfl⟩
  · refine .inr ?_
    simp only [List.mem_cons, List.not_mem_nil, or_false, not_or] at hescape
    obtain ⟨hquote, hbackslash, hn, hr, ht, hf, hb⟩ := hescape
    simp only [writtenPoint, CodePoint.char.injEq, hquote, hbackslash, hn, hr, ht, hf, hb, if_false]
    split
    · next h =>
      simp only [Bool.and_eq_true, decide_eq_true_eq] at h
      exact .inl ⟨hquote, hbackslash, h.1, h.2, rfl⟩
    · split
      · next h => exact .inr (.inl ⟨h, rfl⟩)
      · next h => exact .inr (.inr ⟨Nat.not_lt.1 h, rfl⟩)

/-- The writer spells every character. -/
theorem spells_writtenPoint (c : Char) : Spells (writtenPoint (.char c)) (.char c) := by
  rcases writtenPoint_cases c with ⟨e, he, hw⟩ | ⟨hquote, hbackslash, h, -, hw⟩ | ⟨h, hw⟩ | ⟨h, hw⟩
  · rw [hw]
    exact spells_escape he
  · rw [hw]
    exact spells_self hquote hbackslash h
  · rw [hw]
    exact spells_codeEscape h
  · rw [hw]
    exact spells_beyond h

theorem foldr_consPiece (front pieces : List Piece) (rest : Text) :
    front.foldr consPiece (.ok (pieces, rest)) = .ok (front ++ pieces, rest) := by
  induction front with
  | nil => rfl
  | cons piece front ih =>
    rw [List.foldr_cons, ih]
    rfl

/-- The reader finds the pieces of a written string up to its closing quote. -/
theorem exists_stringPieces {s : Text} (hs : s.IsScalar) (opening rest : Text) :
    ∃ pieces, stringPieces opening (s.flatMap writtenPoint ++ .char '"' :: rest) = .ok (pieces, rest) ∧
      ofPieces pieces = s := by
  induction s with
  | nil => exact ⟨[], rfl, rfl⟩
  | cons p s ih =>
    obtain ⟨pieces, hread, hmake⟩ := ih fun q hq => hs q (List.mem_cons_of_mem p hq)
    cases p with
    | half n => cases hs (.half n) List.mem_cons_self
    | char c =>
      obtain ⟨front, hfront, hc⟩ := spells_writtenPoint c
      refine ⟨front ++ pieces, ?_, by rw [hc, hmake]⟩
      rw [List.flatMap_cons, List.append_assoc, hfront opening _ (by simp), hread, foldr_consPiece]

/-- **A written string is read back.** -/
theorem string_written {s : Text} (hs : s.IsScalar) (rest : Text) :
    string (s.flatMap writtenPoint ++ .char '"' :: rest) = .ok (s, rest) := by
  obtain ⟨pieces, hread, hmake⟩ := exists_stringPieces hs
    (.char '"' :: (s.flatMap writtenPoint ++ .char '"' :: rest)) rest
  rw [string, hread, ← hmake]

end Reader

/-! ## Printed text -/

namespace Writer

theorem isPrinted_codeEscape (n : Nat) : ∀ p ∈ codeEscape n, p.IsPrinted := by
  have hdigit : ∀ d < 16, (CodePoint.char (Nat.digitChar d)).IsPrinted := by decide
  simp only [codeEscape, Text.hexDigits, List.nil_append, List.cons_append, List.forall_mem_cons]
  refine ⟨by decide, by decide, ?_, ?_, ?_, ?_, fun p hp => absurd hp List.not_mem_nil⟩ <;>
    exact hdigit _ (Nat.mod_lt _ (by decide))

theorem isPrinted_writtenPoint (c : Char) : ∀ p ∈ writtenPoint (.char c), p.IsPrinted := by
  rcases Reader.writtenPoint_cases c with ⟨e, he, hw⟩ | ⟨-, -, hlow, hhigh, hw⟩ | ⟨-, hw⟩ | ⟨-, hw⟩
  · have hletter : e.IsPrinted := by
      unfold Reader.escape? at he
      split at he
      case h_9 => cases he
      all_goals decide
    rw [hw]
    simp only [List.forall_mem_cons]
    exact ⟨by decide, hletter, fun p hp => absurd hp List.not_mem_nil⟩
  · rw [hw]
    simp only [List.forall_mem_singleton]
    exact .inr ⟨hlow, hhigh⟩
  · rw [hw]
    exact isPrinted_codeEscape _
  · rw [hw]
    exact List.forall_mem_append.2 ⟨isPrinted_codeEscape _, isPrinted_codeEscape _⟩

/-- A string is written in printed characters, whatever is in it. -/
theorem isPrinted_writtenString {s : Text} (hs : s.IsScalar) :
    ∀ p ∈ writtenString s, p.IsPrinted := by
  have hbody : ∀ p ∈ s.flatMap writtenPoint, p.IsPrinted := by
    intro p hp
    obtain ⟨q, hq, hp⟩ := List.mem_flatMap.1 hp
    cases q with
    | half n => cases hs (.half n) hq
    | char c => exact isPrinted_writtenPoint c p hp
  refine List.forall_mem_cons.2 ⟨by decide, List.forall_mem_append.2 ⟨hbody, ?_⟩⟩
  exact List.forall_mem_singleton.2 (by decide)

end Writer
end Json
end LadderLogic
