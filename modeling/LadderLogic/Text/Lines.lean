import LadderLogic.Text.Basic

/-!
# Lines

The lines of a text, without their ends. A line ends at a line feed, a carriage return, both
together, a vertical tab, a form feed, one of the separators U+001C to U+001E, U+0085, U+2028 or
U+2029. A text that ends with a line end has no further, empty line behind it.

Source: the lines of `parse_mnemonic` and of a project file (section 6 of the specification).
-/

namespace LadderLogic
namespace Text

/-- The code points that end a line. -/
def isLineEnd (c : CodePoint) : Bool :=
  let n := c.toNat
  (10 ≤ n && n ≤ 13) || (28 ≤ n && n ≤ 30) || n == 0x85 || n == 0x2028 || n == 0x2029

/-- The lines of a text, in order. -/
def lines : Text → List Text
  | [] => []
  | .char '\r' :: .char '\n' :: rest => [] :: lines rest
  | c :: rest =>
    if isLineEnd c then [] :: lines rest
    else match lines rest with
      | [] => [[c]]
      | l :: ls => (c :: l) :: ls

theorem lines_cons_of_not_isLineEnd {c : CodePoint} (h : isLineEnd c = false) {rest l : Text}
    {ls : List Text} (hrest : lines rest = l :: ls) : lines (c :: rest) = (c :: l) :: ls := by
  have hne : c ≠ .char '\r' := by
    rintro rfl
    cases h
  rw [lines]
  · rw [h, hrest]
    rfl
  · exact fun _ he => absurd he hne

/-- A line feed ends a line. -/
theorem lines_append_lineFeed {l : Text} (h : ∀ c ∈ l, isLineEnd c = false) (rest : Text) :
    lines (l ++ .char '\n' :: rest) = l :: lines rest := by
  induction l with
  | nil =>
    rw [List.nil_append, lines]
    · rfl
    · exact fun _ he => by cases he
  | cons c l ih =>
    exact lines_cons_of_not_isLineEnd (h c List.mem_cons_self)
      (ih fun d hd => h d (List.mem_cons_of_mem c hd))

/-- The text without one line feed at its end. -/
def chomp (text : Text) : Text :=
  if text.getLast? = some (.char '\n') then text.dropLast else text

/-- The text with each carriage return, and each one with a line feed behind it, as a line feed. -/
def unifyLineEnds : Text → Text
  | [] => []
  | .char '\r' :: .char '\n' :: rest => .char '\n' :: unifyLineEnds rest
  | .char '\r' :: rest => .char '\n' :: unifyLineEnds rest
  | c :: rest => c :: unifyLineEnds rest

end Text
end LadderLogic
