import LadderLogic.Text.Basic

/-!
# Blanks and words

A blank is a code point with the Unicode property `White_Space`, or one of the four separators
U+001C to U+001F. The words of a text are what is left between its blanks. Main statement: a blank
cuts the words of a text in two (`words_append_blank`), and everything else follows from it.

Source: the whitespace tokens of `parse_line`, and the line ends of `GridFormatter.format` (sections 2
and 6 of the specification).
-/

namespace LadderLogic
namespace Text

/-- The blank code points. -/
def isBlank (c : CodePoint) : Bool :=
  let n := c.toNat
  (9 ≤ n && n ≤ 13) || (28 ≤ n && n ≤ 32) || n == 0x85 || n == 0xA0 || n == 0x1680 ||
    (0x2000 ≤ n && n ≤ 0x200A) || n == 0x2028 || n == 0x2029 || n == 0x202F || n == 0x205F ||
    n == 0x3000

/-- The text without the blanks at its end. -/
def trimEnd (text : Text) : Text :=
  (text.reverse.dropWhile isBlank).reverse

/-- Puts `c` in front of the first piece. -/
def growFirst (c : CodePoint) : List Text → List Text
  | [] => [[c]]
  | w :: ws => (c :: w) :: ws

/-- The text cut at each blank. Two blanks in a row have an empty piece between them. -/
def pieces : Text → List Text
  | [] => [[]]
  | c :: rest => if isBlank c then [] :: pieces rest else growFirst c (pieces rest)

/-- The words of a text, in order. -/
def words (text : Text) : List Text :=
  (pieces text).filter (! ·.isEmpty)

theorem pieces_ne_nil (text : Text) : pieces text ≠ [] := by
  cases text with
  | nil => simp [pieces]
  | cons c rest =>
    rw [pieces]
    split
    · simp
    · cases pieces rest <;> simp [growFirst]

theorem growFirst_append (c : CodePoint) {p : List Text} (h : p ≠ []) (q : List Text) :
    growFirst c (p ++ q) = growFirst c p ++ q := by
  cases p with
  | nil => exact absurd rfl h
  | cons w ws => rfl

theorem pieces_append_blank {c : CodePoint} (h : isBlank c = true) (x y : Text) :
    pieces (x ++ c :: y) = pieces x ++ pieces y := by
  induction x with
  | nil => simp [pieces, h]
  | cons d x ih =>
    rw [List.cons_append, pieces, pieces, ih]
    split
    · rfl
    · exact growFirst_append d (pieces_ne_nil x) _

/-- **A blank cuts the words of a text in two.** -/
theorem words_append_blank {c : CodePoint} (h : isBlank c = true) (x y : Text) :
    words (x ++ c :: y) = words x ++ words y := by
  simp [words, pieces_append_blank h]

@[simp]
theorem words_nil : words [] = [] := rfl

theorem pieces_of_no_blank {text : Text} (h : ∀ c ∈ text, isBlank c = false) :
    pieces text = [text] := by
  induction text with
  | nil => rfl
  | cons c rest ih =>
    have hc : isBlank c = false := h c List.mem_cons_self
    have hrest : pieces rest = [rest] := ih fun d hd => h d (List.mem_cons_of_mem c hd)
    rw [pieces, hc, hrest]
    rfl

/-- A text without blanks is one word. -/
theorem words_of_no_blank {text : Text} (hne : text ≠ []) (h : ∀ c ∈ text, isBlank c = false) :
    words text = [text] := by
  rw [words, pieces_of_no_blank h]
  simp [hne]

theorem not_isBlank_of_mem_pieces {text w : Text} (hw : w ∈ pieces text) {c : CodePoint}
    (hc : c ∈ w) : isBlank c = false := by
  induction text generalizing w with
  | nil =>
    rw [List.mem_singleton.1 hw] at hc
    cases hc
  | cons d rest ih =>
    rw [pieces] at hw
    split at hw
    · rcases List.mem_cons.1 hw with rfl | hw
      · cases hc
      · exact ih hw hc
    · next hd =>
      obtain ⟨v, vs, hv⟩ := List.exists_cons_of_ne_nil (pieces_ne_nil rest)
      rw [hv, growFirst] at hw
      rw [hv] at ih
      rcases List.mem_cons.1 hw with rfl | hw
      · rcases List.mem_cons.1 hc with rfl | hc
        · simpa using hd
        · exact ih List.mem_cons_self hc
      · exact ih (List.mem_cons_of_mem v hw) hc

/-- No word holds a blank. -/
theorem not_isBlank_of_mem_words {text w : Text} (hw : w ∈ words text) {c : CodePoint}
    (hc : c ∈ w) : isBlank c = false :=
  not_isBlank_of_mem_pieces (List.mem_filter.1 hw).1 hc

/-- No word is empty. -/
theorem ne_nil_of_mem_words {text w : Text} (h : w ∈ words text) : w ≠ [] := by
  simpa using (List.mem_filter.1 h).2

end Text
end LadderLogic
