import LadderLogic.Proofs.Canonical

/-!
# Comments behind an instruction

A comment may stand at the end of a line, behind a blank. The words of the line are then those in front
of the comment and those of the comment (`exists_words_comment`). Operands end where the comment starts
(`operands_append_comment`), and a comparator is not completed by it (`joinEqual_append_comment`), so a
comment behind an instruction changes nothing (`ofWords_append_of_some`). The search for the opcode goes
on into the comment, though. So a comment counts exactly if it names an opcode, and in front of it there
are words, but neither an opcode nor the start of a comment line (`parseLine_comment_iff`).

Source: `parse_line` (section 6 of the specification).
-/

namespace LadderLogic

/-! ## Words -/

theorem Text.pieces_append {front : Text} (h : ∀ c ∈ front, isBlank c = false) {rest w : Text}
    {ws : List Text} (hrest : pieces rest = w :: ws) : pieces (front ++ rest) = (front ++ w) :: ws := by
  induction front with
  | nil => exact hrest
  | cons c front ih =>
    obtain ⟨hc, hfront⟩ := List.forall_mem_cons.1 h
    rw [List.cons_append, pieces, hc, ih hfront]
    rfl

/-- The first word of a text starts with what stands in front of the first blank. -/
theorem Text.exists_words_append {front : Text} (hne : front ≠ []) (h : ∀ c ∈ front, isBlank c = false)
    (rest : Text) : ∃ w ws, words (front ++ rest) = (front ++ w) :: ws := by
  obtain ⟨w, ws, hw⟩ := List.exists_cons_of_ne_nil (pieces_ne_nil rest)
  refine ⟨w, ws.filter (! ·.isEmpty), ?_⟩
  rw [words, pieces_append h hw, List.filter_cons_of_pos]
  simp [hne]

namespace Listing

/-- The marks that start a comment behind an instruction. -/
def commentMarks : List Text := [['/', '/'], [';']]

theorem startsComment_append {mark : Text} (h : mark ∈ commentMarks) (rest : Text) :
    startsComment (mark ++ rest) = true := by
  simp only [commentMarks, List.mem_cons, List.not_mem_nil, or_false] at h
  rcases h with rfl | rfl <;> simp [startsComment]

/-- The words of a line with a comment: those in front of it, and those of the comment, the first of which
starts it. -/
theorem exists_words_comment {mark : Text} (h : mark ∈ commentMarks) (line comment : Text) :
    ∃ first rest, Text.words (mark ++ comment) = first :: rest ∧ startsComment first = true ∧
      Text.words (line ++ .char ' ' :: (mark ++ comment)) = Text.words line ++ first :: rest := by
  have hmark : mark ≠ [] ∧ ∀ c ∈ mark, Text.isBlank c = false := by
    revert mark
    decide
  obtain ⟨w, ws, hw⟩ := Text.exists_words_append hmark.1 hmark.2 comment
  exact ⟨mark ++ w, ws, hw, startsComment_append h w, by rw [Text.words_append_blank rfl, hw]⟩

/-! ## Reading -/

theorem findOpcode_eq_none_iff {words : List Text} :
    findOpcode words = none ↔ ∀ word ∈ words, opcode? word = none := by
  induction words with
  | nil => simp [findOpcode]
  | cons word words ih =>
    rw [findOpcode, List.forall_mem_cons, ← ih]
    cases opcode? word <;> simp

theorem findOpcode_append_of_some {words : List Text} {c : Opcode} {rest : List Text}
    (h : findOpcode words = some (c, rest)) (more : List Text) :
    findOpcode (words ++ more) = some (c, rest ++ more) := by
  induction words with
  | nil => cases h
  | cons word words ih =>
    rw [findOpcode] at h
    rw [List.cons_append, findOpcode]
    cases hword : opcode? word with
    | none =>
      rw [hword] at h
      exact ih h
    | some d =>
      rw [hword] at h
      obtain ⟨rfl, rfl⟩ := Prod.mk.inj (Option.some.inj h)
      rfl

theorem findOpcode_append_of_none {words : List Text} (h : findOpcode words = none)
    (more : List Text) : findOpcode (words ++ more) = findOpcode more := by
  induction words with
  | nil => rfl
  | cons word words ih =>
    rw [findOpcode] at h
    rw [List.cons_append, findOpcode]
    cases hword : opcode? word with
    | none =>
      rw [hword] at h
      exact ih h
    | some d =>
      rw [hword] at h
      cases h

theorem headD_append_of_ne_nil {words : List Text} (h : words ≠ []) (more : List Text) :
    (words ++ more).headD [] = words.headD [] := by
  obtain ⟨word, rest, rfl⟩ := List.exists_cons_of_ne_nil h
  rfl

section Comment

variable {first : Text} (hfirst : startsComment first = true) (rest : List Text)

include hfirst

/-- A word that starts a comment is no single `=`. -/
theorem joinEqual_append_comment (c : Opcode) (words : List Text) :
    joinEqual c (words ++ first :: rest) =
      ((joinEqual c words).1, (joinEqual c words).2 ++ first :: rest) := by
  rcases joinEqual_cases c words with ⟨e, words', rfl, he, hj⟩ | ⟨hj, hequal⟩
  · simp only [List.cons_append, joinEqual, he]
  · rw [hj]
    rcases joinEqual_cases c (words ++ first :: rest) with ⟨e, words', hwords, he, -⟩ | ⟨hsame, -⟩
    · cases words with
      | nil =>
        -- the comment would start with `=`
        obtain ⟨rfl, -⟩ := List.cons.inj hwords
        cases hfirst
      | cons word words =>
        obtain ⟨rfl, -⟩ := List.cons.inj hwords
        cases (hequal rfl).symm.trans he
    · exact hsame

theorem operands_append_comment (words : List Text) :
    operands (words ++ first :: rest) = operands words := by
  have hstop : operands (first :: rest) = [] := List.takeWhile_cons_of_neg (by simp [hfirst])
  rw [operands, operands, List.takeWhile_append]
  split
  · next hall =>
    rw [← operands, hstop, List.append_nil]
    exact ((List.takeWhile_prefix _).eq_of_length hall).symm
  · rfl

/-- A comment behind an instruction changes nothing. -/
theorem ofWords_append_of_some {words : List Text} {c : Opcode} {behind : List Text}
    (h : findOpcode words = some (c, behind)) (id : Int) :
    ofWords id (words ++ first :: rest) = ofWords id words := by
  have hne : words ≠ [] := by
    rintro rfl
    cases h
  rw [ofWords, ofWords, headD_append_of_ne_nil hne, h, findOpcode_append_of_some h]
  simp only [Option.map_some, joinEqual_append_comment hfirst, operands_append_comment hfirst]

end Comment

/-! ## Lines -/

/-- A comment counts behind a line: it names an opcode, and the line has words, of which the first does not
make it a comment and none names an opcode. -/
structure CommentCounts (line comment : Text) : Prop where
  ne_nil : Text.words line ≠ []
  no_comment : startsCommentLine ((Text.words line).headD []) = false
  no_opcode : ∀ word ∈ Text.words line, opcode? word = none
  opcode : ∃ word ∈ Text.words comment, opcode? word ≠ none

variable {mark line comment : Text}

/-- A comment that counts makes an instruction on a line that has none. -/
theorem CommentCounts.parseLine_ne (h : CommentCounts line (mark ++ comment)) (hmark : mark ∈ commentMarks)
    (id : Int) : parseLine id line = none ∧ parseLine id (line ++ .char ' ' :: (mark ++ comment)) ≠ none := by
  obtain ⟨first, rest, hcomment, -, hwords⟩ := exists_words_comment hmark line comment
  have hline : findOpcode (Text.words line) = none := findOpcode_eq_none_iff.2 h.no_opcode
  have hfind : findOpcode (first :: rest) ≠ none := by
    rw [← hcomment, Ne, findOpcode_eq_none_iff, not_forall]
    obtain ⟨word, hword, hopcode⟩ := h.opcode
    exact ⟨word, fun hall => hopcode (hall hword)⟩
  constructor
  · rw [parseLine, ofWords, hline, Option.map_none, ite_self]
  · rw [parseLine, hwords, ofWords, headD_append_of_ne_nil h.ne_nil, h.no_comment,
      findOpcode_append_of_none hline]
    simpa using hfind

/-- A comment that does not count changes nothing. -/
theorem parseLine_comment (h : ¬CommentCounts line (mark ++ comment)) (hmark : mark ∈ commentMarks)
    (id : Int) : parseLine id (line ++ .char ' ' :: (mark ++ comment)) = parseLine id line := by
  obtain ⟨first, rest, hcomment, hfirst, hwords⟩ := exists_words_comment hmark line comment
  rw [parseLine, parseLine, hwords]
  cases hline : findOpcode (Text.words line) with
  | some found => exact ofWords_append_of_some hfirst rest hline id
  | none =>
    -- the line alone has no instruction, so there must be none with the comment
    have hnone : ofWords id (Text.words line) = none := by
      rw [ofWords, hline, Option.map_none, ite_self]
    rw [hnone, ofWords]
    split
    · rfl
    · next hhead =>
      rw [findOpcode_append_of_none hline, Option.map_eq_none_iff, findOpcode_eq_none_iff, ← hcomment]
      intro word hword
      by_contra hopcode
      have hne : Text.words line ≠ [] := fun hempty => by
        rw [hempty, List.nil_append, List.headD_cons, startsCommentLine, hfirst] at hhead
        exact hhead rfl
      rw [headD_append_of_ne_nil hne, Bool.not_eq_true] at hhead
      exact h ⟨hne, hhead, findOpcode_eq_none_iff.1 hline, word, hword, hopcode⟩

/-- **Comments behind a line.** A comment behind a line, in front of which a blank stands, changes what is
read from the line exactly if the comment counts: it names an opcode, and in front of it there are words,
but neither an opcode nor the start of a comment line. Then the line alone has no instruction. In
particular no comment behind an instruction, behind a blank or behind another comment line changes
anything. -/
theorem parseLine_comment_iff (id : Int) (line comment : Text) :
    (parseLine id (line ++ ([' ', '/', '/'] : Text) ++ comment) = parseLine id line ↔
      ¬CommentCounts line ((['/', '/'] : Text) ++ comment)) ∧
    (parseLine id (line ++ ([' ', ';'] : Text) ++ comment) = parseLine id line ↔
      ¬CommentCounts line (([';'] : Text) ++ comment)) ∧
    ∀ mark ∈ commentMarks, CommentCounts line (mark ++ comment) → parseLine id line = none := by
  have hiff {mark : Text} (hmark : mark ∈ commentMarks) :
      parseLine id (line ++ .char ' ' :: (mark ++ comment)) = parseLine id line ↔
        ¬CommentCounts line (mark ++ comment) := by
    refine ⟨fun heq h => ?_, fun h => parseLine_comment h hmark id⟩
    obtain ⟨hline, hne⟩ := h.parseLine_ne hmark id
    exact hne (heq.trans hline)
  rw [List.append_assoc, List.append_assoc]
  exact ⟨hiff List.mem_cons_self, hiff (List.mem_cons_of_mem _ List.mem_cons_self),
    fun mark hmark h => (h.parseLine_ne hmark id).1⟩

/-- A line with a step number alone holds no instruction, but with a comment behind it that names an opcode
it holds the instruction of the comment. -/
theorem comment_becomes_instruction :
    let line : Text := "0"
    let comment : Text := " LD X0"
    parseLine 1 line = none ∧
      parseLine 1 (line ++ ([' ', '/', '/'] : Text) ++ comment) =
        some ⟨1, .known (.contact .start .on), "X0", ["X0"]⟩ ∧
      parseLine 1 (line ++ ([' ', ';'] : Text) ++ comment) =
        some ⟨1, .known (.contact .start .on), "X0", ["X0"]⟩ := by
  decide

end Listing
end LadderLogic
