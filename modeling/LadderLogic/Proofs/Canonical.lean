import LadderLogic.Listing
import Mathlib.Data.List.TakeWhile

/-!
# Canonical programs

A listing can spell an instruction in several ways: in small letters, behind a step number, with `LD =`
for `LD=`, with a comment behind it. What is read from a listing is a canonical program, whatever the
spelling; and a canonical program is read back from its own listing, as none of its operands is taken
for a comment, for a part of the opcode or for the end of a line. So the canonical programs are exactly
those that a listing can hold.

The words of a line that is written are its name and its operands (`words_lineOf`), and the lines of a
listing that is written are the lines of its instructions (`lines_joinLines`).

Source: `parse_mnemonic` and `format_mnemonic` (section 6 of the specification).
-/

namespace LadderLogic
namespace Listing

/-- A word that can stand behind an opcode as an operand. -/
structure IsOperand (word : Text) : Prop where
  ne_nil : word ≠ []
  no_blank : ∀ c ∈ word, Text.isBlank c = false
  no_slashes : ¬(['/', '/'] : Text) <+: word
  no_semicolon : ¬([';'] : Text) <+: word

/-- An instruction of a canonical program: an opcode with operands, the first of which is the value.
Behind `LD`, `AND` and `OR` the first operand is not `=`. -/
structure IsCanonical (i : Instruction) : Prop where
  known : ∃ c, i.operation = .known c
  isOperand : ∀ a ∈ i.args, IsOperand a
  value_eq : i.value = i.args.headD []
  no_equal : ∀ position, i.operation = .known (.contact position .on) →
    i.args.head? ≠ some [.char '=']

/-- A program of such instructions, numbered from 1 on. -/
structure Canonical (program : Program) : Prop where
  ids : ∀ (n : Nat) (i : Instruction), program[n]? = some i → i.id = n + 1
  instructions : ∀ i ∈ program, IsCanonical i

/-! ## Comments -/

theorem startsComment_eq_false {word : Text} :
    startsComment word = false ↔ ¬(['/', '/'] : Text) <+: word ∧ ¬([';'] : Text) <+: word := by
  simp only [startsComment, ← Bool.not_eq_true, Bool.or_eq_true, not_or, List.isPrefixOf_iff_prefix]

theorem IsOperand.startsComment_eq {word : Text} (h : IsOperand word) :
    startsComment word = false :=
  startsComment_eq_false.2 ⟨h.no_slashes, h.no_semicolon⟩

/-! ## Reading -/

/-- The words behind the opcode are the last words of the line. -/
theorem suffix_of_findOpcode {words rest : List Text} {c : Opcode}
    (h : findOpcode words = some (c, rest)) : rest <:+ words := by
  induction words with
  | nil => cases h
  | cons word words ih =>
    rw [findOpcode] at h
    split at h
    · obtain ⟨-, rfl⟩ := Prod.mk.inj (Option.some.inj h)
      exact List.suffix_cons word words
    · exact (ih h).trans (List.suffix_cons word words)

theorem comparator?_eq_some {c e : Opcode} (h : comparator? c = some e) :
    ∃ position, c = .contact position .on ∧ e = .contact position .equal := by
  unfold comparator? at h
  split at h
  · next position => exact ⟨position, rfl, (Option.some.inj h).symm⟩
  · cases h

/-- A single `=` is left as an operand only where no comparator is meant. -/
theorem joinEqual_cases (c : Opcode) (rest : List Text) :
    (∃ e rest', rest = [.char '='] :: rest' ∧ comparator? c = some e ∧
      joinEqual c rest = (e, rest')) ∨
    (joinEqual c rest = (c, rest) ∧ (rest.head? = some [.char '='] → comparator? c = none)) := by
  unfold joinEqual
  split
  · next rest' e he => exact .inl ⟨e, rest', rfl, he, rfl⟩
  · next hnone =>
    refine .inr ⟨rfl, fun hhead => ?_⟩
    obtain ⟨rest', rfl⟩ := List.head?_eq_some_iff.1 hhead
    cases hc : comparator? c with
    | none => rfl
    | some e => exact (hnone rest' e rfl hc).elim

/-- What is read from a line has the number that is given, and is canonical. -/
theorem isCanonical_of_parseLine {id : Int} {line : Text} {i : Instruction}
    (h : parseLine id line = some i) : i.id = id ∧ IsCanonical i := by
  rw [parseLine, ofWords] at h
  split at h
  · cases h
  · obtain ⟨⟨c, rest⟩, hfind, rfl⟩ := Option.map_eq_some_iff.1 h
    have hwords := suffix_of_findOpcode hfind
    refine ⟨rfl, ⟨_, rfl⟩, fun a ha => ?_, rfl, fun position hop hhead => ?_⟩
    · have hmem : a ∈ (joinEqual c rest).2 := (List.takeWhile_prefix _).subset ha
      have hrest : a ∈ rest := by
        rcases joinEqual_cases c rest with ⟨e, rest', rfl, -, hj⟩ | ⟨hj, -⟩
        · rw [hj] at hmem
          exact List.mem_cons_of_mem _ hmem
        · rw [hj] at hmem
          exact hmem
      have hline : a ∈ Text.words line := hwords.subset hrest
      have hcomment : startsComment a = false := by simpa using List.mem_takeWhile_imp ha
      obtain ⟨hslashes, hsemicolon⟩ := startsComment_eq_false.1 hcomment
      exact ⟨Text.ne_nil_of_mem_words hline, fun d hd => Text.not_isBlank_of_mem_words hline hd,
        hslashes, hsemicolon⟩
    · -- the first operand is the first word behind the opcode
      have hfirst : (joinEqual c rest).2.head? = some [.char '='] := by
        obtain ⟨args, hargs⟩ : ∃ args, operands (joinEqual c rest).2 = [.char '='] :: args :=
          List.head?_eq_some_iff.1 hhead
        obtain ⟨more, hmore⟩ : operands (joinEqual c rest).2 <+: (joinEqual c rest).2 :=
          List.takeWhile_prefix _
        rw [← hmore, hargs]
        rfl
      have hop : (joinEqual c rest).1 = .contact position .on := by
        injection hop
      rcases joinEqual_cases c rest with ⟨e, rest', rfl, he, hj⟩ | ⟨hj, hnone⟩
      · obtain ⟨position', -, rfl⟩ := comparator?_eq_some he
        rw [hj] at hop
        cases hop
      · rw [hj] at hop hfirst
        have hnone := hnone hfirst
        rw [show c = .contact position .on from hop] at hnone
        cases hnone

/-- What is read from lines is canonical, and numbered from `id` on. -/
theorem parseLines_canonical (id : Int) (lines : List Text) :
    (∀ (n : Nat) i, (parseLines id lines)[n]? = some i → i.id = id + n) ∧
    ∀ i ∈ parseLines id lines, IsCanonical i := by
  induction lines generalizing id with
  | nil => exact ⟨fun n i h => by simp [parseLines] at h, fun i h => by simp [parseLines] at h⟩
  | cons line lines ih =>
    rw [parseLines]
    split
    · next i hi =>
      obtain ⟨hid, hcanonical⟩ := isCanonical_of_parseLine hi
      obtain ⟨hids, hrest⟩ := ih (id + 1)
      refine ⟨fun n j hj => ?_, fun j hj => ?_⟩
      · cases n with
        | zero =>
          obtain rfl := Option.some.inj hj
          rw [hid]
          simp
        | succ n =>
          rw [hids n j hj]
          omega
      · rcases List.mem_cons.1 hj with rfl | hj
        · exact hcanonical
        · exact hrest j hj
    · exact ih id

theorem canonical_parse (text : Text) : Canonical (parse text) := by
  obtain ⟨hids, hinstructions⟩ := parseLines_canonical 1 (Text.lines text)
  exact ⟨fun n i hi => by rw [hids n i hi]; omega, hinstructions⟩

/-! ## Writing -/

/-- The words of a line that is written are its name and its operands. -/
theorem words_lineOf {name : Text} {operands : List Text} (hne : name ≠ [])
    (hname : ∀ c ∈ name, Text.isBlank c = false) (hoperands : ∀ a ∈ operands, IsOperand a) :
    Text.words (lineOf name operands) = name :: operands := by
  induction operands generalizing name with
  | nil =>
    rw [lineOf, List.flatMap_nil, List.append_nil]
    exact Text.words_of_no_blank hne hname
  | cons a operands ih =>
    have ha := hoperands a List.mem_cons_self
    have hline : lineOf name (a :: operands) = name ++ .char ' ' :: lineOf a operands := rfl
    rw [hline, Text.words_append_blank rfl, Text.words_of_no_blank hne hname,
      ih ha.ne_nil ha.no_blank fun b hb => hoperands b (List.mem_cons_of_mem a hb)]
    rfl

theorem isBlank_of_isLineEnd {c : CodePoint} (h : Text.isLineEnd c = true) :
    Text.isBlank c = true := by
  simp only [Text.isLineEnd, Text.isBlank, Bool.or_eq_true, Bool.and_eq_true, decide_eq_true_eq,
    beq_iff_eq] at h ⊢
  omega

/-- A line that is written holds no line end. -/
theorem not_isLineEnd_of_mem_lineOf {name : Text} {operands : List Text}
    (hname : ∀ c ∈ name, Text.isBlank c = false) (hoperands : ∀ a ∈ operands, IsOperand a)
    {c : CodePoint} (hc : c ∈ lineOf name operands) : Text.isLineEnd c = false := by
  have hblank {c : CodePoint} (h : Text.isBlank c = false) : Text.isLineEnd c = false :=
    Bool.eq_false_iff.2 fun he => by rw [isBlank_of_isLineEnd he] at h; cases h
  rcases List.mem_append.1 hc with hc | hc
  · exact hblank (hname c hc)
  · obtain ⟨a, ha, hc⟩ := List.mem_flatMap.1 hc
    rcases List.mem_cons.1 hc with rfl | hc
    · rfl
    · exact hblank ((hoperands a ha).no_blank c hc)

theorem lines_joinLines {ls : List Text} (h : ∀ l ∈ ls, ∀ c ∈ l, Text.isLineEnd c = false) :
    Text.lines (joinLines ls) = ls := by
  induction ls with
  | nil => rfl
  | cons l ls ih =>
    have hjoin : joinLines (l :: ls) = l ++ .char '\n' :: joinLines ls := by simp [joinLines]
    rw [hjoin, Text.lines_append_lineFeed (h l List.mem_cons_self),
      ih fun l' hl' => h l' (List.mem_cons_of_mem l hl')]

/-- The name of an opcode in a listing is a word that names the opcode and starts no comment. -/
theorem operationName_known (c : Opcode) :
    operationName (.known c) ≠ [] ∧ (∀ p ∈ operationName (.known c), Text.isBlank p = false) ∧
      startsCommentLine (operationName (.known c)) = false ∧
      opcode? (operationName (.known c)) = some c := by
  rcases c with ⟨position, test⟩ | join | branch | coil
  · cases position <;> cases test <;> decide
  · cases join <;> decide
  · cases branch <;> decide
  · cases coil <;> decide

section IsCanonical

variable {i : Instruction} (h : IsCanonical i)

include h

/-- All operands of a canonical instruction are written, and nothing else. -/
theorem IsCanonical.writtenOperands_eq : writtenOperands i = i.args := by
  unfold writtenOperands
  split
  · rfl
  · next hargs =>
    have hargs : i.args = [] := not_not.1 hargs
    have hvalue : i.value = [] := by rw [h.value_eq, hargs]; rfl
    rw [if_neg (not_not.2 hvalue), hargs]

theorem IsCanonical.not_isLineEnd {c : CodePoint} (hc : c ∈ writeLine i) :
    Text.isLineEnd c = false := by
  obtain ⟨opcode, hop⟩ := h.known
  rw [writeLine, h.writtenOperands_eq, hop] at hc
  exact not_isLineEnd_of_mem_lineOf (operationName_known opcode).2.1 h.isOperand hc

/-- A canonical instruction is read back from its line. -/
theorem IsCanonical.parseLine_writeLine : parseLine i.id (writeLine i) = some i := by
  obtain ⟨c, hop⟩ := h.known
  obtain ⟨hne, hname, hcomment, hopcode⟩ := operationName_known c
  have hwords : Text.words (writeLine i) = operationName (.known c) :: i.args := by
    rw [writeLine, h.writtenOperands_eq, hop]
    exact words_lineOf hne hname h.isOperand
  have hfind : findOpcode (operationName (.known c) :: i.args) = some (c, i.args) := by
    rw [findOpcode, hopcode]
  -- no operand is taken for a part of the opcode
  have hjoin : joinEqual c i.args = (c, i.args) := by
    rcases joinEqual_cases c i.args with ⟨e, rest, hargs, he, -⟩ | ⟨hj, -⟩
    · obtain ⟨position, rfl, -⟩ := comparator?_eq_some he
      exact absurd (by rw [hargs]; rfl) (h.no_equal position hop)
    · exact hj
  -- and none for a comment
  have hoperands : operands i.args = i.args :=
    List.takeWhile_eq_self_iff.2 fun a ha => by simp [(h.isOperand a ha).startsComment_eq]
  rw [parseLine, hwords, ofWords, List.headD_cons, hcomment, hfind]
  simp only [Bool.false_eq_true, if_false, Option.map_some, hjoin, hoperands, instruction,
    ← h.value_eq, ← hop]

end IsCanonical

/-- Canonical instructions that are numbered in order are read back from their lines. -/
theorem parseLines_writeLine {program : Program} {id : Int}
    (hids : ∀ (n : Nat) i, program[n]? = some i → i.id = id + n) (h : ∀ i ∈ program, IsCanonical i) :
    parseLines id (program.map writeLine) = program := by
  induction program generalizing id with
  | nil => rfl
  | cons i rest ih =>
    have hid : i.id = id := by simpa using hids 0 i rfl
    have hline := (h i List.mem_cons_self).parseLine_writeLine
    rw [hid] at hline
    rw [List.map_cons, parseLines, hline]
    refine congrArg (i :: ·) (ih (fun n j hj => ?_) fun j hj => h j (List.mem_cons_of_mem i hj))
    rw [hids (n + 1) j hj]
    omega

theorem Canonical.parse_format {program : Program} (h : Canonical program) :
    parse (format program) = program := by
  have hlines : Text.lines (format program) = program.map writeLine := by
    refine lines_joinLines fun l hl c hc => ?_
    obtain ⟨i, hi, rfl⟩ := List.mem_map.1 hl
    exact (h.instructions i hi).not_isLineEnd hc
  rw [parse, hlines]
  exact parseLines_writeLine (fun n i hi => by rw [h.ids n i hi]; omega) h.instructions

/-- **Listings and canonical programs.** What is read from a text is canonical, and a canonical program
is read back from its listing. So writing what was read and reading it again changes nothing, and the
canonical programs are exactly those that are read from some text. -/
theorem parse_format_of_canonical :
    (∀ text, Canonical (parse text)) ∧
    (∀ program, Canonical program → parse (format program) = program) ∧
    (∀ text, parse (format (parse text)) = parse text) ∧
    ∀ program, Canonical program ↔ ∃ text, parse text = program := by
  refine ⟨canonical_parse, fun program h => h.parse_format,
    fun text => (canonical_parse text).parse_format, fun program => ⟨fun h => ?_, ?_⟩⟩
  · exact ⟨format program, h.parse_format⟩
  · rintro ⟨text, rfl⟩
    exact canonical_parse text

example : format (parse "10 ld = D0 K5 // step\n; note\nset Y0") = "LD= D0 K5\nSET Y0\n" := by
  decide

end Listing
end LadderLogic
