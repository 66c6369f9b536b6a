import LadderLogic.Proofs.Independence
import Mathlib.Data.List.Induction
import Mathlib.Data.Nat.Digits.Defs

/-!
# Literals

The literals among the tokens of instructions, as a grammar: `K` with or without a sign, or a minus sign or
nothing, then decimal digits of any script, and perhaps a line feed (`IsLiteral`). A token is taken for a
literal exactly if it is one (`ofToken_eq_literal_iff`), so its value is known from the grammar, and it has
none only if it is a literal with too many digits. Nothing else can stop a scan, as every stack and every
table answers whatever is asked of it (`scan_of_few_digits`).

Source: `resolve_operand` (section 4.2 of the specification).
-/

namespace LadderLogic

namespace Text

/-! ## Digits -/

/-- Whether a code point is a decimal digit of some script. -/
def isDecimal (c : CodePoint) : Bool := (digit? c).isSome

/-- The value of a decimal digit. -/
def decimal (c : CodePoint) : Nat := (digit? c).getD 0

theorem digit?_eq_some_iff {c : CodePoint} {d : Nat} :
    digit? c = some d ↔ isDecimal c = true ∧ d = decimal c := by
  rw [isDecimal, decimal]
  cases digit? c with
  | none => simp
  | some e => simp [eq_comm]

theorem mapM_digit?_eq_some_iff {text : Text} {ds : List Nat} :
    text.mapM digit? = some ds ↔ (∀ c ∈ text, isDecimal c = true) ∧ ds = text.map decimal := by
  induction text generalizing ds with
  | nil => simp
  | cons c rest ih =>
    simp only [List.mapM_cons, Option.bind_eq_bind, Option.bind_eq_some_iff, digit?_eq_some_iff, ih,
      Option.pure_def, Option.some.injEq, List.forall_mem_cons, List.map_cons]
    constructor
    · rintro ⟨d, ⟨hc, rfl⟩, ds, ⟨hrest, rfl⟩, rfl⟩
      exact ⟨⟨hc, hrest⟩, rfl⟩
    · rintro ⟨⟨hc, hrest⟩, rfl⟩
      exact ⟨_, ⟨hc, rfl⟩, _, ⟨hrest, rfl⟩, rfl⟩

/-- A text is read as digits if it has one at least and nothing else. -/
theorem digits?_eq_some_iff {text : Text} {ds : List Nat} :
    digits? text = some ds ↔ text ≠ [] ∧ (∀ c ∈ text, isDecimal c = true) ∧ ds = text.map decimal := by
  cases text with
  | nil => simp [digits?]
  | cons c rest =>
    rw [digits?, mapM_digit?_eq_some_iff]
    · exact (and_iff_right (List.cons_ne_nil c rest)).symm
    · exact List.cons_ne_nil c rest

/-! ## Line feeds -/

theorem isDecimal_lineFeed : isDecimal (.char '\n') = false := by decide

/-- A text is what is left of it without a line feed at its end, perhaps with that line feed. -/
theorem eq_chomp_or (text : Text) : text = chomp text ∨ text = chomp text ++ [.char '\n'] := by
  unfold chomp
  split
  · next h => exact .inr (List.dropLast_append_getLast? _ h).symm
  · exact .inl rfl

theorem chomp_append_lineFeed (text : Text) : chomp (text ++ [.char '\n']) = text := by
  simp [chomp]

/-- A text that ends with digits has no line feed at its end. -/
theorem chomp_append_digits (front : Text) {digits : Text} (hne : digits ≠ [])
    (h : ∀ c ∈ digits, isDecimal c = true) : chomp (front ++ digits) = front ++ digits := by
  unfold chomp
  refine if_neg fun hlast => ?_
  rw [List.getLast?_append_of_ne_nil front hne] at hlast
  have hdecimal := h _ (List.mem_of_getLast? hlast)
  rw [isDecimal_lineFeed] at hdecimal
  cases hdecimal

end Text

namespace Operand

/-! ## Tokens -/

/-- What may stand in front of the digits of a literal, and whether it makes the literal negative. -/
def literalMarks : List (Text × Bool) :=
  [(['K'], false), (['K', '+'], false), (['K', '-'], true), ([], false), (['-'], true)]

/-- A token is a literal: a mark, some decimal digits, and perhaps a line feed. -/
structure IsLiteral (token : Text) (negative : Bool) (digits : Text) : Prop where
  shape : ∃ mark, (mark, negative) ∈ literalMarks ∧
    (token = mark ++ digits ∨ token = mark ++ digits ++ [.char '\n'])
  ne_nil : digits ≠ []
  isDecimal : ∀ c ∈ digits, Text.isDecimal c = true

/-- The number with some decimal digits, the most significant first, and a sign. -/
def decimalValue (negative : Bool) (digits : Text) : Int :=
  let n : Nat := Nat.ofDigits 10 (digits.map Text.decimal).reverse
  if negative then -n else n

/-- The sign behind a `K` belongs to the mark. -/
theorem exists_mark_of_splitSign (text : Text) :
    ∃ mark, (mark, (Numeral.splitSign text).1) ∈ literalMarks ∧
      .char 'K' :: text = mark ++ (Numeral.splitSign text).2 := by
  unfold Numeral.splitSign
  split
  · exact ⟨['K', '-'], by simp [literalMarks], rfl⟩
  · exact ⟨['K', '+'], by simp [literalMarks], rfl⟩
  · exact ⟨['K'], by simp [literalMarks], rfl⟩

/-- A text that is read as a literal is a mark with digits behind it. -/
theorem exists_mark_of_literal {body : Text} {o : Operand}
    (h : (constant? body).or (plain? body) = some o) :
    ∃ mark negative digits, (mark, negative) ∈ literalMarks ∧ body = mark ++ digits ∧ digits ≠ [] ∧
      (∀ c ∈ digits, Text.isDecimal c = true) ∧ o = .literal negative (digits.map Text.decimal) := by
  have hdigits {digits : Text} {negative : Bool}
      (ho : (Text.digits? digits).map (.literal negative) = some o) : digits ≠ [] ∧
        (∀ c ∈ digits, Text.isDecimal c = true) ∧ o = .literal negative (digits.map Text.decimal) := by
    obtain ⟨ds, hds, rfl⟩ := Option.map_eq_some_iff.1 ho
    obtain ⟨hne, hdecimal, rfl⟩ := Text.digits?_eq_some_iff.1 hds
    exact ⟨hne, hdecimal, rfl⟩
  rcases Option.or_eq_some_iff.1 h with hc | ⟨-, hp⟩
  · unfold constant? at hc
    split at hc
    · next text =>
      obtain ⟨mark, hm, hbody⟩ := exists_mark_of_splitSign text
      exact ⟨mark, _, _, hm, hbody, hdigits hc⟩
    · cases hc
  · unfold plain? at hp
    split at hp
    · next digits => exact ⟨['-'], true, digits, by simp [literalMarks], rfl, hdigits hp⟩
    · exact ⟨[], false, body, by simp [literalMarks], rfl, hdigits hp⟩

/-- A mark with digits behind it is read as a literal. -/
theorem literal_of_mark {mark digits : Text} {negative : Bool} (hm : (mark, negative) ∈ literalMarks)
    (hne : digits ≠ []) (h : ∀ c ∈ digits, Text.isDecimal c = true) :
    (constant? (mark ++ digits)).or (plain? (mark ++ digits)) =
      some (.literal negative (digits.map Text.decimal)) := by
  have hread : Text.digits? digits = some (digits.map Text.decimal) :=
    Text.digits?_eq_some_iff.2 ⟨hne, h, rfl⟩
  obtain ⟨c, rest, rfl⟩ := List.exists_cons_of_ne_nil hne
  -- a digit is no sign and no letter, so the mark ends where it seems to end
  have hother (d : Char) (hd : Text.isDecimal (.char d) = false) : c ≠ .char d := by
    rintro rfl
    cases (h _ List.mem_cons_self).symm.trans hd
  have hminus := hother '-' (by decide)
  have hplus := hother '+' (by decide)
  have hletter := hother 'K' (by decide)
  simp only [literalMarks, List.mem_cons, Prod.mk.injEq, List.not_mem_nil, or_false] at hm
  rcases hm with ⟨rfl, rfl⟩ | ⟨rfl, rfl⟩ | ⟨rfl, rfl⟩ | ⟨rfl, rfl⟩ | ⟨rfl, rfl⟩
  all_goals simp [constant?, plain?, Numeral.splitSign, hread, hminus, hplus, hletter]

/-- **A token is taken for a literal exactly if it is one.** -/
theorem ofToken_eq_literal_iff {token : Text} {negative : Bool} {ds : List Nat} :
    ofToken token = .literal negative ds ↔
      ∃ digits, IsLiteral token negative digits ∧ ds = digits.map Text.decimal := by
  constructor
  · intro h
    simp only [ofToken] at h
    split at h
    · cases h
    · cases ho : (constant? (Text.chomp token)).or (plain? (Text.chomp token)) with
      | none =>
        rw [ho] at h
        cases h
      | some o =>
        rw [ho] at h
        obtain ⟨mark, sign, digits, hm, hbody, hne, hdecimal, rfl⟩ := exists_mark_of_literal ho
        obtain ⟨rfl, rfl⟩ := Operand.literal.inj h
        refine ⟨digits, ⟨⟨mark, hm, ?_⟩, hne, hdecimal⟩, rfl⟩
        rw [← hbody]
        exact Text.eq_chomp_or token
  · rintro ⟨digits, ⟨⟨mark, hm, htoken⟩, hne, hdecimal⟩, rfl⟩
    have hbody : Text.chomp token = mark ++ digits := by
      rcases htoken with rfl | rfl
      · exact Text.chomp_append_digits mark hne hdecimal
      · exact Text.chomp_append_lineFeed (mark ++ digits)
    have hempty : token.isEmpty = false := by
      rcases htoken with rfl | rfl <;> simp [hne]
    simp only [ofToken, hempty, hbody, literal_of_mark hm hne hdecimal]
    rfl

/-! ## Values -/

theorem ofDigits_eq_ofDigits_reverse (ds : List Nat) :
    Numeral.ofDigits ds = Nat.ofDigits 10 ds.reverse := by
  induction ds using List.reverseRecOn with
  | nil => rfl
  | append_singleton ds d ih =>
    rw [List.reverse_concat, Nat.ofDigits_cons, ← ih, Numeral.ofDigits, List.foldl_concat, Nat.add_comm]
    rfl

/-- The value of a literal, which fails if it has too many digits. -/
theorem IsLiteral.resolve_eq {token : Text} {negative : Bool} {digits : Text}
    (h : IsLiteral token negative digits) (registers : Text → Int) :
    resolve registers token =
      if 4300 < digits.length then .error (.overlong digits.length)
      else .ok (decimalValue negative digits) := by
  rw [resolve, ofToken_eq_literal_iff.2 ⟨digits, h, rfl⟩, value, Numeral.ofLiteral, List.length_map,
    ofDigits_eq_ofDigits_reverse]
  rfl

/-- A token that is no literal stands for a register, unless it is empty. -/
theorem resolve_of_not_isLiteral {token : Text}
    (h : ∀ negative digits, ¬IsLiteral token negative digits) (registers : Text → Int) :
    resolve registers token = .ok (if token = [] then 0 else registers token) := by
  rcases ofToken_cases token with rfl | ⟨negative, ds, ho⟩ | ho
  · rfl
  · obtain ⟨digits, hliteral, -⟩ := ofToken_eq_literal_iff.1 ho
    exact absurd hliteral (h negative digits)
  · have hne : token ≠ [] := by
      rintro rfl
      cases ho
    rw [resolve, ho, if_neg hne]
    rfl

end Operand

/-! ## Scans -/

/-- The number of decimal digits in a text. -/
def Text.decimals (text : Text) : Nat := text.countP Text.isDecimal

/-- No operand of an instruction, nor the id of a pulse move, has more than 4300 decimal digits. -/
structure Instruction.HasFewDigits (i : Instruction) : Prop where
  names : ∀ token ∈ i.names, token.decimals ≤ 4300
  id : i.IsCoil [.movePulse] → (Text.ofInt i.id).decimals ≤ 4300

/-- The digits of a literal are among those of its token. -/
theorem Operand.IsLiteral.length_le {token : Text} {negative : Bool} {digits : Text}
    (h : IsLiteral token negative digits) : digits.length ≤ token.decimals := by
  have hdigits : digits.countP Text.isDecimal = digits.length := List.countP_eq_length.2 h.isDecimal
  obtain ⟨mark, -, rfl | rfl⟩ := h.shape
  all_goals
    simp only [Text.decimals, List.countP_append, hdigits]
    omega

/-- All code points of the text of an integer are digits, but for its sign. -/
theorem Text.decimals_ofInt (n : Int) : (Text.ofInt n).decimals = (Nat.repr n.natAbs).length := by
  have hdigits : (Text.ofNat n.natAbs).decimals = (Nat.repr n.natAbs).length := by
    rw [← Text.length_ofNat]
    refine List.countP_eq_length.2 fun c hc => ?_
    rw [Text.isDecimal, Text.digit?_of_isDigit (Text.isDigit_of_mem_ofNat hc)]
    rfl
  have hminus : Text.isDecimal (.char '-') = false := by decide
  rcases Int.lt_or_le n 0 with hn | hn
  · rw [Text.ofInt_of_neg hn, Text.decimals, List.countP_cons, hminus]
    exact hdigits
  · rw [Text.ofInt_of_nonneg hn]
    exact hdigits

theorem Instruction.HasFewDigits.isShort {i : Instruction} (h : i.HasFewDigits) : i.IsShort where
  names token htoken := by
    rcases Operand.ofToken_cases token with rfl | ⟨negative, ds, ho⟩ | ho
    · rfl
    · obtain ⟨digits, hliteral, rfl⟩ := Operand.ofToken_eq_literal_iff.1 ho
      have hle := hliteral.length_le.trans (h.names token htoken)
      rw [ho, Operand.isShort, List.length_map]
      exact decide_eq_true hle
    · rw [ho]
      rfl
  id hpulse := by
    rw [← Text.decimals_ofInt]
    exact h.id hpulse

/-- **A scan fails only on literals with too many digits.** If no operand of a program, nor the id of a
pulse move, has more than 4300 decimal digits, every scan of it leads to a state. The value of a token
fails exactly if the token is a literal with more than 4300 digits. The value of any other literal is its
decimal number, with its sign, and a token that is no literal has the value of the register of its name,
the empty one apart, which is zero. -/
theorem Program.scan_of_few_digits :
    (∀ program : Program, (∀ i ∈ program, i.HasFewDigits) →
      ∀ s dt, ∃ next, program.scan s dt = .ok next) ∧
    ∀ (data : Table Int) (token : Text),
      (∀ fault, Operand.resolve (data.getD · 0) token = .error fault ↔
        ∃ negative digits, Operand.IsLiteral token negative digits ∧ 4300 < digits.length ∧
          fault = .overlong digits.length) ∧
      (∀ negative digits, Operand.IsLiteral token negative digits → digits.length ≤ 4300 →
        Operand.resolve (data.getD · 0) token = .ok (Operand.decimalValue negative digits)) ∧
      ((∀ negative digits, ¬Operand.IsLiteral token negative digits) →
        Operand.resolve (data.getD · 0) token = .ok (if token = [] then 0 else data.getD token 0)) := by
  refine ⟨fun program h s dt => ?_, fun data token => ⟨fun fault => ⟨fun hfault => ?_, ?_⟩,
    fun negative digits h hle => ?_, fun h => Operand.resolve_of_not_isLiteral h (data.getD · 0)⟩⟩
  · obtain ⟨u, hu⟩ := Scan.exists_run (s := Scan.start s dt) fun i hi => (h i hi).isShort
    rw [scan]
    split
    · exact ⟨s, rfl⟩
    · rw [hu]
      exact ⟨u.commit, rfl⟩
  · by_cases hliteral : ∃ negative digits, Operand.IsLiteral token negative digits
    · obtain ⟨negative, digits, h⟩ := hliteral
      rw [h.resolve_eq] at hfault
      split at hfault
      · next hlong => exact ⟨negative, digits, h, hlong, (Except.error.inj hfault).symm⟩
      · cases hfault
    · rw [Operand.resolve_of_not_isLiteral fun negative digits h => hliteral ⟨negative, digits, h⟩]
        at hfault
      cases hfault
  · rintro ⟨negative, digits, h, hlong, rfl⟩
    rw [h.resolve_eq, if_pos hlong]
  · rw [h.resolve_eq, if_neg (Nat.not_lt.2 hle)]

/-- A comparison with a literal of 4300 Arabic-Indic digits, behind `K-` and with a line feed at its end,
and a pulse move with a negative id behind a branch that is popped from an empty stack: the scan leads to
a state. With one digit more the literal has no value. -/
theorem Program.scan_of_few_digits_longest :
    let three : CodePoint := .char '٣'
    let token (n : Nat) : Text := .char 'K' :: .char '-' :: List.replicate n three ++ [.char '\n']
    let program : Program :=
      [⟨1, .known (.contact .start .equal), token 4300, [token 4300, "K+7"]⟩,
        ⟨2, .known (.branch .pop), [], []⟩, ⟨-12, .known (.coil .movePulse), "5", ["5", "D0"]⟩]
    (∀ i ∈ program, i.HasFewDigits) ∧ (∃ next, program.scan {} 100 = .ok next) ∧
      Operand.resolve ((∅ : Table Int).getD · 0) (token 4300) =
        .ok (Operand.decimalValue true (List.replicate 4300 three)) ∧
      Operand.resolve ((∅ : Table Int).getD · 0) (token 4301) = .error (.overlong 4301) := by
  intro three token program
  have hthree : Text.isDecimal three = true := by decide
  have hliteral (n : Nat) (hn : 0 < n) :
      Operand.IsLiteral (token n) true (List.replicate n three) := by
    refine ⟨⟨['K', '-'], by simp [Operand.literalMarks], .inr rfl⟩, ?_, fun c hc => ?_⟩
    · simpa using Nat.ne_of_gt hn
    · rw [List.eq_of_mem_replicate hc, hthree]
  have hdecimals (n : Nat) : (token n).decimals = n := by
    have hother : Text.isDecimal (.char 'K') = false ∧ Text.isDecimal (.char '-') = false ∧
      Text.isDecimal (.char '\n') = false := by decide
    simp [token, Text.decimals, List.countP_replicate, hother, hthree]
  have hlong : (token 4300).decimals ≤ 4300 := Nat.le_of_eq (hdecimals 4300)
  have hfew : ∀ i ∈ program, i.HasFewDigits := by
    simp only [program, List.forall_mem_cons]
    refine ⟨⟨?_, fun _ => by decide⟩, ⟨by decide, fun _ => by decide⟩, ⟨by decide, fun _ => by decide⟩,
      fun _ h => absurd h List.not_mem_nil⟩
    simp only [Instruction.names, List.forall_mem_cons]
    exact ⟨hlong, hlong, by decide, fun _ h => absurd h List.not_mem_nil⟩
  obtain ⟨hscan, hresolve⟩ := Program.scan_of_few_digits
  exact ⟨hfew, hscan program hfew {} 100,
    (hresolve ∅ (token 4300)).2.1 true _ (hliteral 4300 (by decide)) (Nat.le_of_eq List.length_replicate),
    ((hresolve ∅ (token 4301)).1 _).2 ⟨true, _, hliteral 4301 (by decide),
      Nat.le_of_eq List.length_replicate.symm, congrArg _ List.length_replicate.symm⟩⟩

end LadderLogic
