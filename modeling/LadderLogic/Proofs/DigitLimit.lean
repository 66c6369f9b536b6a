import LadderLogic.Json.Reader
import Mathlib.Data.List.Infix
import Mathlib.Data.List.TakeWhile

/-!
# The limit on the digits of integers

The reader of JSON texts takes integers up to some number of digits. Each of its parts is compared with
itself under a larger limit (`Within`): it does the same, and then it leaves an end of the text or finds a
fault in its form; or it comes to a run of digits that is longer than the limit. So a fault that is none
of the form is such a run (`readWithin_cases`), and it is found exactly if some larger limit changes what
is read (`readWithin_eq_iff`).

Source: `loads_project` (section 6 of the specification).
-/

namespace LadderLogic
namespace Json
namespace Reader

/-! ## Two limits -/

/-- A run of digits in a text that is longer than a limit. -/
structure LongRun (limit : Nat) (text run : Text) : Prop where
  part : run <:+: text
  digits : ∀ c ∈ run, c.isDigit = true
  long : limit < run.length

/-- What the reader does from a text on with a limit, against what it does with another one: it does the
same, and leaves an end of the text or finds a fault in its form; or it comes to more digits than the
limit. -/
inductive Within {α : Type} (limit : Nat) (text : Text) :
    Except Fault (α × Text) → Except Fault (α × Text) → Prop
  | found (v : α) {rest : Text} (h : rest <:+ text) : Within limit text (.ok (v, rest)) (.ok (v, rest))
  | malformed (cause : Cause) (rest : Text) :
    Within limit text (.error (.malformed cause rest)) (.error (.malformed cause rest))
  | overlong {run : Text} {r : Except Fault (α × Text)} (h : LongRun limit text run) :
    Within limit text (.error (.numeral (.overlong run.length))) r

theorem LongRun.of_suffix {limit : Nat} {text text' run : Text} (h : LongRun limit text run)
    (hsuffix : text <:+ text') : LongRun limit text' run :=
  ⟨h.part.trans hsuffix.isInfix, h.digits, h.long⟩

theorem Within.of_suffix {α : Type} {limit : Nat} {text text' : Text} {r r' : Except Fault (α × Text)}
    (h : Within limit text r r') (hsuffix : text <:+ text') : Within limit text' r r' := by
  cases h with
  | found v hrest => exact .found v (hrest.trans hsuffix)
  | malformed cause rest => exact .malformed cause rest
  | overlong hrun => exact .overlong (hrun.of_suffix hsuffix)

/-! ## Strings -/

theorem Within.consPiece {limit : Nat} {text text' : Text} {r r' : Except Fault (List Piece × Text)}
    (h : Within limit text r r') (hsuffix : text <:+ text') (p : Piece) :
    Within limit text' (consPiece p r) (consPiece p r') := by
  cases h with
  | found pieces hrest => exact .found (p :: pieces) (hrest.trans hsuffix)
  | malformed cause rest => exact .malformed cause rest
  | overlong hrun => exact .overlong (hrun.of_suffix hsuffix)

/-- A string has no limit. -/
theorem within_stringPieces (limit : Nat) (opening text : Text) :
    Within limit text (stringPieces opening text) (stringPieces opening text) := by
  fun_induction stringPieces opening text with
  | case1 => exact .malformed _ _
  | case2 rest => exact .found [] (List.suffix_cons _ rest)
  | case3 => exact .malformed _ _
  | case4 => exact .malformed _ _
  | case5 => exact .malformed _ _
  | case6 a b c d rest n hn hrest ih =>
    exact ih.consPiece ⟨[_, _, a, b, c, d], rfl⟩ (.code n)
  | case7 => exact .malformed _ _
  | case8 c rest _ _ e he ih => exact ih.consPiece ⟨[_, c], rfl⟩ (.point e)
  | case9 => exact .malformed _ _
  | case10 => exact .malformed _ _
  | case11 c rest _ _ _ _ _ _ ih => exact ih.consPiece (List.suffix_cons c rest) (.point c)

theorem within_string (limit : Nat) (text : Text) :
    Within limit text (string text) (string text) := by
  have h := within_stringPieces limit ('"' :: text) text
  unfold string
  generalize stringPieces ('"' :: text) text = r at h ⊢
  cases h with
  | found pieces hrest => exact .found (ofPieces pieces) hrest
  | malformed cause rest => exact .malformed cause rest
  | overlong hrun => exact .overlong hrun

/-! ## Numbers and names -/

theorem eq_append_of_whole? {text run rest : Text} (h : whole? text = some (run, rest)) :
    text = run ++ rest ∧ ∀ c ∈ run, c.isDigit = true := by
  unfold whole? at h
  split at h
  · obtain ⟨rfl, rfl⟩ := Prod.mk.inj (Option.some.inj h)
    exact ⟨rfl, by decide⟩
  · next c behind _ =>
    split at h
    · next hc =>
      obtain ⟨rfl, rfl⟩ := Prod.mk.inj (Option.some.inj h)
      refine ⟨by simp, List.forall_mem_cons.2 ⟨hc, fun d hd => ?_⟩⟩
      exact List.mem_takeWhile_imp hd
    · cases h
  · cases h

theorem fraction_suffix (text : Text) : (fraction text).2 <:+ text := by
  unfold fraction
  split
  · next rest =>
    dsimp only
    split
    · exact List.suffix_rfl
    · exact (List.dropWhile_suffix _).trans (List.suffix_cons _ rest)
  · exact List.suffix_rfl

theorem splitSign_suffix (text : Text) : (Numeral.splitSign text).2 <:+ text := by
  unfold Numeral.splitSign
  split
  · exact List.suffix_cons _ _
  · exact List.suffix_cons _ _
  · exact List.suffix_rfl

theorem exponent_suffix (text : Text) : (exponent text).2 <:+ text := by
  unfold exponent
  split
  · next c rest =>
    split
    · dsimp only
      split
      · exact List.suffix_rfl
      · exact (List.dropWhile_suffix _).trans ((splitSign_suffix rest).trans (List.suffix_cons c rest))
    · exact List.suffix_rfl
  · exact List.suffix_rfl

variable {limit limit' : Nat}

theorem within_number (hle : limit ≤ limit') (text : Text) :
    Within limit text (number limit text) (number limit' text) := by
  unfold number
  split
  next negative body hp =>
  have hbody : body <:+ text := by
    split at hp
    · obtain ⟨-, rfl⟩ := Prod.mk.inj hp
      exact List.suffix_cons _ _
    · obtain ⟨-, rfl⟩ := Prod.mk.inj hp
      exact List.suffix_rfl
  split
  · exact .malformed _ _
  · next run rest hw =>
    obtain ⟨rfl, hdigits⟩ := eq_append_of_whole? hw
    have hfraction := fraction_suffix rest
    generalize fraction rest = f at hfraction ⊢
    obtain ⟨decimals, behind⟩ := f
    have hexponent := exponent_suffix behind
    dsimp only
    generalize exponent behind = e at hexponent ⊢
    obtain ⟨power, last⟩ := e
    have hlast : last <:+ text :=
      hexponent.trans (hfraction.trans ((List.suffix_append run rest).trans hbody))
    dsimp only
    split
    · by_cases hlong : limit < run.length
      · rw [if_pos hlong]
        exact .overlong ⟨(List.prefix_append run rest).isInfix.trans hbody.isInfix, hdigits, hlong⟩
      · rw [if_neg hlong, if_neg fun hlong' => hlong (Nat.lt_of_le_of_lt hle hlong')]
        exact .found _ hlast
    · exact .found _ hlast

theorem within_scalar (hle : limit ≤ limit') (text : Text) :
    Within limit text (scalar limit text) (scalar limit' text) := by
  unfold scalar
  split
  · next found hfound =>
    obtain ⟨⟨name, v⟩, -, hname⟩ := List.exists_of_findSome?_eq_some hfound
    obtain ⟨rest, hrest, rfl⟩ := Option.map_eq_some_iff.1 hname
    exact .found v ⟨name, List.isPrefixOf?_eq_some_iff_append_eq.1 hrest⟩
  · exact within_number hle text

/-! ## Values -/

theorem skipSpace_suffix (text : Text) : skipSpace text <:+ text := List.dropWhile_suffix _

section Step

variable {fuel : Nat}
  (hvalue : ∀ text, Within limit text (value limit fuel text) (value limit' fuel text))
  (helements : ∀ text, Within limit text (elements limit fuel text) (elements limit' fuel text))
  (hmembers : ∀ fields text,
    Within limit text (members limit fuel fields text) (members limit' fuel fields text))

include helements hmembers in
theorem within_value_succ (hle : limit ≤ limit') (text : Text) :
    Within limit text (value limit (fuel + 1) text) (value limit' (fuel + 1) text) := by
  unfold value
  split
  · next h => cases h
  · next rest _ =>
    have h := within_string limit rest
    generalize string rest = r at h ⊢
    cases h with
    | found _ hrest => exact .found _ (hrest.trans (List.suffix_cons _ rest))
    | malformed cause behind => exact .malformed cause behind
    | overlong hrun => exact .overlong (hrun.of_suffix (List.suffix_cons _ rest))
  · next rest hfuel =>
    obtain rfl := Nat.succ.inj hfuel
    have hskip := (skipSpace_suffix rest).trans (List.suffix_cons (.char '[') rest)
    generalize skipSpace rest = inner at hskip ⊢
    split
    · next behind => exact .found _ ((List.suffix_cons _ behind).trans hskip)
    · have h := helements inner
      generalize elements limit fuel inner = r at h ⊢
      generalize elements limit' fuel inner = r' at h ⊢
      cases h with
      | found _ hrest => exact .found _ (hrest.trans hskip)
      | malformed cause behind => exact .malformed cause behind
      | overlong hrun => exact .overlong (hrun.of_suffix hskip)
  · next rest hfuel =>
    obtain rfl := Nat.succ.inj hfuel
    have hskip := (skipSpace_suffix rest).trans (List.suffix_cons (.char '\x7b') rest)
    generalize skipSpace rest = inner at hskip ⊢
    split
    · next behind => exact .found _ ((List.suffix_cons _ behind).trans hskip)
    · have h := hmembers [] inner
      generalize members limit fuel [] inner = r at h ⊢
      generalize members limit' fuel [] inner = r' at h ⊢
      cases h with
      | found _ hrest => exact .found _ (hrest.trans hskip)
      | malformed cause behind => exact .malformed cause behind
      | overlong hrun => exact .overlong (hrun.of_suffix hskip)
  · exact within_scalar hle _

include hvalue helements in
theorem within_elements_succ (text : Text) :
    Within limit text (elements limit (fuel + 1) text) (elements limit' (fuel + 1) text) := by
  unfold elements
  have h := hvalue text
  generalize value limit fuel text = r at h ⊢
  generalize value limit' fuel text = r' at h ⊢
  cases h with
  | malformed cause rest => exact .malformed cause rest
  | overlong hrun => exact .overlong hrun
  | @found v rest hrest =>
    have hskip := (skipSpace_suffix rest).trans hrest
    dsimp only
    generalize skipSpace rest = next at hskip ⊢
    split
    · next behind => exact .found [v] ((List.suffix_cons _ behind).trans hskip)
    · next behind =>
      have hbehind : skipSpace behind <:+ text :=
        (skipSpace_suffix behind).trans ((List.suffix_cons _ behind).trans hskip)
      have h := helements (skipSpace behind)
      generalize elements limit fuel (skipSpace behind) = r at h ⊢
      generalize elements limit' fuel (skipSpace behind) = r' at h ⊢
      cases h with
      | malformed cause rest => exact .malformed cause rest
      | overlong hrun => exact .overlong (hrun.of_suffix hbehind)
      | found vs h => exact .found (v :: vs) (h.trans hbehind)
    · exact .malformed _ _

include hvalue hmembers in
theorem within_members_succ (fields : Fields) (text : Text) :
    Within limit text (members limit (fuel + 1) fields text) (members limit' (fuel + 1) fields text) := by
  unfold members
  split
  · next h => cases h
  · next behind hfuel =>
    obtain rfl := Nat.succ.inj hfuel
    have hname := within_string limit behind
    generalize string behind = r at hname ⊢
    cases hname with
    | malformed cause rest => exact .malformed cause rest
    | overlong hrun => exact .overlong (hrun.of_suffix (List.suffix_cons _ behind))
    | @found name rest hrest =>
      have hcolon := (skipSpace_suffix rest).trans (hrest.trans (List.suffix_cons (.char '"') behind))
      dsimp only
      generalize skipSpace rest = next at hcolon ⊢
      split
      · next inner =>
        have hinner := (skipSpace_suffix inner).trans ((List.suffix_cons _ inner).trans hcolon)
        have h := hvalue (skipSpace inner)
        generalize value limit fuel (skipSpace inner) = r at h ⊢
        generalize value limit' fuel (skipSpace inner) = r' at h ⊢
        cases h with
        | malformed cause rest => exact .malformed cause rest
        | overlong hrun => exact .overlong (hrun.of_suffix hinner)
        | @found v rest hrest =>
          have hskip := (skipSpace_suffix rest).trans (hrest.trans hinner)
          dsimp only
          generalize skipSpace rest = next at hskip ⊢
          split
          · next last => exact .found _ ((List.suffix_cons _ last).trans hskip)
          · next last =>
            have hlast := (skipSpace_suffix last).trans ((List.suffix_cons _ last).trans hskip)
            exact (hmembers _ (skipSpace last)).of_suffix hlast
          · exact .malformed _ _
      · exact .malformed _ _
  · exact .malformed _ _

end Step

/-- The whole reader under two limits. -/
theorem within_reader (hle : limit ≤ limit') (fuel : Nat) :
    (∀ text, Within limit text (value limit fuel text) (value limit' fuel text)) ∧
    (∀ text, Within limit text (elements limit fuel text) (elements limit' fuel text)) ∧
    ∀ fields text,
      Within limit text (members limit fuel fields text) (members limit' fuel fields text) := by
  induction fuel with
  | zero =>
    refine ⟨fun text => ?_, fun text => ?_, fun fields text => ?_⟩
    · rw [value, value]
      exact .malformed _ _
    · rw [elements, elements]
      exact .malformed _ _
    · rw [members, members]
      exact .malformed _ _
  | succ fuel ih =>
    obtain ⟨hvalue, helements, hmembers⟩ := ih
    exact ⟨within_value_succ helements hmembers hle, within_elements_succ hvalue helements,
      within_members_succ hvalue hmembers⟩

theorem document_cases (hle : limit ≤ limit') (text : Text) :
    (∃ run, LongRun limit text run ∧ document limit text = .error (.numeral (.overlong run.length))) ∨
    (document limit' text = document limit text ∧ ∀ fault, document limit text ≠ .error (.numeral fault)) := by
  unfold document
  split
  · exact .inr ⟨rfl, fun fault he => by cases he⟩
  · have h := ((within_reader hle (2 * text.length + 2)).1 (skipSpace text)).of_suffix (skipSpace_suffix text)
    generalize value limit (2 * text.length + 2) (skipSpace text) = r at h ⊢
    generalize value limit' (2 * text.length + 2) (skipSpace text) = r' at h ⊢
    cases h with
    | malformed cause rest => exact .inr ⟨rfl, fun fault he => by cases he⟩
    | overlong hrun => exact .inl ⟨_, hrun, rfl⟩
    | found v h =>
      refine .inr ⟨rfl, fun fault => ?_⟩
      dsimp only
      split <;> exact fun he => by cases he

end Reader

open Reader

variable {limit limit' : Nat}

/-- A text that is read with a limit has an integer with more digits, or it is read in the same way with a
larger limit. -/
theorem readWithin_cases (hle : limit ≤ limit') (text : Text) :
    (∃ run, LongRun limit text run ∧ readWithin limit text = .error (.numeral (.overlong run.length))) ∨
    (readWithin limit' text = readWithin limit text ∧
      ∀ fault, readWithin limit text ≠ .error (.numeral fault)) := by
  unfold readWithin
  rcases document_cases hle text with ⟨run, hrun, h⟩ | ⟨h, hfault⟩
  · rw [h]
    exact .inl ⟨run, hrun, rfl⟩
  · rw [h]
    refine .inr ⟨rfl, fun fault he => ?_⟩
    cases hd : Reader.document limit text with
    | ok v =>
      rw [hd] at he
      cases he
    | error e =>
      rw [hd] at he
      cases e with
      | malformed cause rest => cases he
      | numeral e => exact hfault e hd

/-- No larger limit changes how a text is read exactly if the limit is no reason to refuse it. -/
theorem readWithin_eq_iff (limit : Nat) (text : Text) :
    (∀ limit', limit ≤ limit' → readWithin limit' text = readWithin limit text) ↔
      ∀ fault, readWithin limit text ≠ .error (.numeral fault) := by
  constructor
  · -- no run in the text is longer than the text
    intro h fault hfault
    have hsame := h (max limit text.length) (Nat.le_max_left _ _)
    rcases readWithin_cases (Nat.le_refl (max limit text.length)) text with ⟨run, hrun, -⟩ | ⟨-, hnot⟩
    · have hlong := hrun.long
      have hpart := hrun.part.length_le
      omega
    · exact hnot fault (hsame.trans hfault)
  · intro h limit' hle
    rcases readWithin_cases hle text with ⟨run, -, hrun⟩ | ⟨hsame, -⟩
    · exact absurd hrun (h _)
    · exact hsame

/-- A text of ones alone is an integer, which has too many digits if there are more than the limit. -/
theorem readWithin_ones {limit n : Nat} (h : limit < n) :
    readWithin limit (List.replicate n (.char '1')) = .error (.numeral (.overlong n)) := by
  obtain ⟨m, rfl⟩ : ∃ m, n = m + 1 := ⟨n - 1, by omega⟩
  have hone : (CodePoint.char '1').isDigit = true := rfl
  have hwhole : whole? (.char '1' :: List.replicate m (.char '1')) =
      some (.char '1' :: List.replicate m (.char '1'), []) := by
    simp [whole?, hone]
  have hnumber : number limit (.char '1' :: List.replicate m (.char '1')) =
      .error (.numeral (.overlong (m + 1))) := by
    unfold number
    simp [hwhole, fraction, exponent, h]
  have hscalar : scalar limit (.char '1' :: List.replicate m (.char '1')) =
      .error (.numeral (.overlong (m + 1))) := by
    simp [scalar, names, Text.ofString, List.isPrefixOf?, hnumber]
  have hskip : skipSpace (.char '1' :: List.replicate m (.char '1')) =
      .char '1' :: List.replicate m (.char '1') := by
    simp [skipSpace, isSpace]
  rw [List.replicate_succ, readWithin, Reader.document, if_neg (by simp), hskip, value]
  · rw [hscalar]
    rfl
  · simp
  · simp
  · simp

end Json
end LadderLogic
