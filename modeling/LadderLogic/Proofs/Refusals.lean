import LadderLogic.Project.Basic
import LadderLogic.Proofs.DigitLimit

/-!
# How projects are refused

A project is refused for its form, and beyond that for two reasons only: a record has an infinite id, or
an integer in the text has more digits than the reader takes. A record with an infinite id is met if the
records before it are read (`ofRecords_cases`). Every other fault of a record, as every fault in the form
of a text, is one of the form of the project (`isAnswer_ofJson_iff`, `isAnswer_ofText_iff`).

Source: `load_project_data`, `loads_project` and `ProjectFormatError` (sections 6 and 7 of the
specification).
-/

namespace LadderLogic

/-! ## Errors of composed computations -/

theorem exists_of_mapError_eq_error {ε ε' α : Type} {f : ε → ε'} {r : Except ε α} {e : ε'}
    (h : r.mapError f = .error e) : ∃ e', f e' = e := by
  cases r with
  | error e' => exact ⟨e', Except.error.inj h⟩
  | ok v => cases h

/-- An error is one of the first part, or one of the second part on what the first one gave. -/
theorem error_or_of_bind_eq_error {ε α β : Type} {r : Except ε α} {next : α → Except ε β} {e : ε}
    (h : (r >>= next) = .error e) : r = .error e ∨ ∃ v, r = .ok v ∧ next v = .error e := by
  cases r with
  | error e' => exact .inl (congrArg Except.error (Except.error.inj h))
  | ok v => exact .inr ⟨v, rfl, h⟩

/-! ## Faults of numbers in records -/

namespace Json

variable {v : Json}

theorem toText_ne_number (v : Json) (fault : Binary64.Fault) : v.toText ≠ .error (.number fault) := by
  unfold toText
  split
  · exact fun h => by cases h
  · intro h
    obtain ⟨e, he⟩ := exists_of_mapError_eq_error h
    cases he

theorem toTexts_ne_number (vs : List Json) (fault : Binary64.Fault) :
    toTexts vs ≠ .error (.number fault) := by
  induction vs with
  | nil => exact fun h => by cases h
  | cons v vs ih =>
    rw [toTexts]
    cases hv : v.toText with
    | error e =>
      rintro ⟨⟩
      exact toText_ne_number v fault hv
    | ok s =>
      cases hvs : toTexts vs with
      | error e =>
        rintro ⟨⟩
        exact ih hvs
      | ok ss => exact fun h => by cases h

/-- Infinity is the only value that is no integer for being infinite. -/
theorem toInt_eq_infinite_iff :
    v.toInt = .error (.number .infinite) ↔ ∃ negative, v = .real (.infinite negative) := by
  constructor
  · intro h
    cases v with
    | real x =>
      cases x with
      | infinite negative => exact ⟨negative, rfl⟩
      | nan => cases h
      | finite s m e => cases h
    | str s =>
      obtain ⟨e, he⟩ := exists_of_mapError_eq_error h
      cases he
    | _ => cases h
  · rintro ⟨negative, rfl⟩
    rfl

theorem get_obj_ne_number (fields : Fields) (name : Text) (fault : Binary64.Fault) :
    get (.obj fields) name ≠ .error (.number fault) := by
  rw [get]
  split <;> exact fun h => by cases h

theorem get_obj_eq_ok_iff {fields : Fields} {name : Text} :
    get (.obj fields) name = .ok v ↔ field? fields name = some v := by
  rw [get]
  split
  · next v' hv => rw [hv, Except.ok.injEq, Option.some.injEq]
  · next hv => simp [hv]

end Json

namespace Instruction

theorem argsOf_ne_number (v : Json) (fault : Binary64.Fault) : argsOf v ≠ .error (.number fault) := by
  unfold argsOf
  split
  · cases hitems : v.items with
    | error e =>
      rintro ⟨⟩
      cases v <;> cases hitems
    | ok vs => exact Json.toTexts_ne_number vs fault
  · exact fun h => by cases h

/-- A record has an infinite id, and a type that has a text. -/
structure HasInfiniteId (fields : Json.Fields) : Prop where
  type : ∃ v text, Json.field? fields "type" = some v ∧ v.toText = .ok text
  id : ∃ negative, Json.field? fields "id" = some (.real (.infinite negative))

theorem ofRecord_eq_infinite_iff {fields : Json.Fields} :
    ofRecord (.obj fields) = .error (.number .infinite) ↔ HasInfiniteId fields := by
  constructor
  · intro h
    obtain hget | ⟨v, htype, h⟩ := error_or_of_bind_eq_error h
    · exact absurd hget (Json.get_obj_ne_number fields _ _)
    obtain htext | ⟨type, htext, h⟩ := error_or_of_bind_eq_error h
    · exact absurd htext (Json.toText_ne_number v _)
    obtain hget | ⟨v', hid, h⟩ := error_or_of_bind_eq_error h
    · exact absurd hget (Json.get_obj_ne_number fields _ _)
    obtain hint | ⟨id, -, h⟩ := error_or_of_bind_eq_error h
    · obtain ⟨negative, rfl⟩ := Json.toInt_eq_infinite_iff.1 hint
      exact ⟨⟨v, type, Json.get_obj_eq_ok_iff.1 htype, htext⟩, negative, Json.get_obj_eq_ok_iff.1 hid⟩
    -- what comes behind the id has no fault of numbers
    obtain hvalue | ⟨value, -, h⟩ := error_or_of_bind_eq_error h
    · exact absurd hvalue (Json.toText_ne_number _ _)
    obtain hargs | ⟨args, -, h⟩ := error_or_of_bind_eq_error h
    · exact absurd hargs (argsOf_ne_number _ _)
    · cases h
  · rintro ⟨⟨v, text, hv, htext⟩, negative, hid⟩
    rw [ofRecord, Json.get_obj_eq_ok_iff.2 hv, Json.get_obj_eq_ok_iff.2 hid]
    simp only [bind, Except.bind, htext]
    rfl

end Instruction

namespace Project

/-! ## Records -/

/-- A project is read, or refused for its form. -/
def IsAnswer (r : Except LoadError Program) : Prop :=
  (∃ program, r = .ok program) ∨ ∃ error, r = .error (.format error)

/-- Some record has an infinite id, and those before it are records of instructions. -/
def MeetsInfiniteId (records : List Json) : Prop :=
  ∃ before fields after, records = before ++ .obj fields :: after ∧
    (∀ v ∈ before, ∃ fields i, v = .obj fields ∧ Instruction.ofRecord v = .ok i) ∧
    Instruction.HasInfiniteId fields

theorem not_meetsInfiniteId_nil : ¬MeetsInfiniteId [] := by
  rintro ⟨before, fields, after, h, -⟩
  simp at h

theorem not_isAnswer_infiniteId : ¬IsAnswer (.error .infiniteId) := by
  rintro (⟨program, h⟩ | ⟨error, h⟩) <;> cases h

theorem not_isAnswer_numeral (fault : Numeral.Fault) : ¬IsAnswer (.error (.numeral fault)) := by
  rintro (⟨program, h⟩ | ⟨error, h⟩) <;> cases h

theorem meetsInfiniteId_cons {fields : Json.Fields} {rest : List Json} :
    MeetsInfiniteId (.obj fields :: rest) ↔ Instruction.HasInfiniteId fields ∨
      (∃ i, Instruction.ofRecord (.obj fields) = .ok i) ∧ MeetsInfiniteId rest := by
  constructor
  · rintro ⟨before, fields', after, h, hbefore, hid⟩
    cases before with
    | nil =>
      obtain ⟨⟨⟩, -⟩ := List.cons.inj h
      exact .inl hid
    | cons v before =>
      obtain ⟨rfl, rfl⟩ := List.cons.inj h
      obtain ⟨-, i, -, hi⟩ := hbefore _ List.mem_cons_self
      exact .inr ⟨⟨i, hi⟩, before, fields', after, rfl, fun v hv => hbefore v (List.mem_cons_of_mem _ hv), hid⟩
  · rintro (hid | ⟨⟨i, hi⟩, before, fields', after, rfl, hbefore, hid⟩)
    · exact ⟨[], fields, rest, rfl, fun v hv => absurd hv List.not_mem_nil, hid⟩
    · exact ⟨.obj fields :: before, fields', after, rfl,
        List.forall_mem_cons.2 ⟨⟨fields, i, rfl, hi⟩, hbefore⟩, hid⟩

/-- Records are refused for an infinite id exactly if they meet one, and else for their form. -/
theorem ofRecords_cases (position : Nat) (records : List Json) :
    ofRecords position records = .error .infiniteId ∧ MeetsInfiniteId records ∨
      IsAnswer (ofRecords position records) ∧ ¬MeetsInfiniteId records := by
  fun_induction ofRecords position records with
  | case1 position => exact .inr ⟨.inl ⟨[], rfl⟩, not_meetsInfiniteId_nil⟩
  | case2 position fields rest e he =>
    rw [meetsInfiniteId_cons, ← Instruction.ofRecord_eq_infinite_iff, he]
    by_cases hinfinite : e = .number .infinite
    · subst hinfinite
      exact .inl ⟨rfl, .inl rfl⟩
    · have hformat : recordError position e = .format (.badRecord position e) := by
        unfold recordError
        split
        · exact absurd rfl hinfinite
        · rfl
      rw [hformat]
      refine .inr ⟨.inr ⟨_, rfl⟩, ?_⟩
      rintro (h | ⟨⟨i, hi⟩, -⟩)
      · exact hinfinite (Except.error.inj h)
      · cases hi
  | case3 position fields rest i hi ih =>
    rw [meetsInfiniteId_cons, ← Instruction.ofRecord_eq_infinite_iff, hi]
    rcases ih with ⟨hrest, hmeets⟩ | ⟨hrest, hmeets⟩
    · rw [hrest]
      exact .inl ⟨rfl, .inr ⟨⟨i, rfl⟩, hmeets⟩⟩
    · refine .inr ⟨?_, ?_⟩
      · rcases hrest with ⟨program, h⟩ | ⟨error, h⟩ <;> rw [h]
        · exact .inl ⟨i :: program, rfl⟩
        · exact .inr ⟨error, rfl⟩
      · rintro (h | ⟨-, h⟩)
        · cases h
        · exact hmeets h
  | case4 position v rest hv =>
    refine .inr ⟨.inr ⟨_, rfl⟩, ?_⟩
    rintro ⟨before, fields, after, h, hbefore, -⟩
    cases before with
    | nil => exact hv fields (List.cons.inj h).1
    | cons b before =>
      obtain ⟨fields', -, rfl, -⟩ := hbefore b List.mem_cons_self
      exact hv fields' (List.cons.inj h).1

/-! ## Projects -/

/-- The records of a project that has the form of one. -/
def records? : Json → Option (List Json)
  | .obj fields =>
    match Json.field? fields "instructions" with
    | some (.arr records) => some records
    | _ => none
  | .arr records => some records
  | _ => none

/-- A project whose records meet an infinite id. -/
def HasInfiniteId (v : Json) : Prop := ∃ records ∈ records? v, MeetsInfiniteId records

theorem ofJson_eq (v : Json) :
    (∃ records, records? v = some records ∧ ofJson v = ofRecords 0 records) ∨
      records? v = none ∧ ∃ error, ofJson v = .error (.format error) := by
  cases v with
  | arr records => exact .inl ⟨records, rfl, rfl⟩
  | obj fields =>
    rw [records?, ofJson]
    cases Json.field? fields "instructions" with
    | none => exact .inr ⟨rfl, _, rfl⟩
    | some v =>
      cases v with
      | arr records => exact .inl ⟨records, rfl, rfl⟩
      | _ => exact .inr ⟨rfl, _, rfl⟩
  | _ => exact .inr ⟨rfl, _, rfl⟩

theorem ofJson_cases (v : Json) :
    ofJson v = .error .infiniteId ∧ HasInfiniteId v ∨ IsAnswer (ofJson v) ∧ ¬HasInfiniteId v := by
  unfold HasInfiniteId
  rcases ofJson_eq v with ⟨records, hrecords, h⟩ | ⟨hrecords, error, h⟩
  · rw [h, hrecords]
    simpa using ofRecords_cases 0 records
  · rw [h, hrecords]
    exact .inr ⟨.inr ⟨error, rfl⟩, by simp⟩

theorem isAnswer_ofJson_iff (v : Json) : IsAnswer (ofJson v) ↔ ¬HasInfiniteId v := by
  rcases ofJson_cases v with ⟨h, hid⟩ | ⟨h, hid⟩
  · rw [h]
    exact iff_of_false not_isAnswer_infiniteId (not_not_intro hid)
  · exact iff_of_true h hid

theorem isAnswer_ofText_iff (text : Text) :
    IsAnswer (ofText text) ↔
      (∀ limit, Numeral.digitLimit ≤ limit → Json.readWithin limit text = Json.read text) ∧
      ∀ v, Json.read text = .ok v → ¬HasInfiniteId v := by
  have hlimit := Json.readWithin_eq_iff Numeral.digitLimit text
  rw [← Json.read] at hlimit
  rw [hlimit, ofText]
  cases hread : Json.read text with
  | ok v =>
    dsimp only
    rw [isAnswer_ofJson_iff]
    constructor
    · intro h
      refine ⟨fun fault he => ?_, fun v' hv => ?_⟩
      · cases he
      · exact Except.ok.inj hv ▸ h
    · exact fun h => h.2 v rfl
  | error e =>
    cases e with
    | malformed cause place =>
      refine iff_of_true (.inr ⟨_, rfl⟩) ⟨fun fault he => ?_, fun v hv => ?_⟩
      · cases he
      · cases hv
    | numeral fault => exact iff_of_false (not_isAnswer_numeral fault) fun h => h.1 fault rfl

theorem ofText_cases (text : Text) :
    IsAnswer (ofText text) ∨ ofText text = .error .infiniteId ∨
      ∃ run, Json.Reader.LongRun Numeral.digitLimit text run ∧
        ofText text = .error (.numeral (.overlong run.length)) := by
  rw [ofText]
  rcases Json.readWithin_cases (Nat.le_refl Numeral.digitLimit) text with ⟨run, hrun, h⟩ | ⟨-, hfault⟩
  · rw [← Json.read] at h
    rw [h]
    exact .inr (.inr ⟨run, hrun, rfl⟩)
  · rw [← Json.read] at hfault
    cases hread : Json.read text with
    | ok v =>
      rcases ofJson_cases v with ⟨h, -⟩ | ⟨h, -⟩
      · exact .inr (.inl h)
      · exact .inl h
    | error e =>
      cases e with
      | malformed cause place => exact .inl (.inr ⟨_, rfl⟩)
      | numeral fault => exact absurd hread (hfault fault)

/-- **Projects are refused for their form, but for two limits of numbers.** A value is read or refused for
its form exactly if its records meet no infinite id. A text is read or refused for its form exactly if, in
addition, the limit on the digits of integers does not change how the text is read. Any other refusal is
for an infinite id, or for a run of digits in the text that is longer than the limit. -/
theorem isAnswer_iff (v : Json) (text : Text) :
    (IsAnswer (ofJson v) ↔ ¬HasInfiniteId v) ∧
    (IsAnswer (ofText text) ↔
      (∀ limit, Numeral.digitLimit ≤ limit → Json.readWithin limit text = Json.read text) ∧
      ∀ w, Json.read text = .ok w → ¬HasInfiniteId w) ∧
    (IsAnswer (ofText text) ∨ ofText text = .error .infiniteId ∨
      ∃ run, Json.Reader.LongRun Numeral.digitLimit text run ∧
        ofText text = .error (.numeral (.overlong run.length))) :=
  ⟨isAnswer_ofJson_iff v, isAnswer_ofText_iff text, ofText_cases text⟩

/-- An infinite id in a value and in a text, and a text that is one integer with a digit too many. -/
theorem refused_for_numbers :
    ofJson (.arr [.obj [("id", .real (.infinite false)), ("type", .str "LD")]]) = .error .infiniteId ∧
    ofText "[\x7b\"id\": Infinity, \"type\": \"LD\"\x7d]" = .error .infiniteId ∧
    ofText (List.replicate 4301 (.char '1')) = .error (.numeral (.overlong 4301)) := by
  refine ⟨rfl, by decide +kernel, ?_⟩
  have hlong : Numeral.digitLimit < 4301 := by decide
  rw [ofText, Json.read, Json.readWithin_ones hlong]

end Project
end LadderLogic
