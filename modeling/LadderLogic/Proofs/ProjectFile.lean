import LadderLogic.Proofs.Documents
import LadderLogic.Project.Basic

/-!
# Project files

A program is read back from the file of its project, whatever the date is. The file is written in
printed characters only, so neither the encoding nor the unification of line ends changes it, and the
text is read back as a JSON value. An instruction is read back from its record if its type is an
opcode, or a name that is taken for none.

Source: `save_project` and `load_project` (section 6 of the specification).
-/

namespace LadderLogic

/-! ## Texts of characters -/

namespace Text

@[simp]
theorem isScalar_nil : IsScalar [] := fun _ h => absurd h List.not_mem_nil

@[simp]
theorem isScalar_cons {p : CodePoint} {a : Text} :
    IsScalar (p :: a) ↔ p.isScalar = true ∧ IsScalar a := List.forall_mem_cons

@[simp]
theorem isScalar_append {a b : Text} : IsScalar (a ++ b) ↔ IsScalar a ∧ IsScalar b :=
  List.forall_mem_append

@[simp]
theorem isScalar_ofString (s : String) : IsScalar (ofString s) := fun p hp => by
  obtain ⟨c, -, rfl⟩ := List.mem_map.1 hp
  rfl

end Text

namespace Stamp

@[simp]
theorem isScalar_padded (width n : Nat) : (padded width n).IsScalar := by
  refine Text.isScalar_append.2 ⟨fun p hp => ?_, Text.isScalar_ofString _⟩
  rw [List.eq_of_mem_replicate hp]
  rfl

theorem isScalar_offsetText (offset : Int) : (offsetText offset).IsScalar := by
  simp only [offsetText, Text.isScalar_cons, Text.isScalar_append, isScalar_padded, true_and]
  refine ⟨by split <;> rfl, rfl, ?_⟩
  split
  · exact Text.isScalar_nil
  · split <;> simp [CodePoint.isScalar]

/-- The text of a stamp is one of characters. -/
theorem isScalar_text (s : Stamp) : s.text.IsScalar := by
  have hzone : Text.IsScalar ((s.offset.map offsetText).getD []) := by
    cases s.offset with
    | none => exact Text.isScalar_nil
    | some offset => exact isScalar_offsetText offset
  rw [text]
  split <;> simp [CodePoint.isScalar, hzone]

end Stamp

/-! ## Bytes -/

theorem CodePoint.IsPrinted.exists_char {p : CodePoint} (h : p.IsPrinted) :
    ∃ c, p = .char c ∧ c.toNat < 128 := by
  cases p with
  | char c =>
    refine ⟨c, rfl, ?_⟩
    rcases h with he | h
    · cases he
      decide
    · exact Nat.lt_of_le_of_lt h.2 (by decide)
  | half n =>
    exfalso
    rcases h with he | h
    · cases he
    · simp only [CodePoint.toNat] at h
      omega

namespace Utf8

/-- A character of ASCII has one byte, which is its number. -/
theorem encodePoint_ascii {c : Char} (h : c.toNat < 128) :
    encodePoint (.char c) = [UInt8.ofNat c.toNat] := by
  have hle : c.val.toNat ≤ 0x7F := Nat.le_of_lt_succ h
  rw [encodePoint, String.utf8EncodeChar, if_pos hle]
  rfl

/-- Printed text is decoded as it was, one byte for each character. -/
theorem decodeFrom_encode {text : Text} (h : ∀ p ∈ text, p.IsPrinted) (position : Nat) :
    decodeFrom position none (encode text) = .ok text := by
  induction text generalizing position with
  | nil => rfl
  | cons p text ih =>
    obtain ⟨c, rfl, hc⟩ := (h p List.mem_cons_self).exists_char
    have hbyte : (UInt8.ofNat c.toNat).toNat = c.toNat := by
      rw [UInt8.toNat_ofNat']
      omega
    rw [encode, List.flatMap_cons, ← encode, encodePoint_ascii hc, List.singleton_append, decodeFrom,
      hbyte, if_pos hc, ih fun q hq => h q (List.mem_cons_of_mem _ hq), Char.ofNat_toNat]
    rfl

end Utf8

/-- There is no carriage return in printed text. -/
theorem Text.unifyLineEnds_printed {text : Text} (h : ∀ p ∈ text, p.IsPrinted) :
    unifyLineEnds text = text := by
  induction text with
  | nil => rfl
  | cons p text ih =>
    have hp : p ≠ .char '\r' := by
      rintro rfl
      have hprinted := h _ List.mem_cons_self
      revert hprinted
      decide
    have hrest := ih fun q hq => h q (List.mem_cons_of_mem _ hq)
    rw [unifyLineEnds]
    · rw [hrest]
    · exact fun _ he => absurd he hp
    · exact hp

/-! ## Records -/

namespace Operation

/-- The name of an operation is read as this operation: it is an opcode, or a name that is taken for
none. -/
def IsStorable : Operation → Prop
  | .known _ => True
  | .unknown name => Opcode.parse? name = none ∧ name.IsScalar

instance : DecidablePred IsStorable
  | .known _ => isTrue trivial
  | .unknown name => inferInstanceAs (Decidable (Opcode.parse? name = none ∧ name.IsScalar))

variable {operation : Operation}

theorem IsStorable.parse_name (h : operation.IsStorable) : parse operation.name = operation := by
  cases operation with
  | known c =>
    have hparse : Opcode.parse? c.name = some c := by
      rcases c with ⟨p, t⟩ | j | b | k
      · cases p <;> cases t <;> rfl
      · cases j <;> rfl
      · cases b <;> rfl
      · cases k <;> rfl
    rw [name, parse, hparse]
  | unknown name => rw [Operation.name, parse, h.1]

theorem IsStorable.isScalar_name (h : operation.IsStorable) : operation.name.IsScalar := by
  cases operation with
  | known c =>
    rcases c with ⟨p, t⟩ | j | b | k
    · cases p <;> cases t <;> decide
    · cases j <;> decide
    · cases b <;> decide
    · cases k <;> decide
  | unknown name => exact h.2

end Operation

namespace Instruction

/-- An instruction that is read back as it was written. -/
structure IsStorable (i : Instruction) : Prop where
  operation : i.operation.IsStorable
  id : (Nat.repr i.id.natAbs).length ≤ Numeral.digitLimit
  value : i.value.IsScalar
  args : ∀ a ∈ i.args, a.IsScalar

instance : DecidablePred IsStorable := fun i =>
  decidable_of_iff (i.operation.IsStorable ∧ (Nat.repr i.id.natAbs).length ≤ Numeral.digitLimit ∧
      i.value.IsScalar ∧ ∀ a ∈ i.args, a.IsScalar)
    ⟨fun h => ⟨h.1, h.2.1, h.2.2.1, h.2.2.2⟩, fun h => ⟨h.operation, h.id, h.value, h.args⟩⟩

theorem toTexts_map_str (texts : List Text) : Json.toTexts (texts.map .str) = .ok texts := by
  induction texts with
  | nil => rfl
  | cons t texts ih =>
    rw [List.map_cons, Json.toTexts, ih]
    rfl

/-- An instruction is read back from its record. -/
theorem ofRecord_toJson {i : Instruction} (h : i.operation.IsStorable) :
    ofRecord i.toJson = .ok i := by
  have htype : i.toJson.get "type" = .ok (.str i.operation.name) := rfl
  have hid : i.toJson.get "id" = .ok (.int i.id) := rfl
  have hvalue : i.toJson.getD "value" (.str []) = .str i.value := rfl
  have hargs : argsOf (i.toJson.getD "args" .null) = .ok i.args := by
    obtain ⟨id, operation, value, args⟩ := i
    cases args with
    | nil => rfl
    | cons a args => exact toTexts_map_str (a :: args)
  simp only [ofRecord, htype, hid, hvalue, hargs, bind, Except.bind, pure, Except.pure, Json.toText,
    Json.toInt, h.parse_name]

end Instruction

namespace Json

theorem storableItems_iff {vs : List Json} : StorableItems vs ↔ ∀ v ∈ vs, Storable v := by
  induction vs with
  | nil => simp [StorableItems]
  | cons v vs ih => simp [StorableItems, ih]

end Json

namespace Instruction

theorem IsStorable.toJson {i : Instruction} (h : i.IsStorable) : i.toJson.Storable := by
  have hargs : Json.Storable (.arr (i.args.map .str)) := by
    refine Json.storableItems_iff.2 fun v hv => ?_
    obtain ⟨a, ha, rfl⟩ := List.mem_map.1 hv
    exact h.args a ha
  have htype := h.operation.isScalar_name
  obtain ⟨id, operation, value, args⟩ := i
  cases args with
  | nil =>
    have hnames : [Text.ofString "id", Text.ofString "type", Text.ofString "value"].Nodup := by decide
    exact ⟨hnames, Text.isScalar_ofString _, h.id, Text.isScalar_ofString _, htype,
      Text.isScalar_ofString _, h.value, trivial⟩
  | cons a args =>
    have hnames : [Text.ofString "id", Text.ofString "type", Text.ofString "value",
      Text.ofString "args"].Nodup := by decide
    exact ⟨hnames, Text.isScalar_ofString _, h.id, Text.isScalar_ofString _, htype,
      Text.isScalar_ofString _, h.value, Text.isScalar_ofString _, hargs, trivial⟩

end Instruction

namespace Project

/-- The records of a program are read back from any position on. -/
theorem ofRecords_map_toJson {program : Program} (h : ∀ i ∈ program, i.operation.IsStorable)
    (position : Nat) : ofRecords position (program.map Instruction.toJson) = .ok program := by
  induction program generalizing position with
  | nil => rfl
  | cons i program ih =>
    have hi : Instruction.ofRecord (.obj i.toRecord) = .ok i :=
      Instruction.ofRecord_toJson (h i List.mem_cons_self)
    have hrest := ih (fun j hj => h j (List.mem_cons_of_mem i hj)) (position + 1)
    rw [List.map_cons, Instruction.toJson, ofRecords, hi, hrest]
    rfl

theorem storable_toJson {program : Program} (h : ∀ i ∈ program, i.IsStorable) (date : Stamp) :
    (toJson program date).Storable := by
  have hrecords : Json.Storable (.arr (program.map Instruction.toJson)) := by
    refine Json.storableItems_iff.2 fun v hv => ?_
    obtain ⟨i, hi, rfl⟩ := List.mem_map.1 hv
    exact (h i hi).toJson
  have hmeta : [Text.ofString "version", Text.ofString "date"].Nodup := by decide
  have hnames : [Text.ofString "instructions", Text.ofString "meta"].Nodup := by decide
  refine ⟨hnames, Text.isScalar_ofString _, hrecords, Text.isScalar_ofString _, ?_, trivial⟩
  exact ⟨hmeta, Text.isScalar_ofString _, Text.isScalar_ofString _, Text.isScalar_ofString _,
    date.isScalar_text, trivial⟩

/-- **A program is read back from its project file.** Whatever the date is, a program of instructions
that are storable is written, the text is of line feeds and printable characters of ASCII only, and
the text as well as the bytes of the file are read as the program itself. -/
theorem ofBytes_toBytes {program : Program} (h : ∀ i ∈ program, i.IsStorable) (date : Stamp) :
    ∃ text bytes, toText program date = .ok text ∧ toBytes program date = .ok bytes ∧
      (∀ p ∈ text, p.IsPrinted) ∧ ofText text = .ok program ∧ ofBytes bytes = .ok program := by
  obtain ⟨text, htext, hprinted, hread⟩ := Json.read_pretty (storable_toJson h date)
  have hprogram : ofText text = .ok program := by
    rw [ofText, hread]
    exact ofRecords_map_toJson (fun i hi => (h i hi).operation) 0
  have hwritten : toText program date = .ok text := htext
  refine ⟨text, Utf8.encode text, hwritten, by rw [toBytes, hwritten]; rfl, hprinted, hprogram, ?_⟩
  rw [ofBytes, Utf8.decode, Utf8.decodeFrom_encode hprinted]
  exact (congrArg ofText (Text.unifyLineEnds_printed hprinted)).trans hprogram

/-- Quotes, controls, line separators and characters beyond U+FFFF in the operands, a type that is no
opcode and a negative id, an opcode without operands, and a date without a zone. -/
theorem ofBytes_toBytes_escapes :
    let program : Program := [
      { id := -12345678901234567890, operation := .unknown "ld\"\u0131?"
        value := "a\\b/\"\n\r\t\x08\x0c\x00\x7f", args := ["\u0085\u2028 \ud7ff\ue000", "", "𝄞😀"] },
      { id := 0, operation := .known (.branch .push), value := "", args := [] }]
    let date : Stamp := { year := 2024, month := 2, day := 29, microsecond := 5, offset := none }
    (∀ i ∈ program, i.IsStorable) ∧
    ∃ text bytes, toText program date = .ok text ∧ toBytes program date = .ok bytes ∧
      (∀ p ∈ text, p.IsPrinted) ∧ ofText text = .ok program ∧ ofBytes bytes = .ok program := by
  intro program date
  have h : ∀ i ∈ program, i.IsStorable := by decide
  exact ⟨h, ofBytes_toBytes h date⟩

end Project
end LadderLogic
