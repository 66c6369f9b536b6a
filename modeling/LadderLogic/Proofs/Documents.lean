import LadderLogic.Proofs.Decimal
import LadderLogic.Proofs.Escapes

/-!
# Indented JSON texts

A value that is written on indented lines is read back as it was (`read_pretty`), if it is `Storable`:
it has no floating-point numbers in it, its integers are not too long, its strings are of characters,
and no object has two fields of one name.

The reader is followed along the text. `Reads v t` says that the reader, in front of `t`, finds `v` and
stops right behind `t`; what comes behind a value there is a new line or a comma. `ReadsItems` and
`ReadsFields` say the same of the rest of an array or an object, from the value in front of it on. The
reader of values has fuel, and twice the length of the text is enough of it.

Source: `dump_project` and `loads_project` (section 6 of the specification).
-/

namespace LadderLogic
namespace Json

namespace Reader

open Writer

/-- What may come behind a value in an indented text. -/
def Ends (rest : Text) : Prop := ∀ c ∈ rest.head?, c = .char '\n' ∨ c = .char ','

theorem ends_nil : Ends [] := fun _ h => by cases h

theorem ends_newLine (level : Nat) (rest : Text) : Ends (newLine level ++ rest) := fun c h => by
  cases h
  exact .inl rfl

theorem ends_comma (rest : Text) : Ends (.char ',' :: rest) := fun c h => by
  cases h
  exact .inr rfl

/-- Nothing is skipped in front of a code point that is no space. -/
theorem skipSpace_of_head {c : CodePoint} (h : isSpace c = false) (rest : Text) :
    skipSpace (c :: rest) = c :: rest := by
  rw [skipSpace, List.dropWhile_cons, h]
  rfl

theorem skipSpace_blank (rest : Text) : skipSpace (.char ' ' :: rest) = skipSpace rest := rfl

theorem skipSpace_newLine (level : Nat) (rest : Text) :
    skipSpace (newLine level ++ rest) = skipSpace rest := by
  refine List.dropWhile_append_of_pos fun c hc => ?_
  rcases List.mem_cons.1 hc with rfl | hc
  · rfl
  · rw [List.eq_of_mem_replicate hc]
    rfl

/-! ## Numbers -/

theorem isDigit_of_ends {c : CodePoint} {rest : Text} (h : Ends (c :: rest)) : c.isDigit = false := by
  rcases h c rfl with rfl | rfl <;> rfl

/-- The digits of a number are read up to what comes behind it. -/
theorem whole?_ofNat (n : Nat) {rest : Text} (hrest : Ends rest) :
    whole? (Text.ofNat n ++ rest) = some (Text.ofNat n, rest) := by
  have hdigits : ∀ c ∈ Text.ofNat n, c.isDigit = true := fun c => Text.isDigit_of_mem_ofNat
  have htake : rest.takeWhile CodePoint.isDigit = [] := by
    cases rest with
    | nil => rfl
    | cons c rest => simp [isDigit_of_ends hrest]
  have hdrop : rest.dropWhile CodePoint.isDigit = rest := by
    cases rest with
    | nil => rfl
    | cons c rest => simp [isDigit_of_ends hrest]
  rcases Nat.eq_zero_or_pos n with rfl | hn
  · rfl
  · have hhead := Text.head?_ofNat hn
    cases hd : Text.ofNat n with
    | nil => exact absurd hd (Text.ofNat_ne_nil n)
    | cons c ds =>
      rw [hd] at hhead hdigits
      have hzero : c ≠ .char '0' := fun he => hhead (congrArg some he)
      have hc : c.isDigit = true := hdigits c List.mem_cons_self
      have hds : ∀ d ∈ ds, d.isDigit = true := fun d hm => hdigits d (List.mem_cons_of_mem c hm)
      rw [List.cons_append, whole?]
      · rw [if_pos hc, List.takeWhile_append_of_pos hds, List.dropWhile_append_of_pos hds, htake,
          hdrop, List.append_nil]
      · exact hzero

theorem fraction_of_ends {rest : Text} (h : Ends rest) : fraction rest = (none, rest) := by
  cases rest with
  | nil => rfl
  | cons c rest => rcases h c rfl with rfl | rfl <;> rfl

theorem exponent_of_ends {rest : Text} (h : Ends rest) : exponent rest = (none, rest) := by
  cases rest with
  | nil => rfl
  | cons c rest => rcases h c rfl with rfl | rfl <;> rfl

/-- The text of an integer is read as that integer. -/
theorem number_ofInt {limit : Nat} {n : Int} (hn : (Nat.repr n.natAbs).length ≤ limit) {rest : Text}
    (hrest : Ends rest) : number limit (Text.ofInt n ++ rest) = .ok (.int n, rest) := by
  have hlength : ¬limit < (Text.ofNat n.natAbs).length := by
    rw [Text.length_ofNat]
    omega
  rcases Int.lt_or_le n 0 with hneg | hpos
  · have hsigned : Numeral.signed true n.natAbs = n := by
      simp only [Numeral.signed, if_true]
      omega
    unfold number
    simp only [Text.ofInt_of_neg hneg, List.cons_append, whole?_ofNat _ hrest, fraction_of_ends hrest,
      exponent_of_ends hrest, hlength, digitValues, Text.ofDigits_ofNat, hsigned]
    rfl
  · have hsigned : Numeral.signed false n.natAbs = n := by
      simp only [Numeral.signed, Bool.false_eq_true, if_false]
      omega
    -- a text of digits takes the second case of the sign
    have hminus : ∀ tail, Text.ofNat n.natAbs ++ rest ≠ .char '-' :: tail := by
      intro tail he
      have hw := whole?_ofNat n.natAbs hrest
      rw [he] at hw
      cases hw
    unfold number
    simp only [Text.ofInt_of_nonneg hpos, whole?_ofNat _ hrest, fraction_of_ends hrest,
      exponent_of_ends hrest, hlength, digitValues, Text.ofDigits_ofNat, hsigned]
    rfl

/-- The first code point of the text of an integer. -/
theorem ofInt_front (n : Int) : ∃ c tail, Text.ofInt n = c :: tail ∧
    (c.isDigit = true ∨ c = .char '-' ∧ ∃ d rest, tail = d :: rest ∧ d.isDigit = true) := by
  obtain ⟨c, tail, hc⟩ := List.exists_cons_of_ne_nil (Text.ofNat_ne_nil n.natAbs)
  have hdigit : c.isDigit = true := Text.isDigit_of_mem_ofNat (hc ▸ List.mem_cons_self)
  rcases Int.lt_or_le n 0 with hneg | hpos
  · exact ⟨_, _, Text.ofInt_of_neg hneg, .inr ⟨rfl, c, tail, hc, hdigit⟩⟩
  · exact ⟨c, tail, (Text.ofInt_of_nonneg hpos).trans hc, .inl hdigit⟩

theorem ne_of_isDigit {c : CodePoint} (h : c.isDigit = true) {d : Char}
    (hd : (CodePoint.char d).isDigit = false) : CodePoint.char d ≠ c := by
  rintro rfl
  rw [hd] at h
  cases h

/-- No value with a name is written like an integer. -/
theorem scalar_ofInt {limit : Nat} {n : Int} (hn : (Nat.repr n.natAbs).length ≤ limit) {rest : Text}
    (hrest : Ends rest) : scalar limit (Text.ofInt n ++ rest) = .ok (.int n, rest) := by
  have hnone : (names.findSome? fun f =>
      (f.1.isPrefixOf? (Text.ofInt n ++ rest)).map fun behind => (f.2, behind)) = none := by
    obtain ⟨c, tail, he, hdigit | ⟨rfl, d, ds, rfl, hdigit⟩⟩ := ofInt_front n
    · have hne {e : Char} := ne_of_isDigit hdigit (d := e)
      simp [he, names, Text.ofString, List.isPrefixOf?, @hne 'n' rfl, @hne 't' rfl, @hne 'f' rfl,
        @hne 'N' rfl, @hne 'I' rfl, @hne '-' rfl]
    · have hne := ne_of_isDigit hdigit (d := 'I') rfl
      simp [he, names, Text.ofString, List.isPrefixOf?, hne]
  rw [scalar, hnone, number_ofInt hn hrest]

/-- What starts with neither a quote nor a bracket is a number or has a name. -/
theorem value_eq_scalar (limit fuel : Nat) {c : CodePoint} (hquote : c ≠ .char '"')
    (hbracket : c ≠ .char '[') (hbrace : c ≠ .char '\x7b') (tail : Text) :
    value limit (fuel + 1) (c :: tail) = scalar limit (c :: tail) := by
  rw [value]
  · exact fun _ he => hquote (List.cons.inj he).1
  · exact fun _ he => hbracket (List.cons.inj he).1
  · exact fun _ he => hbrace (List.cons.inj he).1

/-! ## Values -/

/-- In front of the text `t` the reader finds the value `v`. -/
structure Reads (v : Json) (t : Text) : Prop where
  found : ∀ fuel rest, 2 * t.length ≤ fuel + 1 → Ends rest →
    value Numeral.digitLimit (fuel + 1) (t ++ rest) = .ok (v, rest)
  front : ∃ c tail, t = c :: tail ∧ isSpace c = false ∧ c ≠ .char ']'
  printed : ∀ p ∈ t, p.IsPrinted

theorem Reads.value {v : Json} {t : Text} (h : Reads v t) {fuel : Nat} (hfuel : 2 * t.length ≤ fuel)
    {rest : Text} (hrest : Ends rest) :
    value Numeral.digitLimit fuel (t ++ rest) = .ok (v, rest) := by
  cases fuel with
  | zero =>
    obtain ⟨c, tail, rfl, -⟩ := h.front
    cases hfuel
  | succ fuel => exact h.found fuel rest hfuel hrest

theorem Reads.skipSpace {v : Json} {t : Text} (h : Reads v t) (rest : Text) :
    skipSpace (t ++ rest) = t ++ rest := by
  obtain ⟨c, tail, rfl, hc, -⟩ := h.front
  exact skipSpace_of_head hc _

theorem isPrinted_newLine (level : Nat) : ∀ p ∈ newLine level, p.IsPrinted := by
  refine List.forall_mem_cons.2 ⟨by decide, fun p hp => ?_⟩
  rw [List.eq_of_mem_replicate hp]
  decide

/-- The text of an integer has digits and a minus sign in it. -/
theorem toNat_of_mem_ofInt {n : Int} {c : CodePoint} (h : c ∈ Text.ofInt n) :
    45 ≤ c.toNat ∧ c.toNat ≤ 57 := by
  have hdigit (hc : c ∈ Text.ofNat n.natAbs) : 45 ≤ c.toNat ∧ c.toNat ≤ 57 := by
    have hd := Text.isDigit_of_mem_ofNat hc
    simp only [CodePoint.isDigit, Bool.and_eq_true, decide_eq_true_eq] at hd
    omega
  rcases Int.lt_or_le n 0 with hneg | hpos
  · rw [Text.ofInt_of_neg hneg] at h
    rcases List.mem_cons.1 h with rfl | hc
    · decide
    · exact hdigit hc
  · rw [Text.ofInt_of_nonneg hpos] at h
    exact hdigit h

theorem reads_int {n : Int} (hn : (Nat.repr n.natAbs).length ≤ Numeral.digitLimit) :
    Reads (.int n) (Text.ofInt n) := by
  obtain ⟨c, tail, he, -⟩ := ofInt_front n
  have hc : 45 ≤ c.toNat ∧ c.toNat ≤ 57 := toNat_of_mem_ofInt (he ▸ List.mem_cons_self)
  have hne (d : Char) (hd : d.toNat < 45 ∨ 57 < d.toNat) : c ≠ .char d := by
    rintro rfl
    simp only [CodePoint.toNat] at hc
    omega
  refine ⟨fun fuel rest _ hrest => ?_, ⟨c, tail, he, ?_, hne ']' (by decide)⟩, fun p hp => ?_⟩
  · rw [he, List.cons_append, value_eq_scalar _ _ (hne '"' (by decide)) (hne '[' (by decide))
      (hne '\x7b' (by decide)), ← List.cons_append, ← he, scalar_ofInt hn hrest]
  · simp [isSpace, hne ' ' (by decide), hne '\t' (by decide), hne '\n' (by decide),
      hne '\r' (by decide)]
  · have hp := toNat_of_mem_ofInt hp
    exact .inr (by omega)

theorem reads_str {s : Text} (hs : s.IsScalar) : Reads (.str s) (writtenString s) where
  found fuel rest _ _ := by
    rw [writtenString, List.cons_append, value, List.append_assoc, List.singleton_append,
      string_written hs]
  front := ⟨_, _, rfl, rfl, by decide⟩
  printed := isPrinted_writtenString hs

theorem reads_null : Reads .null ['n', 'u', 'l', 'l'] where
  found _ _ _ _ := rfl
  front := ⟨_, _, rfl, rfl, by decide⟩
  printed := by decide

theorem reads_bool (b : Bool) : Reads (.bool b) (writtenBool b) := by
  cases b with
  | false => exact ⟨fun _ _ _ _ => rfl, ⟨_, _, rfl, rfl, by decide⟩, by decide⟩
  | true => exact ⟨fun _ _ _ _ => rfl, ⟨_, _, rfl, rfl, by decide⟩, by decide⟩

/-! ## Arrays -/

/-- In front of the text of an item and `ts` the reader finds the item and `vs`, up to the end of the
array. -/
structure ReadsItems (vs : List Json) (ts : Text) : Prop where
  elements : ∀ {v t}, Reads v t → ∀ level fuel rest, 2 * (t.length + ts.length) ≤ fuel →
    elements Numeral.digitLimit (fuel + 1) (t ++ (ts ++ (newLine level ++ .char ']' :: rest))) =
      .ok (v :: vs, rest)
  printed : ∀ p ∈ ts, p.IsPrinted

theorem readsItems_nil : ReadsItems [] [] where
  elements {v t} h level fuel rest hfuel := by
    rw [elements, List.nil_append, h.value (by simpa using hfuel) (ends_newLine level _)]
    simp only [skipSpace_newLine, skipSpace_of_head (show isSpace (.char ']') = false from rfl)]
  printed p hp := absurd hp List.not_mem_nil

theorem readsItems_cons {v : Json} {t : Text} {vs : List Json} {ts : Text} (level : Nat)
    (h : Reads v t) (hs : ReadsItems vs ts) :
    ReadsItems (v :: vs) (.char ',' :: (newLine level ++ t ++ ts)) where
  elements {w u} hw closing fuel rest hfuel := by
    simp only [List.length_cons, List.length_append] at hfuel
    -- the comma and the new line pay for the two calls that lead to the next item
    obtain ⟨k, rfl⟩ : ∃ k, fuel = k + 1 := ⟨fuel - 1, by omega⟩
    have hnext := hs.elements h closing k rest (by omega)
    rw [elements, List.cons_append, hw.value (by omega) (ends_comma _)]
    simp only [skipSpace_of_head (show isSpace (.char ',') = false from rfl), List.append_assoc,
      skipSpace_newLine, h.skipSpace, hnext]
  printed := by
    simp only [List.forall_mem_cons, List.forall_mem_append]
    exact ⟨by decide, ⟨isPrinted_newLine _, h.printed⟩, hs.printed⟩

theorem reads_arr_nil : Reads (.arr []) ['[', ']'] where
  found _ _ _ _ := rfl
  front := ⟨_, _, rfl, rfl, by decide⟩
  printed := by decide

theorem reads_arr_cons {v : Json} {t : Text} {vs : List Json} {ts : Text} (level : Nat)
    (h : Reads v t) (hs : ReadsItems vs ts) :
    Reads (.arr (v :: vs))
      (.char '[' :: (newLine (level + 1) ++ t ++ ts ++ newLine level ++ [.char ']'])) where
  found fuel rest hfuel _ := by
    simp only [List.length_cons, List.length_append] at hfuel
    obtain ⟨k, rfl⟩ : ∃ k, fuel = k + 1 := ⟨fuel - 1, by omega⟩
    have hitems := hs.elements h level k rest (by omega)
    obtain ⟨c, tail, he, hc, hne⟩ := h.front
    simp only [List.cons_append, List.append_assoc, List.nil_append, value, skipSpace_newLine,
      h.skipSpace]
    rw [he, List.cons_append] at hitems ⊢
    simp [hne, hitems]
  front := ⟨_, _, rfl, rfl, by decide⟩
  printed := by
    simp only [List.forall_mem_cons, List.forall_mem_append]
    exact ⟨by decide, ⟨⟨⟨isPrinted_newLine _, h.printed⟩, hs.printed⟩, isPrinted_newLine _⟩,
      by decide⟩

/-! ## Objects -/

/-- The text of a field. -/
def fieldText (name t : Text) : Text := writtenString name ++ .char ':' :: .char ' ' :: t

/-- In front of the text of a field and `ts` the reader, which has the fields `before` already, finds
the field and `fields`, up to the end of the object. -/
structure ReadsFields (fields : Fields) (ts : Text) : Prop where
  members : ∀ {name v t}, name.IsScalar → Reads v t → ∀ before,
    ((before ++ (name, v) :: fields).map Prod.fst).Nodup →
    ∀ level fuel rest, 2 * (t.length + ts.length) + 2 ≤ fuel →
      members Numeral.digitLimit (fuel + 1) before
        (fieldText name t ++ (ts ++ (newLine level ++ .char '\x7d' :: rest))) =
          .ok (before ++ (name, v) :: fields, rest)
  printed : ∀ p ∈ ts, p.IsPrinted

theorem setField_of_notMem {fields : Fields} {name : Text} (h : name ∉ fields.map Prod.fst)
    (v : Json) : setField fields name v = fields ++ [(name, v)] := by
  induction fields with
  | nil => rfl
  | cons f rest ih =>
    simp only [List.map_cons, List.mem_cons, not_or] at h
    rw [setField, if_neg (Ne.symm h.1), ih h.2]
    rfl

section Fields

variable {name : Text} (hname : name.IsScalar) {v : Json} {t : Text} (h : Reads v t) {before : Fields}
  (hnew : name ∉ before.map Prod.fst) {fuel : Nat} (hfuel : 2 * t.length ≤ fuel)

include hname h hnew hfuel

/-- The last field of an object ends it. -/
theorem members_last (level : Nat) (rest : Text) :
    members Numeral.digitLimit (fuel + 1) before
        (fieldText name t ++ (newLine level ++ .char '\x7d' :: rest)) =
      .ok (before ++ [(name, v)], rest) := by
  have hvalue := h.value hfuel (ends_newLine level (.char '\x7d' :: rest))
  simp only [fieldText, writtenString, List.cons_append, List.append_assoc, List.nil_append, members,
    string_written hname, skipSpace_of_head (show isSpace (.char ':') = false from rfl),
    skipSpace_blank, h.skipSpace, hvalue, setField_of_notMem hnew, skipSpace_newLine,
    skipSpace_of_head (show isSpace (.char '\x7d') = false from rfl)]

/-- Behind any other field the reader goes on with the next. -/
theorem members_next (level : Nat) (rest : Text) :
    members Numeral.digitLimit (fuel + 1) before
        (fieldText name t ++ .char ',' :: (newLine level ++ rest)) =
      members Numeral.digitLimit fuel (before ++ [(name, v)]) (skipSpace rest) := by
  have hvalue := h.value hfuel (ends_comma (newLine level ++ rest))
  simp only [fieldText, writtenString, List.cons_append, List.append_assoc, List.nil_append, members,
    string_written hname, skipSpace_of_head (show isSpace (.char ':') = false from rfl),
    skipSpace_blank, h.skipSpace, hvalue, setField_of_notMem hnew, skipSpace_newLine,
    skipSpace_of_head (show isSpace (.char ',') = false from rfl)]

end Fields

theorem isPrinted_fieldText {name : Text} (hname : name.IsScalar) {v : Json} {t : Text}
    (h : Reads v t) : ∀ p ∈ fieldText name t, p.IsPrinted := by
  simp only [fieldText, List.forall_mem_cons, List.forall_mem_append]
  exact ⟨isPrinted_writtenString hname, by decide, by decide, h.printed⟩

theorem skipSpace_fieldText (name t rest : Text) :
    skipSpace (fieldText name t ++ rest) = fieldText name t ++ rest :=
  skipSpace_of_head rfl _

theorem notMem_of_nodup {before fields : Fields} {name : Text} {v : Json}
    (h : ((before ++ (name, v) :: fields).map Prod.fst).Nodup) : name ∉ before.map Prod.fst := by
  rw [List.map_append, List.nodup_append] at h
  exact fun hm => h.2.2 name hm name List.mem_cons_self rfl

theorem readsFields_nil : ReadsFields [] [] where
  members hname h before hnodup level fuel rest hfuel := by
    simp only [List.length_nil] at hfuel
    exact members_last hname h (notMem_of_nodup hnodup) (by omega) level rest
  printed p hp := absurd hp List.not_mem_nil

theorem readsFields_cons {name : Text} {v : Json} {t : Text} {fields : Fields} {ts : Text}
    (level : Nat) (hname : name.IsScalar) (h : Reads v t) (hs : ReadsFields fields ts) :
    ReadsFields ((name, v) :: fields) (.char ',' :: (newLine level ++ fieldText name t ++ ts)) where
  members {other w u} hother hw before hnodup closing fuel rest hfuel := by
    simp only [List.length_cons, List.length_append, fieldText] at hfuel
    obtain ⟨k, rfl⟩ : ∃ k, fuel = k + 1 := ⟨fuel - 1, by omega⟩
    have hnext := hs.members hname h (before ++ [(other, w)]) (by simpa using hnodup) closing k rest
      (by omega)
    simp only [List.cons_append, List.append_assoc]
    rw [members_next hother hw (notMem_of_nodup hnodup) (by omega), skipSpace_fieldText, hnext,
      List.append_assoc, List.singleton_append]
  printed := by
    simp only [List.forall_mem_cons, List.forall_mem_append]
    exact ⟨by decide, ⟨isPrinted_newLine _, isPrinted_fieldText hname h⟩, hs.printed⟩

theorem reads_obj_nil : Reads (.obj []) ['\x7b', '\x7d'] where
  found _ _ _ _ := rfl
  front := ⟨_, _, rfl, rfl, by decide⟩
  printed := by decide

theorem reads_obj_cons {name : Text} {v : Json} {t : Text} {fields : Fields} {ts : Text}
    (level : Nat) (hname : name.IsScalar) (h : Reads v t) (hs : ReadsFields fields ts)
    (hnodup : (((name, v) :: fields).map Prod.fst).Nodup) :
    Reads (.obj ((name, v) :: fields))
      (.char '\x7b' :: (newLine (level + 1) ++ fieldText name t ++ ts ++ newLine level ++
        [.char '\x7d'])) where
  found fuel rest hfuel _ := by
    simp only [List.length_cons, List.length_append, fieldText] at hfuel
    obtain ⟨k, rfl⟩ : ∃ k, fuel = k + 1 := ⟨fuel - 1, by omega⟩
    have hmembers := hs.members hname h [] hnodup level k rest (by omega)
    simp only [List.cons_append, List.append_assoc, List.nil_append, value, skipSpace_newLine,
      skipSpace_fieldText]
    obtain ⟨tail, he⟩ : ∃ tail, fieldText name t = .char '"' :: tail := ⟨_, rfl⟩
    rw [he, List.cons_append] at hmembers ⊢
    simp [hmembers]
  front := ⟨_, _, rfl, rfl, by decide⟩
  printed := by
    simp only [List.forall_mem_cons, List.forall_mem_append]
    exact ⟨by decide, ⟨⟨⟨isPrinted_newLine _, isPrinted_fieldText hname h⟩, hs.printed⟩,
      isPrinted_newLine _⟩, by decide⟩

end Reader

/-! ## The round trip -/

mutual

/-- A value that is read back as it was written: no floating-point numbers, no integers that are too
long, no halves of surrogate pairs, no two fields of one name. -/
def Storable : Json → Prop
  | .null => True
  | .bool _ => True
  | .int n => (Nat.repr n.natAbs).length ≤ Numeral.digitLimit
  | .real _ => False
  | .str s => s.IsScalar
  | .arr items => StorableItems items
  | .obj fields => (fields.map Prod.fst).Nodup ∧ StorableFields fields

/-- All items of an array are storable. -/
def StorableItems : List Json → Prop
  | [] => True
  | v :: vs => Storable v ∧ StorableItems vs

/-- All fields of an object are storable. -/
def StorableFields : List (Text × Json) → Prop
  | [] => True
  | (name, v) :: fields => name.IsScalar ∧ Storable v ∧ StorableFields fields

end

namespace Writer

open Reader

mutual

/-- A storable value is written, and its text is read back. -/
theorem exists_prettyAt (level : Nat) :
    (v : Json) → Storable v → ∃ t, prettyAt level v = .ok t ∧ Reads v t
  | .null, _ => ⟨_, rfl, reads_null⟩
  | .bool b, _ => ⟨_, rfl, reads_bool b⟩
  | .int n, h => ⟨_, if_neg (Nat.not_lt.2 h), reads_int h⟩
  | .str s, h => ⟨_, rfl, reads_str h⟩
  | .arr [], _ => ⟨_, rfl, reads_arr_nil⟩
  | .arr (v :: vs), h => by
    obtain ⟨t, ht, hv⟩ := exists_prettyAt (level + 1) v h.1
    obtain ⟨ts, hts, hvs⟩ := exists_prettyItems (level + 1) vs h.2
    exact ⟨_, by rw [prettyAt, ht, hts], reads_arr_cons level hv hvs⟩
  | .obj [], _ => ⟨_, rfl, reads_obj_nil⟩
  | .obj ((name, v) :: fields), h => by
    obtain ⟨t, ht, hv⟩ := exists_prettyAt (level + 1) v h.2.2.1
    obtain ⟨ts, hts, hfields⟩ := exists_prettyFields (level + 1) fields h.2.2.2
    refine ⟨_, ?_, reads_obj_cons level h.2.1 hv hfields h.1⟩
    rw [prettyAt, ht, hts]
    simp only [fieldText, List.append_assoc]

theorem exists_prettyItems (level : Nat) :
    (vs : List Json) → StorableItems vs → ∃ ts, prettyItems level vs = .ok ts ∧ ReadsItems vs ts
  | [], _ => ⟨_, rfl, readsItems_nil⟩
  | v :: vs, h => by
    obtain ⟨t, ht, hv⟩ := exists_prettyAt level v h.1
    obtain ⟨ts, hts, hvs⟩ := exists_prettyItems level vs h.2
    exact ⟨_, by rw [prettyItems, ht, hts], readsItems_cons level hv hvs⟩

theorem exists_prettyFields (level : Nat) :
    (fields : List (Text × Json)) → StorableFields fields →
      ∃ ts, prettyFields level fields = .ok ts ∧ ReadsFields fields ts
  | [], _ => ⟨_, rfl, readsFields_nil⟩
  | (name, v) :: fields, h => by
    obtain ⟨t, ht, hv⟩ := exists_prettyAt level v h.2.1
    obtain ⟨ts, hts, hfields⟩ := exists_prettyFields level fields h.2.2
    refine ⟨_, ?_, readsFields_cons level h.1 hv hfields⟩
    rw [prettyFields, ht, hts]
    simp only [fieldText, List.append_assoc]

end

end Writer

/-- A text that is read as a value is read as a document. -/
theorem Reader.Reads.document {v : Json} {t : Text} (h : Reads v t) :
    document Numeral.digitLimit t = .ok v := by
  have hmark : ¬t.head? = some (.char '\uFEFF') := fun he => by
    have hprinted := h.printed _ (List.mem_of_mem_head? he)
    revert hprinted
    decide
  have hvalue : Reader.value Numeral.digitLimit (2 * t.length + 2) (t ++ []) = .ok (v, []) :=
    h.value (by omega) ends_nil
  have hskip := h.skipSpace []
  rw [List.append_nil] at hvalue hskip
  rw [Reader.document, if_neg hmark, hskip, hvalue]
  rfl

/-- **A storable value is read back from its indented text,** which is of printed characters only. -/
theorem read_pretty {v : Json} (h : Storable v) :
    ∃ text, pretty v = .ok text ∧ (∀ p ∈ text, p.IsPrinted) ∧ read text = .ok v := by
  obtain ⟨text, hpretty, hreads⟩ := Writer.exists_prettyAt 0 v h
  refine ⟨text, hpretty, hreads.printed, ?_⟩
  rw [read, readWithin, hreads.document]
  rfl

end Json
end LadderLogic
