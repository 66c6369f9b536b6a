import LadderLogic.Proofs.Blocks

/-!
# What each step makes of a block

For each way to go on with a drawing: how the new block fits (`Fits`), and what it carries
(`Carries`) in terms of the blocks before. A contact in parallel adds what it lets through, an element
in series passes on what it lets through, a join in parallel carries what one of the blocks carries, a
join in series what both of them do, and a branch what came in at its anchor. Power inside of what was
drawn before stays, but for a join in series, which puts the block in front before it.

Source: the block operations of `_LayoutBuilder`, and `energize` (sections 4.1 and 4.3 of the
specification).
-/

namespace LadderLogic

namespace Sheet

open Grid

variable {rows : List Row} {bits : Text → Bool} {a b : Block} {bottom x y : Nat} {read : Bool}
  {i : Instruction} {n : Nat}

/-! ## A new row -/

/-- A contact at the rail, on a new row below all others. -/
def openRow (rows : List Row) (i : Instruction) (n : Nat) : List Row :=
  put (rows ++ [[]]) 0 rows.length i n

@[simp]
theorem length_openRow (rows : List Row) (i : Instruction) (n : Nat) :
    (openRow rows i n).length = rows.length + 1 := by
  simp [openRow]

theorem rowAt_openRow_of_ne (hy : y ≠ rows.length) : rowAt (openRow rows i n) y = rowAt rows y := by
  rw [openRow, put, rowAt_modify _ _ (by simp), if_neg hy, rowAt_append_nil]

theorem length_rowAt_openRow : (rowAt (openRow rows i n) rows.length).length = 1 := by
  rw [openRow, length_rowAt_put _ _ _ _ (by simp), if_pos rfl, rowAt_append_nil,
    rowAt_of_length_le (Nat.le_refl _)]
  rfl

theorem cellAt_openRow_zero :
    cellAt (openRow rows i n) 0 rows.length = { instruction := some i, source := some n } := by
  rw [openRow, cellAt_put _ _ _ _ _ (by simp), if_pos ⟨rfl, rfl⟩, cellAt_append_nil,
    cellAt_of_height_le (Nat.le_refl _)]

theorem wired_openRow (hw : Wired (cellAt rows)) : Wired (cellAt (openRow rows i n)) := by
  rw [← cellAt_append_nil_eq] at hw
  exact wired_put hw (by simp)

theorem fed_openRow (hf : Fed rows) : Fed (openRow rows i n) := by
  intro x y hne
  rw [openRow, cellAt_put _ _ _ _ _ (by simp), if_neg (by omega), cellAt_append_nil] at hne ⊢
  exact hf x y hne

theorem agree_openRow (hw : Wired (cellAt rows)) (bits : Text → Bool) :
    Agree bits (fun x' y' => ¬(y' = rows.length ∧ 0 ≤ x')) (cellAt rows)
      (cellAt (openRow rows i n)) := by
  rw [← cellAt_append_nil_eq] at hw ⊢
  refine agree_put hw bits (by simp) ?_
  rw [rowAt_append_nil, rowAt_of_length_le (Nat.le_refl _)]
  exact Nat.le_refl 0

theorem outlet_openRow (hw : Wired (cellAt rows)) :
    Outlet (cellAt (openRow rows i n)) bits 0 rows.length ↔
      Cell.conducts bits { instruction := some i } = true := by
  rw [outlet_of_untied (wired_openRow hw) (by rw [cellAt_openRow_zero])
    (by rw [cellAt_openRow_zero]), cellAt_openRow_zero]
  exact and_iff_right (inlet_zero _ bits _)

/-- The new row is a block of its own. -/
theorem fits_openRow (rows : List Row) (i : Instruction) (n : Nat) :
    Fits (openRow rows i n) { width := 1, out := rows.length, top := rows.length }
      (rows.length + 1) false := by
  have htip : tip (openRow rows i n) rows.length = { instruction := some i, source := some n } := by
    rw [tip, length_rowAt_openRow]
    exact cellAt_openRow_zero
  have hrow (x : Nat) : (cellAt (openRow rows i n) x rows.length).up = false := by
    cases x with
    | zero => rw [cellAt_openRow_zero]
    | succ x =>
      rw [cellAt_of_length_le]
      rw [length_rowAt_openRow]
      omega
  refine fits_of_nil rfl (Nat.le_refl _) (Nat.lt_succ_self _) length_rowAt_openRow Nat.one_pos ?_ ?_
    (fun _ => ?_) fun _ => hrow
  · intro y h₁ h₂ _ h₃
    change rows.length ≤ y at h₁
    change y ≠ rows.length at h₃
    omega
  · rw [htip]
    rfl
  · rw [htip]
    exact ⟨rfl, rfl⟩

theorem carries_openRow (hw : Wired (cellAt rows)) :
    Carries (openRow rows i n) bits { width := 1, out := rows.length, top := rows.length } ↔
      Cell.conducts bits { instruction := some i } = true := by
  rw [carries_of_nil rfl, length_rowAt_openRow]
  exact outlet_openRow hw

/-! ## A contact in parallel -/

/-- The new row is an open row of the block. -/
theorem fits_parallel (hf : Fits rows b rows.length read) (i : Instruction) (n : Nat) :
    Fits (openRow rows i n) { b with pending := b.pending ++ [rows.length] } (rows.length + 1)
      read := by
  have hf' : Fits (openRow rows i n) b rows.length read :=
    hf.congr fun y hy => rowAt_openRow_of_ne (Nat.ne_of_lt hy)
  have hnew := fits_openRow rows i n
  have hmem {r : Nat} (hr : r ∈ b.out :: (b.pending ++ [rows.length])) :
      r ∈ b.rows ∨ r ∈ [rows.length] := by
    rw [← List.cons_append, List.mem_append] at hr
    exact hr
  refine ⟨hf.top_le, ?_, fun r hr => ?_, hf'.length_out, fun r hr => ?_, fun y h₁ h₂ h₃ h₄ => ?_,
    fun r hr => ?_, fun r hr => ?_, hf'.top_clear⟩
  · change (b.out :: (b.pending ++ [rows.length])).Pairwise (· < ·)
    rw [← List.cons_append, List.pairwise_append]
    refine ⟨hf.sorted, List.pairwise_singleton _ _, fun r hr r' hr' => ?_⟩
    rw [List.mem_singleton.1 hr']
    exact hf.lt_bottom r hr
  · rcases hmem hr with h | h
    · exact Nat.lt_succ_of_lt (hf.lt_bottom r h)
    · exact hnew.lt_bottom r h
  · rcases hmem hr with h | h
    · exact hf'.length_open r h
    · have := hnew.length_open r h
      exact ⟨this.1, Nat.le_trans this.2 hf.width_pos⟩
  · -- the new row is open, so a closed row is one of the rows before
    change y ∉ b.out :: (b.pending ++ [rows.length]) at h₄
    rw [← List.cons_append, List.mem_append, not_or, List.mem_singleton] at h₄
    exact hf'.length_closed y h₁ (by omega) h₃ h₄.1
  · rcases hmem hr with h | h
    · exact hf'.tip_drawn r h
    · exact hnew.tip_drawn r h
  · rcases hmem hr with h | h
    · exact hf'.tip_free r h
    · exact hnew.tip_free r h

theorem carries_parallel (hw : Wired (cellAt rows)) (hf : Fits rows b rows.length read) :
    Carries (openRow rows i n) bits { b with pending := b.pending ++ [rows.length] } ↔
      Carries rows bits b ∨ Cell.conducts bits { instruction := some i } = true := by
  have hold {r : Nat} (hr : r ∈ b.rows) :
      Outlet (cellAt (openRow rows i n)) bits ((rowAt (openRow rows i n) r).length - 1) r ↔
        Outlet (cellAt rows) bits ((rowAt rows r).length - 1) r := by
    have hne : r ≠ rows.length := Nat.ne_of_lt (hf.lt_bottom r hr)
    rw [rowAt_openRow_of_ne hne]
    exact (agree_openRow hw bits).outlet (fun h => hne h.1)
  rw [← @outlet_openRow rows bits i n hw]
  constructor
  · rintro ⟨r, hr, ho⟩
    change r ∈ b.out :: (b.pending ++ [rows.length]) at hr
    rw [← List.cons_append, List.mem_append] at hr
    rcases hr with hr | hr
    · exact .inl ⟨r, hr, (hold hr).1 ho⟩
    · rw [List.mem_singleton.1 hr, length_rowAt_openRow] at ho
      exact .inr ho
  · rintro (⟨r, hr, ho⟩ | ho)
    · exact ⟨r, List.mem_append_left [rows.length] hr, (hold hr).2 ho⟩
    · refine ⟨rows.length, List.mem_append_right b.rows (List.mem_singleton_self _), ?_⟩
      rw [length_rowAt_openRow]
      exact ho

/-! ## An element in series -/

theorem fed_putWired {column : Nat} (hf : Fed rows) (hy : y < rows.length) (hpos : 0 < column)
    (hend : (cellAt rows (column - 1) y).isEmpty = false) :
    Fed (putWired rows column y i n) := by
  intro x' y' hne
  by_cases hnew : y' = y ∧ x' + 1 = column
  · left
    rw [cellAt_putWired _ _ _ _ _ hy]
    simp [hnew, hpos]
  · -- in front of the element there is something that was fed before
    have hold : (cellAt rows (x' + 1) y').isEmpty = false := by
      by_cases he : y' = y ∧ x' + 1 = column - 1
      · rw [he.1, he.2]
        exact hend
      · have h₁ : ¬(y' = y ∧ x' + 1 = column ∧ 0 < column) := by omega
        have h₂ : ¬(y' = y ∧ x' + 1 + 1 = column) := by omega
        rw [cellAt_putWired _ _ _ _ _ hy, cellAt_put _ _ _ _ _ hy, if_neg (by omega)] at hne
        simpa only [h₁, h₂, decide_false, Bool.or_false] using hne
    rw [cellAt_putWired _ _ _ _ _ hy, cellAt_put _ _ _ _ _ hy, if_neg (by omega)]
    rcases hf x' y' hold with h | h <;> simp [h]

section Series

variable {tied : List Row} (hf : Fits rows b rows.length read) (ht : Tied rows tied bits b rows.length)

include hf ht

theorem Tied.out_lt : b.out < tied.length := by
  rw [ht.length_eq]
  exact hf.out_lt

theorem wired_series : Wired (cellAt (putWired tied b.width b.out i n)) :=
  wired_putWired ht.wired (ht.out_lt hf)

theorem fed_series (hfed : Fed rows) : Fed (putWired tied b.width b.out i n) := by
  refine fed_putWired (ht.fed hfed) (ht.out_lt hf) hf.width_pos (ht.drawn _ _ ?_)
  have := hf.tip_drawn b.out (out_mem_rows b)
  rwa [tip, hf.length_out] at this

theorem length_rowAt_series (y : Nat) : (rowAt (putWired tied b.width b.out i n) y).length =
    if y = b.out then b.width + 1 else (rowAt tied y).length := by
  rw [length_rowAt_putWired _ _ _ _ (ht.out_lt hf)]
  split
  · next h =>
    rw [h, ht.length_out]
    omega
  · rfl

theorem rowAt_series_of_lt (hy : y < b.out) :
    rowAt (putWired tied b.width b.out i n) y = rowAt rows y := by
  rw [putWired, rowAt_modify _ _ (by rw [length_put]; exact ht.out_lt hf), if_neg (by omega), put,
    rowAt_modify _ _ (ht.out_lt hf), if_neg (by omega)]
  exact ht.above y hy

/-- Power inside of what was drawn stays. -/
theorem inlet_series (hx : x < (rowAt rows y).length) :
    Inlet (cellAt (putWired tied b.width b.out i n)) bits x y ↔ Inlet (cellAt rows) bits x y := by
  have hout : ¬(y = b.out ∧ b.width ≤ x) := by
    rintro ⟨rfl, h⟩
    rw [hf.length_out] at hx
    omega
  exact ((agree_putWired ht.wired bits (ht.out_lt hf) (Nat.le_of_eq ht.length_out)).inlet hout).trans
    (ht.inlet x y hx)

/-- The element gets what the block carries. -/
theorem inlet_series_end :
    Inlet (cellAt (putWired tied b.width b.out i n)) bits b.width b.out ↔ Carries rows bits b := by
  obtain ⟨w, hw⟩ : ∃ w, b.width = w + 1 := ⟨b.width - 1, by have := hf.width_pos; omega⟩
  have hlen := ht.length_out
  rw [← ht.outlet, hw, Nat.add_sub_cancel]
  exact inlet_putWired ht.wired (ht.out_lt hf) (by omega)

theorem outlet_series_end :
    Outlet (cellAt (putWired tied b.width b.out i n)) bits b.width b.out ↔
      Carries rows bits b ∧ Cell.conducts bits { instruction := some i } = true := by
  obtain ⟨w, hw⟩ : ∃ w, b.width = w + 1 := ⟨b.width - 1, by have := hf.width_pos; omega⟩
  have hlen := ht.length_out
  rw [← ht.outlet, hw, Nat.add_sub_cancel]
  exact outlet_putWired ht.wired (ht.out_lt hf) (by omega)

/-- The block goes on with the element at its end. -/
theorem fits_series : Fits (putWired tied b.width b.out i n)
    { b with width := b.width + 1, pending := [] } rows.length read := by
  have hlen := length_rowAt_series (i := i) (n := n) hf ht
  have hblank := cellAt_of_length_le (Nat.le_of_eq ht.length_out)
  have htip : tip (putWired tied b.width b.out i n) b.out =
      { instruction := some i, source := some n, left := true } := by
    rw [tip, hlen, if_pos rfl, Nat.add_sub_cancel, cellAt_putWired _ _ _ _ _ (ht.out_lt hf),
      cellAt_put _ _ _ _ _ (ht.out_lt hf), if_pos ⟨rfl, rfl⟩, hblank]
    simp [hf.width_pos]
  refine fits_of_nil rfl hf.top_le hf.out_lt (by rw [hlen, if_pos rfl]) (Nat.succ_pos _) ?_ ?_
    (fun _ => ?_) ?_
  · intro y h₁ h₂ h₃ hne
    change y ≠ b.out at hne
    rw [hlen, if_neg hne]
    change 0 < (rowAt tied y).length ∧ (rowAt tied y).length < b.width + 1
    rcases Nat.lt_or_ge y b.out with hlt | hge
    · have hout : y ∉ b.rows := fun h => absurd (hf.out_le h) (by omega)
      have := hf.length_closed y h₁ h₂ h₃ hout
      rw [ht.above y hlt]
      omega
    · have := ht.length_le y hge h₂
      omega
  · rw [htip]
    rfl
  · rw [htip]
    exact ⟨rfl, rfl⟩
  · intro hread x
    have hup : (cellAt (putWired tied b.width b.out i n) x b.top).up = (cellAt tied x b.top).up := by
      rw [cellAt_putWired _ _ _ _ _ (ht.out_lt hf), cellAt_put _ _ _ _ _ (ht.out_lt hf)]
      split
      · next h => rw [h.1, h.2]
      · rfl
    refine hup.trans ?_
    rw [← hf.top_clear hread x]
    rcases Nat.lt_or_eq_of_le hf.top_le with hlt | he
    · rw [cellAt, ht.above _ hlt, cellAt]
    · rw [he, ht.up_out]

theorem carries_series : Carries (putWired tied b.width b.out i n) bits
      { b with width := b.width + 1, pending := [] } ↔
    Carries rows bits b ∧ Cell.conducts bits { instruction := some i } = true := by
  rw [carries_of_nil rfl, length_rowAt_series hf ht, if_pos rfl]
  exact outlet_series_end hf ht

end Series

/-! ## A join in parallel -/

section Parallel

variable {width : Nat} (ha : Fits rows a b.top read) (hb : Fits rows b rows.length false)

include ha hb

/-- The open rows of both blocks, drawn to a common width, end there. -/
theorem length_rowAt_joinParallel {r : Nat} (hA : a.width ≤ width) (hB : b.width ≤ width)
    (hr : r ∈ a.rows ++ b.rows) :
    (rowAt (wireRowsTo rows (a.rows ++ b.rows) width) r).length = width := by
  have hle := hb.top_le
  have hout := hb.out_lt
  have h : r < rows.length ∧ (rowAt rows r).length ≤ width := by
    rcases List.mem_append.1 hr with h | h
    · have := ha.lt_bottom r h
      have := ha.length_open r h
      omega
    · have := hb.lt_bottom r h
      have := hb.length_open r h
      omega
  rw [length_rowAt_wireRowsTo, if_pos ⟨h.1, hr⟩]
  omega

/-- The blocks become one, with the open rows of both. -/
theorem fits_joinParallel (hA : a.width ≤ width) (hB : b.width ≤ width) :
    Fits (wireRowsTo rows (a.rows ++ b.rows) width)
      { width, out := a.out, pending := a.pending ++ b.rows, top := a.top } rows.length read := by
  have htop := hb.top_le
  have hout := hb.out_lt
  have hpos := ha.width_pos
  have hlen {r : Nat} (hr : r ∈ a.rows ++ b.rows) := length_rowAt_joinParallel ha hb hA hB hr
  have hlt {r : Nat} (hr : r ∈ a.rows ++ b.rows) : r < rows.length := by
    rcases List.mem_append.1 hr with h | h
    · have := ha.lt_bottom r h
      omega
    · exact hb.lt_bottom r h
  have hopen {r : Nat} (hr : r ∈ a.rows ++ b.rows) : 0 < (rowAt rows r).length ∧
      (rowAt rows r).length ≤ width ∧ (tip rows r).isEmpty = false ∧
      ((tip rows r).isDrop = false → (tip rows r).up = false ∧ (tip rows r).down = false) := by
    rcases List.mem_append.1 hr with h | h
    · have := ha.length_open r h
      exact ⟨this.1, by omega, ha.tip_drawn r h, ha.tip_free r h⟩
    · have := hb.length_open r h
      exact ⟨this.1, by omega, hb.tip_drawn r h, hb.tip_free r h⟩
  refine ⟨ha.top_le, ?_, fun r hr => hlt hr, hlen (List.mem_append_left _ (out_mem_rows a)),
    fun r hr => ?_, fun y h₁ h₂ h₃ h₄ => ?_, fun r hr => ?_, fun r hr => ?_, fun hread x => ?_⟩
  · change (a.rows ++ b.rows).Pairwise (· < ·)
    refine List.pairwise_append.2 ⟨ha.sorted, hb.sorted, fun r hr r' hr' => ?_⟩
    have := ha.lt_bottom r hr
    have := hb.out_le hr'
    omega
  · rw [hlen hr]
    exact ⟨by omega, Nat.le_refl _⟩
  · change y ∉ a.rows ++ b.rows at h₄
    have hn := h₄
    rw [List.mem_append, not_or] at hn
    change 0 < (rowAt (wireRowsTo rows (a.rows ++ b.rows) width) y).length ∧
      (rowAt (wireRowsTo rows (a.rows ++ b.rows) width) y).length < width
    rw [rowAt_wireRowsTo_of_notMem h₄]
    rcases Nat.lt_or_ge y b.top with hy | hy
    · have := ha.length_closed y h₁ hy h₃ hn.1
      omega
    · have := hb.length_closed y hy h₂ (fun h => nomatch h) hn.2
      omega
  · have h := hopen hr
    rw [tip, hlen hr]
    by_cases he : (rowAt rows r).length = width
    · refine drawn_wireRowsTo ?_
      rw [← he]
      exact h.2.2.1
    · rw [isEmpty_eq_false, cellAt_wireRowsTo]
      have hwire : r < rows.length ∧ r ∈ a.rows ++ b.rows ∧ (rowAt rows r).length ≤ width - 1 ∧
          0 < width - 1 ∧ width - 1 < width := ⟨hlt hr, hr, by omega, by omega, by omega⟩
      simp only [hwire, and_self, decide_true, Bool.or_true, true_or, or_true]
  · have h := hopen hr
    rw [tip, hlen hr, cellAt_wireRowsTo]
    by_cases he : (rowAt rows r).length = width
    · rw [← he]
      exact h.2.2.2
    · intro _
      rw [cellAt_of_length_le (by omega)]
      exact ⟨rfl, rfl⟩
  · rw [cellAt_wireRowsTo]
    exact ha.top_clear hread x

theorem carries_joinParallel (hw : Wired (cellAt rows)) (hA : a.width ≤ width)
    (hB : b.width ≤ width) : Carries (wireRowsTo rows (a.rows ++ b.rows) width) bits
      { width, out := a.out, pending := a.pending ++ b.rows, top := a.top } ↔
    Carries rows bits a ∨ Carries rows bits b := by
  have hpos := ha.width_pos
  have hwire {r : Nat} (hr : r ∈ a.rows ++ b.rows) :
      Outlet (cellAt (wireRowsTo rows (a.rows ++ b.rows) width)) bits
          ((rowAt (wireRowsTo rows (a.rows ++ b.rows) width) r).length - 1) r ↔
        Outlet (cellAt rows) bits ((rowAt rows r).length - 1) r := by
    have htop := hb.top_le
    have hout := hb.out_lt
    rw [length_rowAt_joinParallel ha hb hA hB hr]
    rcases List.mem_append.1 hr with h | h
    · have := ha.lt_bottom r h
      have := ha.length_open r h
      exact outlet_wireRowsTo hw hr (by omega) (by omega) (by omega) (by omega)
    · have := hb.lt_bottom r h
      have := hb.length_open r h
      exact outlet_wireRowsTo hw hr (by omega) (by omega) (by omega) (by omega)
  constructor
  · rintro ⟨r, hr, ho⟩
    change r ∈ a.rows ++ b.rows at hr
    have ho := (hwire hr).1 ho
    rcases List.mem_append.1 hr with h | h
    · exact .inl ⟨r, h, ho⟩
    · exact .inr ⟨r, h, ho⟩
  · rintro (⟨r, hr, ho⟩ | ⟨r, hr, ho⟩)
    · have hr := List.mem_append_left b.rows hr
      exact ⟨r, hr, (hwire hr).2 ho⟩
    · have hr := List.mem_append_right a.rows hr
      exact ⟨r, hr, (hwire hr).2 ho⟩

end Parallel

/-! ## A join in series -/

section JoinSeries

variable {tied : List Row} (ha : Fits rows a b.top read) (hb : Fits rows b rows.length false)
  (ht : Tied rows tied bits a b.top)

include ha hb ht

theorem joins_tied : Joins tied a b.top where
  wired := ht.wired
  width_pos := ha.width_pos
  out_lt := ha.out_lt
  top_lt := by
    have := hb.top_le
    have := hb.out_lt
    rw [ht.length_eq]
    omega
  cut := fun x => by
    rw [ht.cellAt_below (Nat.le_refl _)]
    exact hb.top_clear rfl x
  length_le := fun y h₁ h₂ => (ht.length_le y h₁ h₂).2

/-- Tying the block in front is not felt by the block behind. -/
theorem agree_tied (hw : Wired (cellAt rows)) :
    Agree bits (fun _ y => b.top ≤ y) (cellAt rows) (cellAt tied) := by
  refine agree_ge (fun x => .of_up hw (hb.top_clear rfl x)) (joins_tied ha hb ht).cut_top
    fun x y hy => ?_
  rw [ht.cellAt_below hy]
  exact ⟨rfl, rfl, rfl⟩

/-- Power in front of the junction stays. -/
theorem inlet_joinSeries_above (hy : y < b.top) (hne : (cellAt rows x y).isEmpty = false) :
    Inlet (cellAt (seriesRows tied a b.top)) bits x y ↔ Inlet (cellAt rows) bits x y := by
  have hdrawn {rows : List Row} (hne : (cellAt rows x y).isEmpty = false) :
      x < (rowAt rows y).length := Nat.lt_of_not_le fun hle => by
    rw [cellAt_of_length_le hle] at hne
    cases hne
  have hj := joins_tied ha hb ht
  rw [← ht.inlet x y (hdrawn hne)]
  refine (agree_seriesRows hj bits).inlet ⟨hy, fun hle => ?_⟩
  exact Nat.lt_of_lt_of_le (hdrawn (ht.drawn x y hne)) (hj.length_le y hle hy)

/-- Power behind the junction stays if the block in front carries it. -/
theorem inlet_joinSeries_behind (hw : Wired (cellAt rows)) (hy : b.top ≤ y)
    (hne : (cellAt rows x y).isEmpty = false) :
    Inlet (cellAt (seriesRows tied a b.top)) bits (x + (a.width + 1)) y ↔
      Carries rows bits a ∧ Inlet (cellAt rows) bits x y := by
  have hne' := hne
  rw [← ht.cellAt_below hy] at hne'
  rw [inlet_seriesRows_behind (joins_tied ha hb ht) hy hne', ht.outlet,
    (agree_tied ha hb ht hw).inlet hy]

theorem length_rowAt_joinSeries (h₁ : b.top ≤ y) (h₂ : y < rows.length) :
    (rowAt (seriesRows tied a b.top) y).length = (rowAt rows y).length + (a.width + 1) := by
  rw [length_rowAt_seriesRows_behind (joins_tied ha hb ht) h₁ (by rw [ht.length_eq]; exact h₂),
    ht.below y h₁]

/-- The end of an open row of the block behind moves along with it. -/
theorem tip_joinSeries {r : Nat} (hr : r ∈ b.rows) :
    ∃ l, tip (seriesRows tied a b.top) r = { tip rows r with left := (tip rows r).left || l } := by
  have hle := Nat.le_trans hb.top_le (hb.out_le hr)
  have hlen := hb.length_open r hr
  rw [tip, length_rowAt_joinSeries ha hb ht hle (hb.lt_bottom r hr),
    show (rowAt rows r).length + (a.width + 1) - 1 = (rowAt rows r).length - 1 + (a.width + 1) by
      omega,
    cellAt_seriesRows_behind (joins_tied ha hb ht) hle, ht.cellAt_below hle]
  exact ⟨_, rfl⟩

/-- The blocks become one, whose end is the end of the block behind. -/
theorem fits_joinSeries : Fits (seriesRows tied a b.top)
    { width := a.width + 1 + b.width, out := b.out, pending := b.pending, top := a.top }
    rows.length read := by
  have hj := joins_tied ha hb ht
  have htop := hb.top_le
  have hout := ha.out_lt
  have hpos := hb.width_pos
  have hlen {r : Nat} (hr : r ∈ b.rows) := length_rowAt_joinSeries ha hb ht
    (Nat.le_trans htop (hb.out_le hr)) (hb.lt_bottom r hr)
  refine ⟨?_, hb.sorted, hb.lt_bottom, ?_, fun r hr => ?_, fun y h₁ h₂ h₃ h₄ => ?_,
    fun r hr => ?_, fun r hr => ?_, fun hread x => ?_⟩
  · have := ha.top_le
    change a.top ≤ b.out
    omega
  · rw [hlen (out_mem_rows b), hb.length_out]
    exact Nat.add_comm _ _
  · have := hb.length_open r hr
    rw [hlen hr]
    change 0 < _ ∧ _ ≤ a.width + 1 + b.width
    omega
  · change y ∉ b.rows at h₄
    change read = true → b.out < y at h₃
    change 0 < _ ∧ _ < a.width + 1 + b.width
    rcases Nat.lt_or_ge y b.top with hy | hy
    · -- beside the block in front the junction is the last column
      rcases Nat.lt_or_ge y a.out with hy' | hy'
      · have hn : y ∉ a.rows := fun h => absurd (ha.out_le h) (by omega)
        have := ha.length_closed y h₁ hy (fun h => absurd (h₃ h) (by omega)) hn
        rw [rowAt_seriesRows_of_lt hj hy', ht.above y hy']
        omega
      · rw [length_rowAt_seriesRows_above hj hy' hy]
        omega
    · have := hb.length_closed y hy h₂ (fun h => nomatch h) h₄
      rw [length_rowAt_joinSeries ha hb ht hy h₂]
      omega
  · obtain ⟨l, h⟩ := tip_joinSeries ha hb ht hr
    have hold := hb.tip_drawn r hr
    rw [isEmpty_eq_false] at hold
    rw [h, isEmpty_eq_false]
    rcases hold with h | h | h | h | h <;> simp [h]
  · obtain ⟨l, h⟩ := tip_joinSeries ha hb ht hr
    rw [h]
    exact hb.tip_free r hr
  · have := ha.top_le
    have hy : a.top < b.top := by omega
    rw [cellAt_seriesRows_above hj hy, ← ha.top_clear hread x]
    have hnot : ¬(x = a.width ∧ a.out < a.top) := by omega
    simp only [hnot, decide_false, Bool.or_false]
    rcases Nat.lt_or_eq_of_le ha.top_le with hlt | he
    · rw [cellAt, ht.above _ hlt, cellAt]
    · rw [he, ht.up_out]

theorem carries_joinSeries (hw : Wired (cellAt rows)) : Carries (seriesRows tied a b.top) bits
      { width := a.width + 1 + b.width, out := b.out, pending := b.pending, top := a.top } ↔
    Carries rows bits a ∧ Carries rows bits b := by
  have hend {r : Nat} (hr : r ∈ b.rows) :
      Outlet (cellAt (seriesRows tied a b.top)) bits
          ((rowAt (seriesRows tied a b.top) r).length - 1) r ↔
        Carries rows bits a ∧ Outlet (cellAt rows) bits ((rowAt rows r).length - 1) r := by
    have hle := Nat.le_trans hb.top_le (hb.out_le hr)
    have hlen := hb.length_open r hr
    have hne : (cellAt tied ((rowAt rows r).length - 1) r).isEmpty = false := by
      rw [ht.cellAt_below hle]
      exact hb.tip_drawn r hr
    rw [length_rowAt_joinSeries ha hb ht hle (hb.lt_bottom r hr),
      show (rowAt rows r).length + (a.width + 1) - 1 = (rowAt rows r).length - 1 + (a.width + 1) by
        omega,
      outlet_seriesRows_behind (joins_tied ha hb ht) hle hne, ht.outlet,
      (agree_tied ha hb ht hw).outlet hle]
  constructor
  · rintro ⟨r, hr, ho⟩
    obtain ⟨hfront, ho⟩ := (hend hr).1 ho
    exact ⟨hfront, r, hr, ho⟩
  · rintro ⟨hfront, r, hr, ho⟩
    exact ⟨r, hr, (hend hr).2 ⟨hfront, ho⟩⟩

end JoinSeries

/-! ## A branch -/

theorem length_rowAt_dropBus (rows : List Row) (x y : Nat) (i : Instruction) (n : Nat) :
    (rowAt (dropBus rows x y i n) rows.length).length = x + 1 := by
  rw [dropBus, length_rowAt_put _ _ _ _ (by simp), if_pos rfl, length_rowAt_tie, rowAt_append_nil,
    rowAt_of_length_le (Nat.le_refl _)]
  split <;> simp

theorem fed_dropBus (hf : Fed rows) (hy : y < rows.length) (hne : (cellAt rows x y).isEmpty = false) :
    Fed (dropBus rows x y i n) := by
  have hf' : Fed (rows ++ [[]]) := by
    rw [Fed, cellAt_append_nil_eq]
    exact hf
  have htie : Fed (tie (rows ++ [[]]) x y rows.length) := fed_tie hf' (by
    rw [cellAt_append_nil]
    exact hne)
  intro x' y' hne'
  by_cases he : x' + 1 = x ∧ y' = rows.length
  · right
    rw [cellAt_dropBus, if_pos he]
    exact decide_eq_true hy
  · rw [dropBus, cellAt_put _ _ _ _ _ (by simp), if_neg he] at hne' ⊢
    exact htie x' y' hne'

/-- The drawing goes on at the end of the bus. -/
theorem fits_dropBus (b : Block) (hle : b.top ≤ rows.length) (x y : Nat) (n : Nat)
    (hi : i.isDrop = true) :
    Fits (dropBus rows x y i n) { b with width := x + 1, out := rows.length, pending := [] }
      (rows.length + 1) true := by
  have hlen := length_rowAt_dropBus rows x y i n
  have htip : tip (dropBus rows x y i n) rows.length =
      { instruction := some i, source := some n, up := decide (y < rows.length) } := by
    rw [tip, hlen, Nat.add_sub_cancel, cellAt_dropBus, if_pos ⟨rfl, rfl⟩]
  refine fits_of_nil rfl hle (Nat.lt_succ_self _) hlen (Nat.succ_pos _) ?_ ?_ ?_
    (fun h => by cases h)
  · intro y' _ h₂ h₃ _
    have := h₃ rfl
    change rows.length < y' at this
    omega
  · rw [htip]
    rfl
  · intro h
    rw [htip] at h
    cases hi.symm.trans h

theorem carries_dropBus (b : Block) (x y : Nat) (i : Instruction) (n : Nat) :
    Carries (dropBus rows x y i n) bits
        { b with width := x + 1, out := rows.length, pending := [] } ↔
      Outlet (cellAt (dropBus rows x y i n)) bits x rows.length := by
  rw [carries_of_nil rfl, length_rowAt_dropBus, Nat.add_sub_cancel]

end Sheet
end LadderLogic
