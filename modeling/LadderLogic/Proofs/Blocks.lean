import LadderLogic.Proofs.SeriesJoin

/-!
# Blocks on a sheet

A block has open rows, which end at its width or before it, and closed rows between them, which end
before its width (`Fits`). So a tie of its open rows at its last column touches nothing else, and the
block carries power out on its output row as soon as one of its open rows does (`Carries`,
`tied_tiePending`). The lemmas of this module say for each drawing step how the block that it makes
fits, and what it carries.

A block into which a branch was read goes on from the end of a bus: of the rows above that end nothing
is known.

Source: `_Block` (sections 3 and 4.1 of the specification).
-/

namespace LadderLogic

/-- Whether an instruction reads or pops a branch. -/
def Instruction.isDrop (i : Instruction) : Bool :=
  i.operation = .known (.branch .read) || i.operation = .known (.branch .pop)

/-- Whether a cell holds the read or the pop of a branch. -/
def Cell.isDrop (c : Cell) : Bool :=
  match c.instruction with
  | some i => i.isDrop
  | none => false

namespace Sheet

open Grid

/-- The last cell drawn in a row. -/
def tip (rows : List Row) (y : Nat) : Cell := cellAt rows ((rowAt rows y).length - 1) y

/-- The form of a block, on the rows from its top to `bottom`. If a branch was `read` into it, this is
about the rows from its output row down. -/
structure Fits (rows : List Row) (b : Block) (bottom : Nat) (read : Bool) : Prop where
  top_le : b.top ≤ b.out
  sorted : b.rows.Pairwise (· < ·)
  lt_bottom : ∀ r ∈ b.rows, r < bottom
  length_out : (rowAt rows b.out).length = b.width
  length_open : ∀ r ∈ b.rows, 0 < (rowAt rows r).length ∧ (rowAt rows r).length ≤ b.width
  length_closed : ∀ y, b.top ≤ y → y < bottom → (read = true → b.out < y) → y ∉ b.rows →
    0 < (rowAt rows y).length ∧ (rowAt rows y).length < b.width
  tip_drawn : ∀ r ∈ b.rows, (tip rows r).isEmpty = false
  tip_free : ∀ r ∈ b.rows, (tip rows r).isDrop = false →
    (tip rows r).up = false ∧ (tip rows r).down = false
  top_clear : read = false → ∀ x, (cellAt rows x b.top).up = false

/-- Power comes to the end of one of the open rows of a block. -/
def Carries (rows : List Row) (bits : Text → Bool) (b : Block) : Prop :=
  ∃ r ∈ b.rows, Outlet (cellAt rows) bits ((rowAt rows r).length - 1) r

/-- The pending rows of a block can be tied: none of its open rows ends in a bus at its width. -/
def TiesFree (rows : List Row) (b : Block) : Prop :=
  b.pending ≠ [] → ∀ r ∈ b.rows, (cellAt rows (b.width - 1) r).isDrop = false

instance (rows : List Row) (b : Block) : Decidable (TiesFree rows b) :=
  inferInstanceAs (Decidable (_ → _))

variable {rows rows' : List Row} {bits : Text → Bool} {b : Block} {bottom x y : Nat} {read : Bool}

theorem out_mem_rows (b : Block) : b.out ∈ b.rows := List.mem_cons_self

theorem Fits.width_pos (hf : Fits rows b bottom read) : 0 < b.width := by
  have := hf.length_open b.out (out_mem_rows b)
  omega

theorem Fits.out_lt (hf : Fits rows b bottom read) : b.out < bottom :=
  hf.lt_bottom b.out (out_mem_rows b)

theorem Fits.out_le {r : Nat} (hf : Fits rows b bottom read) (hr : r ∈ b.rows) : b.out ≤ r := by
  rcases List.mem_cons.1 hr with rfl | hr
  · exact Nat.le_refl _
  · exact Nat.le_of_lt ((List.pairwise_cons.1 hf.sorted).1 r hr)

/-- A row below the output row that is not open ends before the width. -/
theorem Fits.closed (hf : Fits rows b bottom read) (h₁ : b.out ≤ y) (h₂ : y < bottom)
    (hy : y ∉ b.rows) : 0 < (rowAt rows y).length ∧ (rowAt rows y).length < b.width := by
  have hne : y ≠ b.out := fun h => hy (h ▸ out_mem_rows b)
  have htop := hf.top_le
  exact hf.length_closed y (by omega) h₂ (fun _ => by omega) hy

/-- The form of a block with no pending rows. -/
theorem fits_of_nil (hp : b.pending = []) (htop : b.top ≤ b.out) (hout : b.out < bottom)
    (hlen : (rowAt rows b.out).length = b.width) (hpos : 0 < b.width)
    (hclosed : ∀ y, b.top ≤ y → y < bottom → (read = true → b.out < y) → y ≠ b.out →
      0 < (rowAt rows y).length ∧ (rowAt rows y).length < b.width)
    (hdrawn : (tip rows b.out).isEmpty = false)
    (hfree : (tip rows b.out).isDrop = false →
      (tip rows b.out).up = false ∧ (tip rows b.out).down = false)
    (hclear : read = false → ∀ x, (cellAt rows x b.top).up = false) : Fits rows b bottom read := by
  have hrows : b.rows = [b.out] := by rw [Block.rows, hp]
  have hmem {r : Nat} (hr : r ∈ b.rows) : r = b.out := by
    rw [hrows] at hr
    exact List.mem_singleton.1 hr
  refine ⟨htop, ?_, fun r hr => ?_, hlen, fun r hr => ?_, fun y h₁ h₂ h₃ h₄ => ?_, fun r hr => ?_,
    fun r hr => ?_, hclear⟩
  · rw [hrows]
    exact List.pairwise_singleton _ _
  · rw [hmem hr]
    exact hout
  · rw [hmem hr, hlen]
    exact ⟨hpos, Nat.le_refl _⟩
  · exact hclosed y h₁ h₂ h₃ fun h => h₄ (h ▸ out_mem_rows b)
  · rw [hmem hr]
    exact hdrawn
  · rw [hmem hr]
    exact hfree

/-- The form of a block hangs on its own rows only. -/
theorem Fits.congr (hf : Fits rows b bottom read)
    (h : ∀ y < bottom, rowAt rows' y = rowAt rows y) : Fits rows' b bottom read := by
  have htip {r : Nat} (hr : r ∈ b.rows) : tip rows' r = tip rows r := by
    rw [tip, tip, cellAt, cellAt, h r (hf.lt_bottom r hr)]
  refine ⟨hf.top_le, hf.sorted, hf.lt_bottom, ?_, fun r hr => ?_, fun y h₁ h₂ h₃ h₄ => ?_,
    fun r hr => ?_, fun r hr => ?_, fun hread x => ?_⟩
  · rw [h _ hf.out_lt]
    exact hf.length_out
  · rw [h _ (hf.lt_bottom r hr)]
    exact hf.length_open r hr
  · rw [h y h₂]
    exact hf.length_closed y h₁ h₂ h₃ h₄
  · rw [htip hr]
    exact hf.tip_drawn r hr
  · rw [htip hr]
    exact hf.tip_free r hr
  · rw [cellAt, h b.top (Nat.lt_of_le_of_lt hf.top_le hf.out_lt)]
    exact hf.top_clear hread x

theorem carries_of_nil (hp : b.pending = []) : Carries rows bits b ↔
    Outlet (cellAt rows) bits ((rowAt rows b.out).length - 1) b.out := by
  rw [Carries, Block.rows, hp]
  constructor
  · rintro ⟨r, hr, h⟩
    rw [List.mem_singleton.1 hr] at h
    exact h
  · intro h
    exact ⟨b.out, List.mem_singleton_self _, h⟩

/-! ## Tying the pending rows -/

/-- What is left of a block once its pending rows are tied: its output row carries what the open rows
carried, and no row from it down goes past its width. -/
structure Tied (rows rows' : List Row) (bits : Text → Bool) (b : Block) (bottom : Nat) : Prop where
  length_eq : rows'.length = rows.length
  wired : Wired (cellAt rows')
  fed : Fed rows → Fed rows'
  above : ∀ y < b.out, rowAt rows' y = rowAt rows y
  below : ∀ y, bottom ≤ y → rowAt rows' y = rowAt rows y
  up_out : ∀ x, (cellAt rows' x b.out).up = (cellAt rows x b.out).up
  left_eq : ∀ x y, (y ∈ b.rows → x < (rowAt rows y).length) →
    (cellAt rows' x y).left = (cellAt rows x y).left
  drawn : ∀ x y, (cellAt rows x y).isEmpty = false → (cellAt rows' x y).isEmpty = false
  length_out : (rowAt rows' b.out).length = b.width
  length_le : ∀ y, b.out ≤ y → y < bottom →
    0 < (rowAt rows' y).length ∧ (rowAt rows' y).length ≤ b.width
  inlet : ∀ x y, x < (rowAt rows y).length →
    (Inlet (cellAt rows') bits x y ↔ Inlet (cellAt rows) bits x y)
  outlet : Outlet (cellAt rows') bits (b.width - 1) b.out ↔ Carries rows bits b

theorem Tied.cellAt_below (ht : Tied rows rows' bits b bottom) (hy : bottom ≤ y) (x : Nat) :
    cellAt rows' x y = cellAt rows x y := by
  rw [cellAt, ht.below y hy, cellAt]

theorem tied_of_nil (hw : Wired (cellAt rows)) (hf : Fits rows b bottom read)
    (hp : b.pending = []) (bits : Text → Bool) : Tied rows rows bits b bottom where
  length_eq := rfl
  wired := hw
  fed := id
  above := fun _ _ => rfl
  below := fun _ _ => rfl
  up_out := fun _ => rfl
  left_eq := fun _ _ _ => rfl
  drawn := fun _ _ h => h
  length_out := hf.length_out
  length_le := fun y h₁ h₂ => by
    by_cases hy : y ∈ b.rows
    · exact hf.length_open y hy
    · have := hf.closed h₁ h₂ hy
      omega
  inlet := fun _ _ _ => Iff.rfl
  outlet := by rw [carries_of_nil hp, hf.length_out]

/-- At the last column of a block its open rows, drawn up to there, have no ties. -/
theorem Fits.untied {r : Nat} (hf : Fits rows b bottom read) (hx : b.width = x + 1)
    (hfree : ∀ r ∈ b.rows, (cellAt rows x r).isDrop = false) (hr : r ∈ b.rows) :
    (cellAt (wireRowsTo rows b.rows (x + 1)) x r).up = false ∧
      (cellAt (wireRowsTo rows b.rows (x + 1)) x r).down = false := by
  have hlen := (hf.length_open r hr).2
  rw [cellAt_wireRowsTo]
  rcases Nat.lt_or_eq_of_le hlen with hlt | he
  · rw [cellAt_of_length_le (by omega)]
    exact ⟨rfl, rfl⟩
  · have ht := hf.tip_free r hr
    rw [tip, he, hx, Nat.add_sub_cancel] at ht
    exact ht (hfree r hr)

/-- No row of a block has a stub to the right at its last column. -/
theorem Fits.right_wire (hw : Wired (cellAt rows)) (hf : Fits rows b bottom read)
    (hx : b.width = x + 1) (h₁ : b.out ≤ y) (h₂ : y < bottom) :
    (cellAt (wireRowsTo rows b.rows (x + 1)) x y).right = false := by
  have hlen : (rowAt rows y).length ≤ x + 1 := by
    by_cases hy : y ∈ b.rows
    · have := hf.length_open y hy
      omega
    · have := hf.closed h₁ h₂ hy
      omega
  rw [(wired_wireRowsTo hw _ _).right_eq, cellAt_wireRowsTo, cellAt_of_length_le hlen, Bool.false_or,
    decide_eq_false_iff_not]
  omega

/-- Power gets to the tie of a block over its open rows alone. -/
theorem Fits.tiePower {last : Nat} (hw : Wired (cellAt rows)) (hf : Fits rows b bottom read)
    (hbot : bottom ≤ rows.length) (hx : b.width = x + 1)
    (hfree : ∀ r ∈ b.rows, (cellAt rows x r).isDrop = false)
    (hlast : last < bottom) (hle : ∀ r ∈ b.rows, r ≤ last) :
    TiePower (wireRowsTo rows b.rows (x + 1)) bits x b.out last ↔ Carries rows bits b := by
  have hwire {r : Nat} (hr : r ∈ b.rows) :
      Outlet (cellAt (wireRowsTo rows b.rows (x + 1))) bits x r ↔
        Outlet (cellAt rows) bits ((rowAt rows r).length - 1) r := by
    have hlen := hf.length_open r hr
    have hlt := hf.lt_bottom r hr
    exact outlet_wireRowsTo hw hr (by omega) hlen.1 (by omega) (Nat.lt_succ_self x)
  constructor
  · rintro ⟨y, h₁, h₂, hi, hc⟩
    by_cases hy : y ∈ b.rows
    · exact ⟨y, hy, (hwire hy).1 (.of_inlet hi hc)⟩
    · -- a closed row does not come so far
      obtain ⟨hpos, hlen⟩ := hf.closed h₁ (by omega) hy
      obtain ⟨k, rfl⟩ : ∃ k, x = k + 1 := ⟨x - 1, by omega⟩
      have hr : (cellAt (wireRowsTo rows b.rows (k + 1 + 1)) k y).right = false := by
        rw [cellAt_wireRowsTo, hw.right_eq, cellAt_of_length_le (x := k + 1) (by omega),
          Bool.false_or, decide_eq_false_iff_not]
        exact fun h => hy h.2.1
      rw [inlet_succ, hr] at hi
      cases hi.1
  · rintro ⟨r, hr, ho⟩
    have hu := hf.untied hx hfree hr
    obtain ⟨hi, hc⟩ := (outlet_of_untied (wired_wireRowsTo hw _ _) hu.1 hu.2).1 ((hwire hr).2 ho)
    exact ⟨r, hf.out_le hr, hle r hr, hi, hc⟩

/-- Tied rows end together. -/
theorem Fits.length_tie {last : Nat} (hf : Fits rows b bottom read) (hbot : bottom ≤ rows.length)
    (hx : b.width = x + 1) (hlast : last < bottom) (hle : ∀ r ∈ b.rows, r ≤ last) (y : Nat) :
    (rowAt (tie (wireRowsTo rows b.rows (x + 1)) x b.out last) y).length =
      if b.out ≤ y ∧ y ≤ last then x + 1 else (rowAt rows y).length := by
  rw [length_rowAt_tie, length_wireRowsTo]
  by_cases hy : y ∈ b.rows
  · have h₁ := hf.length_open y hy
    have h₂ : b.out ≤ y ∧ y ≤ last := ⟨hf.out_le hy, hle y hy⟩
    have h₃ := hf.lt_bottom y hy
    rw [if_pos ⟨by omega, h₂⟩, if_pos h₂, length_rowAt_wireRowsTo, if_pos ⟨by omega, hy⟩]
    omega
  · rw [length_rowAt_wireRowsTo, if_neg (fun h : y < rows.length ∧ y ∈ b.rows => hy h.2)]
    by_cases h : b.out ≤ y ∧ y ≤ last
    · have := hf.closed h.1 (by omega) hy
      rw [if_pos ⟨by omega, h⟩, if_pos h]
      omega
    · rw [if_neg (fun h' => h h'.2), if_neg h]

/-- Rows off a tie of a block stay as they are. -/
theorem Fits.rowAt_tie {last : Nat} (hf : Fits rows b bottom read) (hle : ∀ r ∈ b.rows, r ≤ last)
    (hy : y < b.out ∨ last < y) :
    rowAt (tie (wireRowsTo rows b.rows (x + 1)) x b.out last) y = rowAt rows y := by
  have hout : y ∉ b.rows := fun h => by
    have := hf.out_le h
    have := hle y h
    omega
  by_cases hlt : y < rows.length
  · rw [tie, rowAt_mapIdx _ (by simpa using hlt), wireRowsTo, rowAt_mapIdx _ hlt, if_neg hout,
      if_neg (by simp only [Bool.and_eq_true, decide_eq_true_eq]; omega)]
  · rw [rowAt_of_length_le (by simpa using hlt), rowAt_of_length_le (by omega)]

theorem tied_of_getLast {last : Nat} (hw : Wired (cellAt rows)) (hf : Fits rows b bottom read)
    (hbot : bottom ≤ rows.length) (hfree : ∀ r ∈ b.rows, (cellAt rows x r).isDrop = false)
    (hp : b.pending.getLast? = some last) (hx : b.width = x + 1) (bits : Text → Bool) :
    Tied rows (tie (wireRowsTo rows b.rows (x + 1)) x b.out last) bits b bottom := by
  have hmem : last ∈ b.rows := List.mem_cons_of_mem _ (List.mem_of_getLast? hp)
  have hlast := hf.lt_bottom last hmem
  have hout := hf.out_le hmem
  have hle : ∀ r ∈ b.rows, r ≤ last := fun r hr => by
    rcases List.mem_cons.1 hr with rfl | hr
    · exact hout
    · exact le_of_getLast? (List.pairwise_cons.1 hf.sorted).2 hp hr
  have hww := wired_wireRowsTo hw b.rows (x + 1)
  have hb : last < (wireRowsTo rows b.rows (x + 1)).length := by
    rw [length_wireRowsTo]
    omega
  have hup := (hf.untied hx hfree (out_mem_rows b)).1
  have hdown := (hf.untied hx hfree hmem).2
  have hinlet (x' y : Nat) :
      Inlet (cellAt (tie (wireRowsTo rows b.rows (x + 1)) x b.out last)) bits x' y ↔
        Inlet (cellAt (wireRowsTo rows b.rows (x + 1))) bits x' y := by
    refine inlet_tie hww hb hup hdown (fun y h₁ h₂ hr _ => ?_) x' y
    rw [hf.right_wire hw hx h₁ (by omega)] at hr
    cases hr
  have hlength := hf.length_tie hbot hx hlast hle
  -- the output row ends in the column of the tie
  have hend : (cellAt rows x b.out).isEmpty = false := by
    have := hf.tip_drawn b.out (out_mem_rows b)
    rwa [tip, hf.length_out, hx, Nat.add_sub_cancel] at this
  exact {
    length_eq := by simp
    wired := wired_tie hww hb x b.out
    fed := fun hfed => fed_tie (fed_wireRowsTo hfed hf.tip_drawn) (drawn_wireRowsTo hend)
    above := fun y hy => hf.rowAt_tie hle (.inl hy)
    below := fun y hy => hf.rowAt_tie hle (.inr (by omega))
    up_out := fun x' => by
      rw [cellAt_tie, cellAt_wireRowsTo]
      simp
    left_eq := fun x' y hlt => by
      have hn : ¬(y < rows.length ∧ y ∈ b.rows ∧ (rowAt rows y).length ≤ x' ∧ 0 < x' ∧
          x' < x + 1) := fun h => absurd (hlt h.2.1) (by omega)
      rw [cellAt_tie, cellAt_wireRowsTo]
      simp only [hn, decide_false, Bool.or_false]
    drawn := fun x' y hne => drawn_tie (drawn_wireRowsTo hne)
    length_out := by rw [hlength, if_pos ⟨Nat.le_refl _, hout⟩, hx]
    length_le := fun y h₁ h₂ => by
      rw [hlength]
      split
      · omega
      · have hy : y ∉ b.rows := fun h => by
          have := hle y h
          omega
        have := hf.closed h₁ h₂ hy
        omega
    inlet := fun x' y hlt => by
      rw [hinlet]
      exact (agree_wireRowsTo hw bits b.rows (x + 1)).inlet (.inr hlt)
    outlet := by
      rw [hx, Nat.add_sub_cancel, outlet_tie hww hb hup hdown (hinlet x) (Nat.le_refl _) hout,
        hf.tiePower hw hbot hx hfree hlast hle] }

/-- **Tying the pending rows of a block.** -/
theorem tied_tiePending (hw : Wired (cellAt rows)) (hf : Fits rows b bottom read)
    (hbot : bottom ≤ rows.length) (hfree : TiesFree rows b) (bits : Text → Bool) :
    Tied rows (tiePending rows b) bits b bottom := by
  cases hp : b.pending.getLast? with
  | none =>
    have hnil := List.getLast?_eq_none_iff.1 hp
    rw [tiePending_of_nil rows hnil]
    exact tied_of_nil hw hf hnil bits
  | some last =>
    obtain ⟨x, hx⟩ : ∃ x, b.width = x + 1 := ⟨b.width - 1, by have := hf.width_pos; omega⟩
    have hne : b.pending ≠ [] := fun h => by rw [h] at hp; cases hp
    have hfree := hfree hne
    rw [hx, Nat.add_sub_cancel] at hfree
    rw [tiePending_eq rows hp hx]
    exact tied_of_getLast hw hf hbot hfree hp hx bits

end Sheet
end LadderLogic
