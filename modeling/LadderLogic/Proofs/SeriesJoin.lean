import LadderLogic.Proofs.FlowSteps

/-!
# Power through a join in series

A join in series moves the rows from `top` down behind a block, and ties a junction column between
them. In front of the junction power is as it was (`agree_seriesRows`). Behind it there is power where
there was power before, and power comes out of the block in front (`inlet_seriesRows_behind`): each of
the rows that began at the rail now begins at the junction instead.

Source: `and_block` of `_LayoutBuilder`, and `energize` (sections 4.1 and 4.3 of the specification).
-/

namespace LadderLogic

namespace Sheet

open Grid

variable {rows : List Row} {bits : Text → Bool} {a : Block} {top x y : Nat}

/-! ## The joined rows -/

/-- The rows from `top` down, moved behind a block with a junction between them. -/
def seriesRows (rows : List Row) (a : Block) (top : Nat) : List Row :=
  junction (shiftRows rows top (a.width + 1)) a (railRows rows top) (lastEntry rows top)

/-- Rows that can be joined behind a block: the block lies above them and nothing is tied across; on
its output row, and between it and the rows, nothing is drawn from its width on. -/
structure Joins (rows : List Row) (a : Block) (top : Nat) : Prop where
  wired : Wired (cellAt rows)
  width_pos : 0 < a.width
  out_lt : a.out < top
  top_lt : top < rows.length
  cut : ∀ x, (cellAt rows x top).up = false
  length_le : ∀ y, a.out ≤ y → y < top → (rowAt rows y).length ≤ a.width

@[simp]
theorem length_seriesRows (rows : List Row) (a : Block) (top : Nat) :
    (seriesRows rows a top).length = rows.length := by
  rw [seriesRows, length_junction, length_shiftRows]

/-- The cells above the rows that move: the output row is wired to the junction, and the junction goes
down from there. -/
theorem cellAt_seriesRows_above (hj : Joins rows a top) (hy : y < top) (x : Nat) :
    cellAt (seriesRows rows a top) x y =
      { cellAt rows x y with
        up := (cellAt rows x y).up || decide (x = a.width ∧ a.out < y)
        down := (cellAt rows x y).down || decide (x = a.width ∧ a.out ≤ y)
        left := (cellAt rows x y).left || decide (x = a.width ∧ y = a.out)
        right := (cellAt rows x y).right || decide (x + 1 = a.width ∧ y = a.out) } := by
  obtain ⟨hb, -⟩ := lastEntry_mem_Ico hj.top_lt
  have hlt := hj.top_lt
  have hout := hj.out_lt
  have hpos := hj.width_pos
  have hentry : y ∉ railRows rows top := fun h => absurd (mem_railRows.1 h).1 (by omega)
  rw [seriesRows, cellAt_junction _ _ _ _ (by rw [length_shiftRows]; omega), cellAt_shiftRows,
    if_neg (by omega), length_shiftRows]
  have hu : (y < rows.length ∧ x = a.width ∧ a.out < y ∧ y ≤ lastEntry rows top) ↔
      (x = a.width ∧ a.out < y) := by omega
  have hd : (y < rows.length ∧ x = a.width ∧ a.out ≤ y ∧ y < lastEntry rows top) ↔
      (x = a.width ∧ a.out ≤ y) := by omega
  have hl : ((y = a.out ∧ x = a.width ∧ 0 < a.width) ∨
      (y < rows.length ∧ y ∈ railRows rows top ∧ x = a.width + 1)) ↔
      (x = a.width ∧ y = a.out) := by
    constructor
    · rintro (⟨h₁, h₂, -⟩ | ⟨-, h, -⟩)
      · exact ⟨h₂, h₁⟩
      · exact absurd h hentry
    · rintro ⟨h₁, h₂⟩
      exact .inl ⟨h₂, h₁, hpos⟩
  have hr : ((y = a.out ∧ x + 1 = a.width) ∨
      (y < rows.length ∧ y ∈ railRows rows top ∧ x = a.width)) ↔
      (x + 1 = a.width ∧ y = a.out) := by
    constructor
    · rintro (⟨h₁, h₂⟩ | ⟨-, h, -⟩)
      · exact ⟨h₂, h₁⟩
      · exact absurd h hentry
    · rintro ⟨h₁, h₂⟩
      exact .inl ⟨h₂, h₁⟩
  simp only [hu, hd, hl, hr]

/-- The cells of the rows that move, in their old columns: those that were at the rail are wired to
the junction. -/
theorem cellAt_seriesRows_behind (hj : Joins rows a top) (hy : top ≤ y) (x : Nat) :
    cellAt (seriesRows rows a top) (x + (a.width + 1)) y =
      { cellAt rows x y with
        left := (cellAt rows x y).left || decide (x = 0 ∧ y ∈ railRows rows top) } := by
  have hout := hj.out_lt
  have hlt := hj.top_lt
  rw [seriesRows, cellAt_junction _ _ _ _ (by rw [length_shiftRows]; omega), cellAt_shiftRows,
    if_pos hy, if_neg (by omega), Nat.add_sub_cancel, length_shiftRows]
  have hu : ¬(y < rows.length ∧ x + (a.width + 1) = a.width ∧ a.out < y ∧
      y ≤ lastEntry rows top) := by omega
  have hd : ¬(y < rows.length ∧ x + (a.width + 1) = a.width ∧ a.out ≤ y ∧
      y < lastEntry rows top) := by omega
  have hl : ((y = a.out ∧ x + (a.width + 1) = a.width ∧ 0 < a.width) ∨
      (y < rows.length ∧ y ∈ railRows rows top ∧ x + (a.width + 1) = a.width + 1)) ↔
      (x = 0 ∧ y ∈ railRows rows top) := by
    constructor
    · rintro (⟨-, h, -⟩ | ⟨-, h₁, h₂⟩)
      · omega
      · exact ⟨by omega, h₁⟩
    · rintro ⟨rfl, h⟩
      exact .inr ⟨(mem_railRows.1 h).2.1, h, Nat.zero_add _⟩
  have hr : ¬((y = a.out ∧ x + (a.width + 1) + 1 = a.width) ∨
      (y < rows.length ∧ y ∈ railRows rows top ∧ x + (a.width + 1) = a.width)) := by
    rintro (⟨-, h⟩ | ⟨-, -, h⟩) <;> omega
  simp only [hu, hd, hl, hr, decide_false, Bool.or_false]

/-- The cells in front of the rows that move are empty but for the junction. -/
theorem cellAt_seriesRows_front (hj : Joins rows a top) (hy : top ≤ y) (hx : x < a.width + 1) :
    cellAt (seriesRows rows a top) x y =
      { up := decide (x = a.width ∧ y ≤ lastEntry rows top)
        down := decide (x = a.width ∧ y < lastEntry rows top)
        right := decide (x = a.width ∧ y ∈ railRows rows top) } := by
  obtain ⟨-, hb⟩ := lastEntry_mem_Ico hj.top_lt
  have hout := hj.out_lt
  have hlt := hj.top_lt
  rw [seriesRows, cellAt_junction _ _ _ _ (by rw [length_shiftRows]; omega), cellAt_shiftRows,
    if_pos hy, if_pos hx, length_shiftRows]
  have hu : (y < rows.length ∧ x = a.width ∧ a.out < y ∧ y ≤ lastEntry rows top) ↔
      (x = a.width ∧ y ≤ lastEntry rows top) := by omega
  have hd : (y < rows.length ∧ x = a.width ∧ a.out ≤ y ∧ y < lastEntry rows top) ↔
      (x = a.width ∧ y < lastEntry rows top) := by omega
  have hl : ¬((y = a.out ∧ x = a.width ∧ 0 < a.width) ∨
      (y < rows.length ∧ y ∈ railRows rows top ∧ x = a.width + 1)) := by
    rintro (⟨h, -⟩ | ⟨-, -, h⟩) <;> omega
  have hr : ((y = a.out ∧ x + 1 = a.width) ∨
      (y < rows.length ∧ y ∈ railRows rows top ∧ x = a.width)) ↔
      (x = a.width ∧ y ∈ railRows rows top) := by
    constructor
    · rintro (⟨h, -⟩ | ⟨-, h₁, h₂⟩)
      · omega
      · exact ⟨h₂, h₁⟩
    · rintro ⟨h₁, h₂⟩
      exact .inr ⟨(mem_railRows.1 h₂).2.1, h₂, h₁⟩
  simp only [hu, hd, hl, hr, Bool.false_or, decide_false]

/-- Rows above the block in front stay as they are. -/
theorem rowAt_seriesRows_of_lt (hj : Joins rows a top) (hy : y < a.out) :
    rowAt (seriesRows rows a top) y = rowAt rows y := by
  have hout := hj.out_lt
  have hlt := hj.top_lt
  have hentry : y ∉ railRows rows top := fun h => absurd (mem_railRows.1 h).1 (by omega)
  rw [seriesRows, junction, rowAt_mapIdx _ (by simp; omega), if_neg hentry, tie,
    rowAt_mapIdx _ (by simp; omega), if_neg (by simp; omega), rowAt_modify _ _ (by simp; omega),
    if_neg (by omega), shiftRows, rowAt_mapIdx _ (by omega), if_neg (by omega)]

/-- Rows beside the junction end there at the latest. -/
theorem length_rowAt_seriesRows_above (hj : Joins rows a top) (h₁ : a.out ≤ y) (h₂ : y < top) :
    (rowAt (seriesRows rows a top) y).length = a.width + 1 := by
  have hout := hj.out_lt
  have hlt := hj.top_lt
  have hlen := hj.length_le y h₁ h₂
  obtain ⟨hb, -⟩ := lastEntry_mem_Ico hj.top_lt
  have hentry : y ∉ railRows rows top := fun h => absurd (mem_railRows.1 h).1 (by omega)
  rw [seriesRows, length_rowAt_junction _ _ _ (by simp; omega) (by simp; omega),
    length_rowAt_shiftRows, if_neg (by omega), if_pos (by omega), if_neg hentry]
  split <;> omega

/-- Rows that move get longer by the columns in front of them. -/
theorem length_rowAt_seriesRows_behind (hj : Joins rows a top) (h₁ : top ≤ y)
    (h₂ : y < rows.length) :
    (rowAt (seriesRows rows a top) y).length = (rowAt rows y).length + (a.width + 1) := by
  have hout := hj.out_lt
  have hentry : y ∈ railRows rows top → 0 < (rowAt rows y).length := fun h => by
    refine Nat.pos_of_ne_zero fun h0 => ?_
    obtain ⟨-, -, hne⟩ := mem_railRows.1 h
    rw [cellAt_of_length_le (by omega)] at hne
    cases hne
  rw [seriesRows, length_rowAt_junction _ _ _ (by simp; omega) (by simpa using h₂),
    length_rowAt_shiftRows, if_pos ⟨h₂, h₁⟩, if_neg (by omega : ¬(y = a.out ∧ 0 < a.width))]
  by_cases h : y ∈ railRows rows top
  · have := hentry h
    rw [if_pos h]
    split <;> omega
  · rw [if_neg h]
    split <;> omega

/-- Rows that move to the right keep their wires if nothing is tied to them from above. -/
theorem wired_shiftRows (hw : Wired (cellAt rows)) (hcut : ∀ x, (cellAt rows x top).up = false)
    (offset : Nat) : Wired (cellAt (shiftRows rows top offset)) := by
  constructor
  · intro x y
    rw [cellAt_shiftRows, cellAt_shiftRows]
    by_cases hy : top ≤ y
    · rcases Nat.lt_trichotomy (x + 1) offset with hx | rfl | hx
      · simp [hy, hx, Nat.lt_of_succ_lt hx]
      · simp [hy, hw.left_zero]
      · have hx' : ¬x < offset := by omega
        have hx'' : ¬x + 1 < offset := by omega
        simp only [hy, hx', hx'', if_true, if_false]
        rw [hw.right_eq, show x + 1 - offset = x - offset + 1 by omega]
    · simp only [hy, if_false]
      exact hw.right_eq x y
  · intro x y
    rw [cellAt_shiftRows, cellAt_shiftRows]
    by_cases hy : top ≤ y
    · simp only [hy, Nat.le_succ_of_le hy, if_true]
      split
      · rfl
      · exact hw.down_eq _ y
    · rw [if_neg hy, hw.down_eq]
      by_cases hy' : top ≤ y + 1
      · -- the border of what moves
        obtain rfl : top = y + 1 := by omega
        rw [hcut, if_pos (Nat.le_refl _)]
        split
        · rfl
        · rw [hcut]
      · rw [if_neg hy']
  · intro y
    rw [cellAt_shiftRows]
    by_cases hy : top ≤ y
    · rw [if_pos hy]
      split
      · rfl
      · rw [Nat.zero_sub, hw.left_zero]
    · rw [if_neg hy, hw.left_zero]
  · intro x
    rw [cellAt_shiftRows]
    by_cases hy : top ≤ 0
    · rw [if_pos hy]
      split
      · rfl
      · exact hw.up_zero _
    · rw [if_neg hy, hw.up_zero]

theorem wired_junction (hw : Wired (cellAt rows)) (ha : a.out < rows.length) {bottom : Nat}
    (hb : bottom < rows.length) (entries : List Nat) :
    Wired (cellAt (junction rows a entries bottom)) := by
  constructor
  · intro x y
    have hiff : ((y = a.out ∧ x + 1 = a.width) ∨ (y < rows.length ∧ y ∈ entries ∧ x = a.width)) ↔
        ((y = a.out ∧ x + 1 = a.width ∧ 0 < a.width) ∨
          (y < rows.length ∧ y ∈ entries ∧ x + 1 = a.width + 1)) := by
      rw [Nat.add_right_cancel_iff]
      refine or_congr_left (and_congr_right fun _ => ?_)
      omega
    rw [cellAt_junction _ _ _ _ ha, cellAt_junction _ _ _ _ ha, hw.right_eq]
    simp only [hiff]
  · intro x y
    have hiff : (y < rows.length ∧ x = a.width ∧ a.out ≤ y ∧ y < bottom) ↔
        (y + 1 < rows.length ∧ x = a.width ∧ a.out < y + 1 ∧ y + 1 ≤ bottom) := by omega
    rw [cellAt_junction _ _ _ _ ha, cellAt_junction _ _ _ _ ha, hw.down_eq]
    simp only [hiff]
  · intro y
    have hn : ¬((y = a.out ∧ 0 = a.width ∧ 0 < a.width) ∨
        (y < rows.length ∧ y ∈ entries ∧ 0 = a.width + 1)) := by omega
    rw [cellAt_junction _ _ _ _ ha, hw.left_zero, Bool.false_or, decide_eq_false_iff_not]
    exact hn
  · intro x
    rw [cellAt_junction _ _ _ _ ha, hw.up_zero, Bool.false_or, decide_eq_false_iff_not]
    omega

theorem wired_seriesRows (hj : Joins rows a top) : Wired (cellAt (seriesRows rows a top)) := by
  have hlen := length_shiftRows rows top (a.width + 1)
  exact wired_junction (wired_shiftRows hj.wired hj.cut _)
    (by rw [hlen]; exact Nat.lt_trans hj.out_lt hj.top_lt)
    (by rw [hlen]; exact (lastEntry_mem_Ico hj.top_lt).2) _

/-- The junction is fed from the output row of the block in front, and feeds the rows behind it. -/
theorem fed_seriesRows (hj : Joins rows a top) (hf : Fed rows)
    (hend : (cellAt rows (a.width - 1) a.out).isEmpty = false) : Fed (seriesRows rows a top) := by
  have hout := hj.out_lt
  have hpos := hj.width_pos
  intro x y hne
  rcases Nat.lt_or_ge y top with hy | hy
  · rw [cellAt_seriesRows_above hj hy] at hne ⊢
    by_cases hold : (cellAt rows (x + 1) y).isEmpty = false
    · rcases hf x y hold with h | h <;> simp [h]
    · have hnot : ¬(x + 1 + 1 = a.width ∧ y = a.out) := fun h => hold (by
        rw [h.2, show x + 1 = a.width - 1 by omega]
        exact hend)
      rw [isEmpty_eq_false] at hne hold
      simp only [Bool.or_eq_true, decide_eq_true_eq] at hne ⊢
      grind
  · rcases Nat.lt_or_ge (x + 1) (a.width + 1) with hx | hx
    · rw [cellAt_seriesRows_front hj hy hx, isEmpty_eq_false] at hne
      rw [cellAt_seriesRows_front hj hy hx]
      simp only [decide_eq_true_eq] at hne ⊢
      right
      rcases hne with h | h | h | h | h
      · cases h rfl
      · exact h
      · exact ⟨h.1, Nat.le_of_lt h.2⟩
      · cases h
      · exact ⟨h.1, le_lastEntry h.2⟩
    · obtain ⟨k, hk⟩ : ∃ k, x + 1 = k + (a.width + 1) := ⟨x + 1 - (a.width + 1), by omega⟩
      rw [hk, cellAt_seriesRows_behind hj hy] at hne ⊢
      cases k with
      | zero =>
        -- what began at the rail is now wired to the junction
        left
        by_cases h : y ∈ railRows rows top
        · simp [h]
        · have hold : (cellAt rows 0 y).isEmpty = false := by
            simpa only [h, and_false, decide_false, Bool.or_false] using hne
          have hlt : y < rows.length := Nat.lt_of_not_le fun hle => by
            rw [cellAt_of_height_le hle] at hold
            cases hold
          exact absurd (mem_railRows.2 ⟨hy, hlt, hold⟩) h
      | succ k =>
        have hold : (cellAt rows (k + 1) y).isEmpty = false := by
          simpa using hne
        rcases hf k y hold with h | h <;> simp [h]

/-! ## Power -/

theorem Joins.cut_top (hj : Joins rows a top) (x : Nat) : Cut (cellAt rows) x top :=
  .of_up hj.wired (hj.cut x)

/-- Nothing is drawn behind the output row of the block, so that no tie ends there. -/
theorem Joins.up_out (hj : Joins rows a top) (hx : a.width ≤ x) :
    (cellAt rows x a.out).up = false := by
  have hlen := hj.length_le a.out (Nat.le_refl _) hj.out_lt
  rw [cellAt_of_length_le (by omega)]

theorem Joins.cut_out (hj : Joins rows a top) (hx : a.width ≤ x) :
    Cut (cellAt (seriesRows rows a top)) x a.out := by
  refine .of_up (wired_seriesRows hj) ?_
  rw [cellAt_seriesRows_above hj hj.out_lt, hj.up_out hx, Bool.false_or, decide_eq_false_iff_not]
  omega

/-- Power stays as it was in front of the junction. -/
theorem agree_seriesRows (hj : Joins rows a top) (bits : Text → Bool) :
    Agree bits (fun x y => y < top ∧ (a.out ≤ y → x < a.width)) (cellAt rows)
      (cellAt (seriesRows rows a top)) := by
  have hout := hj.out_lt
  -- a link leads neither to the rows that move nor, behind the block, to its output row
  have hin {x y y' : Nat} (hS : y < top ∧ (a.out ≤ y → x < a.width))
      (hl : Linked (cellAt rows) x y y') : y' < top ∧ (a.out ≤ y' → x < a.width) := by
    refine ⟨(hl.lt_iff (hj.cut_top x)).1 hS.1, fun hle => Nat.lt_of_not_le fun hx => ?_⟩
    have hlt := hl.lt_iff (.of_up hj.wired (hj.up_out hx))
    omega
  have hdown {x k : Nat} (hS : k < top ∧ (a.out ≤ k → x < a.width)) :
      (cellAt (seriesRows rows a top) x k).down = (cellAt rows x k).down := by
    have : ¬(x = a.width ∧ a.out ≤ k) := by omega
    rw [cellAt_seriesRows_above hj hS.1]
    simp only [this, decide_false, Bool.or_false]
  refine ⟨fun x y hS => ⟨⟨hS.1, fun h => Nat.lt_of_succ_lt (hS.2 h)⟩, ?_⟩, fun x y y' hS => ?_,
    fun x y y' hS hl => hin hS hl, fun x y hS => ?_⟩
  · have : ¬(x + 1 = a.width ∧ y = a.out) := by omega
    rw [cellAt_seriesRows_above hj hS.1]
    simp only [this, decide_false, Bool.or_false]
  · constructor
    · intro hl
      rcases Nat.lt_or_ge x a.width with hx | hx
      · -- in front of the junction the ties of a column are as before, down to the border
        intro k h₁ h₂
        rcases Nat.lt_or_ge k top with hk | hk
        · rw [← hdown ⟨hk, fun _ => hx⟩]
          exact hl k h₁ h₂
        · have hc := hl.lt_iff (.of_up (wired_seriesRows hj) (t := top) (by
            rw [cellAt_seriesRows_front hj (Nat.le_refl _) (by omega), decide_eq_false_iff_not]
            omega))
          omega
      · have hlt := hl.lt_iff (hj.cut_out hx)
        intro k h₁ h₂
        rw [← hdown ⟨by omega, by omega⟩]
        exact hl k h₁ h₂
    · intro hl k h₁ h₂
      obtain ⟨h₃, h₄⟩ := hin hS hl
      rw [hdown ⟨by omega, by omega⟩]
      exact hl k h₁ h₂
  · rw [cellAt_seriesRows_above hj hS.1]
    rfl

/-- The junction is fed from the block in front alone. -/
theorem inlet_junction (hj : Joins rows a top) (hy : a.out ≤ y) :
    Inlet (cellAt (seriesRows rows a top)) bits a.width y ↔
      y = a.out ∧ Outlet (cellAt rows) bits (a.width - 1) a.out := by
  obtain ⟨w, hw⟩ : ∃ w, a.width = w + 1 := ⟨a.width - 1, by have := hj.width_pos; omega⟩
  have hlen := hj.length_le y hy
  rw [hw, inlet_succ, Nat.add_sub_cancel]
  rcases Nat.lt_or_ge y top with ht | ht
  · have hr : (cellAt (seriesRows rows a top) w y).right = true ↔ y = a.out := by
      have hblank : (cellAt rows w y).right = false := by
        rw [hj.wired.right_eq, cellAt_of_length_le (by have := hlen ht; omega)]
      rw [cellAt_seriesRows_above hj ht, hblank]
      simp [hw]
    rw [hr]
    refine and_congr_right fun he => ?_
    subst he
    exact (agree_seriesRows hj bits).outlet ⟨ht, fun _ => by omega⟩
  · have hr : (cellAt (seriesRows rows a top) w y).right = false := by
      rw [cellAt_seriesRows_front hj ht (by omega), decide_eq_false_iff_not]
      omega
    have hout := hj.out_lt
    rw [hr]
    constructor
    · rintro ⟨h, -⟩
      cases h
    · rintro ⟨h, -⟩
      omega

/-- The junction carries what comes out of the block in front, down to its last row. -/
theorem outlet_junction (hj : Joins rows a top) (hy : a.out ≤ y) (hb : y ≤ lastEntry rows top) :
    Outlet (cellAt (seriesRows rows a top)) bits a.width y ↔
      Outlet (cellAt rows) bits (a.width - 1) a.out := by
  have hout := hj.out_lt
  constructor
  · rintro ⟨y', hl, hi, -⟩
    have hlt := hl.lt_iff (hj.cut_out (Nat.le_refl _))
    exact ((inlet_junction hj (by omega)).1 hi).2
  · intro h
    refine ⟨a.out, fun k h₁ h₂ => ?_, (inlet_junction hj (Nat.le_refl _)).2 ⟨rfl, h⟩, ?_⟩
    · rcases Nat.lt_or_ge k top with ht | ht
      · rw [cellAt_seriesRows_above hj ht, Bool.or_eq_true, decide_eq_true_eq]
        exact .inr ⟨rfl, by omega⟩
      · rw [cellAt_seriesRows_front hj ht (Nat.lt_succ_self _), decide_eq_true_eq]
        exact ⟨rfl, by omega⟩
    · have hlen := hj.length_le a.out (Nat.le_refl _) hout
      rw [cellAt_seriesRows_above hj hout, cellAt_of_length_le hlen]
      rfl

theorem isEmpty_of_linked {g : Grid} {y' : Nat} (hw : g.Wired) (hl : g.Linked x y y')
    (hne : (g x y).isEmpty = false) : (g x y').isEmpty = false := by
  rcases Nat.lt_trichotomy y y' with h | rfl | h
  · obtain ⟨z, rfl⟩ : ∃ z, y' = z + 1 := ⟨y' - 1, by omega⟩
    have hd := hl z (by omega) (by omega)
    rw [hw.down_eq] at hd
    simp [Cell.isEmpty, Cell.isWired, hd]
  · exact hne
  · exact isEmpty_of_down (hl y' (by omega) (by omega))

/-- Links behind the junction are those before the move. -/
theorem linked_seriesRows_behind (hj : Joins rows a top) (hy : top ≤ y) (x y' : Nat) :
    Linked (cellAt (seriesRows rows a top)) (x + (a.width + 1)) y y' ↔
      top ≤ y' ∧ Linked (cellAt rows) x y y' := by
  have hdown {k : Nat} (hk : top ≤ k) :
      (cellAt (seriesRows rows a top) (x + (a.width + 1)) k).down = (cellAt rows x k).down := by
    rw [cellAt_seriesRows_behind hj hk]
  constructor
  · intro hl
    have hc := hl.lt_iff (.of_up (wired_seriesRows hj) (t := top) (by
      rw [cellAt_seriesRows_behind hj (Nat.le_refl _)]
      exact hj.cut x))
    refine ⟨by omega, fun k h₁ h₂ => ?_⟩
    rw [← hdown (by omega)]
    exact hl k h₁ h₂
  · rintro ⟨hy', hl⟩ k h₁ h₂
    rw [hdown (by omega)]
    exact hl k h₁ h₂

/-- Outlets behind the junction have the power that the inlets of their column give them. -/
theorem outlet_seriesRows_of_inlet (hj : Joins rows a top)
    (hin : ∀ y, top ≤ y → (cellAt rows x y).isEmpty = false →
      (Inlet (cellAt (seriesRows rows a top)) bits (x + (a.width + 1)) y ↔
        Outlet (cellAt rows) bits (a.width - 1) a.out ∧ Inlet (cellAt rows) bits x y))
    (hy : top ≤ y) (hne : (cellAt rows x y).isEmpty = false) :
    Outlet (cellAt (seriesRows rows a top)) bits (x + (a.width + 1)) y ↔
      Outlet (cellAt rows) bits (a.width - 1) a.out ∧ Outlet (cellAt rows) bits x y := by
  have hcond {k : Nat} (hk : top ≤ k) :
      (cellAt (seriesRows rows a top) (x + (a.width + 1)) k).conducts bits =
        (cellAt rows x k).conducts bits := by
    rw [cellAt_seriesRows_behind hj hk]
    rfl
  constructor
  · rintro ⟨y', hl, hi, hc⟩
    obtain ⟨hy', hl⟩ := (linked_seriesRows_behind hj hy x y').1 hl
    obtain ⟨hfront, hi⟩ := (hin y' hy' (isEmpty_of_linked hj.wired hl hne)).1 hi
    exact ⟨hfront, y', hl, hi, by rw [← hcond hy']; exact hc⟩
  · rintro ⟨hfront, y', hl, hi, hc⟩
    have hy' : top ≤ y' := by
      have := hl.lt_iff (hj.cut_top x)
      omega
    exact ⟨y', (linked_seriesRows_behind hj hy x y').2 ⟨hy', hl⟩,
      (hin y' hy' (isEmpty_of_linked hj.wired hl hne)).2 ⟨hfront, hi⟩, by rw [hcond hy']; exact hc⟩

/-- **Power behind a junction.** What was drawn from `top` down has power after the join where it had
power before and power comes out of the block in front. -/
theorem inlet_seriesRows_behind (hj : Joins rows a top) (hy : top ≤ y)
    (hne : (cellAt rows x y).isEmpty = false) :
    Inlet (cellAt (seriesRows rows a top)) bits (x + (a.width + 1)) y ↔
      Outlet (cellAt rows) bits (a.width - 1) a.out ∧ Inlet (cellAt rows) bits x y := by
  have hout := hj.out_lt
  induction x generalizing y with
  | zero =>
    -- a row at the rail is one of the entries, and these begin at the junction
    have hlt : y < rows.length := Nat.lt_of_not_le fun hle => by
      rw [cellAt_of_height_le hle] at hne
      cases hne
    have hentry : y ∈ railRows rows top := mem_railRows.2 ⟨hy, hlt, hne⟩
    have hr : (cellAt (seriesRows rows a top) a.width y).right = true := by
      rw [cellAt_seriesRows_front hj hy (Nat.lt_succ_self _), decide_eq_true_eq]
      exact ⟨rfl, hentry⟩
    rw [Nat.zero_add, inlet_succ, outlet_junction hj (by omega) (le_lastEntry hentry)]
    simp [hr, inlet_zero]
  | succ x ih =>
    have hr : (cellAt (seriesRows rows a top) (x + (a.width + 1)) y).right =
        (cellAt rows x y).right := by
      rw [cellAt_seriesRows_behind hj hy]
    rw [Nat.add_right_comm, inlet_succ, inlet_succ, hr]
    constructor
    · rintro ⟨hright, ho⟩
      have hne' := isEmpty_of_right hright
      obtain ⟨hfront, ho⟩ := (outlet_seriesRows_of_inlet hj (fun _ h h' => ih h h') hy hne').1 ho
      exact ⟨hfront, hright, ho⟩
    · rintro ⟨hfront, hright, ho⟩
      have hne' := isEmpty_of_right hright
      exact ⟨hright,
        (outlet_seriesRows_of_inlet hj (fun _ h h' => ih h h') hy hne').2 ⟨hfront, ho⟩⟩

theorem outlet_seriesRows_behind (hj : Joins rows a top) (hy : top ≤ y)
    (hne : (cellAt rows x y).isEmpty = false) :
    Outlet (cellAt (seriesRows rows a top)) bits (x + (a.width + 1)) y ↔
      Outlet (cellAt rows) bits (a.width - 1) a.out ∧ Outlet (cellAt rows) bits x y :=
  outlet_seriesRows_of_inlet hj (fun _ h h' => inlet_seriesRows_behind hj h h') hy hne

end Sheet
end LadderLogic
