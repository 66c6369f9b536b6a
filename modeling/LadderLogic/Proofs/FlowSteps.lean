import LadderLogic.Proofs.Flow

/-!
# How the drawing steps change power

A step of the drawing changes some cells. Power stays as it was in every part of the grid that is
closed under what feeds it (`Grid.Agree`), and a change inside one column is felt to the right of it
only through the stubs to the right (`Grid.inlet_congr_column`). From these two facts follows what
each step does: wire behind a row carries its outlet on, a tie joins the outlets of its rows, and an
element behind a row passes on what it lets through.

Source: `energize` on what `_LayoutBuilder` draws (sections 4.1 and 4.3 of the specification).
-/

namespace LadderLogic

namespace Grid

variable {g g' : Grid} {bits : Text → Bool} {x y y' : Nat}

/-- Two grids carry power alike in a part of the grid that holds what feeds it. -/
structure Agree (bits : Text → Bool) (S : Nat → Nat → Prop) (g g' : Grid) : Prop where
  right : ∀ x y, S (x + 1) y → S x y ∧ (g' x y).right = (g x y).right
  linked : ∀ x y y', S x y → (g'.Linked x y y' ↔ g.Linked x y y')
  closed : ∀ x y y', S x y → g.Linked x y y' → S x y'
  conducts : ∀ x y, S x y → (g' x y).conducts bits = (g x y).conducts bits

theorem Agree.inlet {S : Nat → Nat → Prop} (h : Agree bits S g g') (hS : S x y) :
    g'.Inlet bits x y ↔ g.Inlet bits x y := by
  induction x generalizing y with
  | zero => exact ⟨fun _ => inlet_zero g bits y, fun _ => inlet_zero g' bits y⟩
  | succ x ih =>
    obtain ⟨hx, hr⟩ := h.right x y hS
    rw [Inlet, Inlet, hr]
    constructor
    · rintro ⟨hright, y', hl, hi, hc⟩
      have hl := (h.linked x y y' hx).1 hl
      have hS' := h.closed x y y' hx hl
      exact ⟨hright, y', hl, (ih hS').1 hi, by rw [← h.conducts x y' hS']; exact hc⟩
    · rintro ⟨hright, y', hl, hi, hc⟩
      have hS' := h.closed x y y' hx hl
      exact ⟨hright, y', (h.linked x y y' hx).2 hl, (ih hS').2 hi, by
        rw [h.conducts x y' hS']; exact hc⟩

theorem Agree.outlet {S : Nat → Nat → Prop} (h : Agree bits S g g') (hS : S x y) :
    g'.Outlet bits x y ↔ g.Outlet bits x y := by
  constructor
  · rintro ⟨y', hl, hi, hc⟩
    have hl := (h.linked x y y' hS).1 hl
    have hS' := h.closed x y y' hS hl
    exact ⟨y', hl, (h.inlet hS').1 hi, by rw [← h.conducts x y' hS']; exact hc⟩
  · rintro ⟨y', hl, hi, hc⟩
    have hS' := h.closed x y y' hS hl
    exact ⟨y', (h.linked x y y' hS).2 hl, (h.inlet hS').2 hi, by
      rw [h.conducts x y' hS']; exact hc⟩

theorem linked_congr (h : ∀ k, (g' x k).down = (g x k).down) :
    g'.Linked x y y' ↔ g.Linked x y y' := by
  simp only [Linked, h]

/-- No tie of a column goes from the row above `t` to `t`. -/
def Cut (g : Grid) (x t : Nat) : Prop := ∀ k, k + 1 = t → (g x k).down = false

theorem Cut.of_up (hw : g.Wired) {t : Nat} (h : (g x t).up = false) : g.Cut x t := by
  rintro k rfl
  rw [hw.down_eq]
  exact h

/-- Links stay on their side of a cut. -/
theorem Linked.lt_iff {t : Nat} (hc : g.Cut x t) (h : g.Linked x y y') : y < t ↔ y' < t := by
  cases t with
  | zero => exact ⟨fun h => absurd h (Nat.not_lt_zero _), fun h => absurd h (Nat.not_lt_zero _)⟩
  | succ t =>
    have hcut := hc t rfl
    constructor
    · intro hy
      refine Nat.lt_of_not_le fun hle => ?_
      rw [h t (by omega) (by omega)] at hcut
      cases hcut
    · intro hy
      refine Nat.lt_of_not_le fun hle => ?_
      rw [h t (by omega) (by omega)] at hcut
      cases hcut

/-- What happens on one side of a cut is not felt on the other. -/
theorem agree_lt {t : Nat} (hc : ∀ x, g.Cut x t)
    (h : ∀ x y, y < t → (g' x y).right = (g x y).right ∧ (g' x y).down = (g x y).down ∧
      (g' x y).conducts bits = (g x y).conducts bits) : Agree bits (fun _ y => y < t) g g' := by
  have hc' (x : Nat) : g'.Cut x t := by
    rintro k rfl
    rw [(h x k (Nat.lt_succ_self k)).2.1]
    exact hc x k rfl
  refine ⟨fun x y hy => ⟨hy, (h x y hy).1⟩, fun x y y' hy => ⟨fun hl k h₁ h₂ => ?_,
    fun hl k h₁ h₂ => ?_⟩, fun x y y' hy hl => (hl.lt_iff (hc x)).1 hy, fun x y hy => (h x y hy).2.2⟩
  · have hy' := (hl.lt_iff (hc' x)).1 hy
    rw [← (h x k (by omega)).2.1]
    exact hl k h₁ h₂
  · have hy' := (hl.lt_iff (hc x)).1 hy
    rw [(h x k (by omega)).2.1]
    exact hl k h₁ h₂

theorem agree_ge {t : Nat} (hc : ∀ x, g.Cut x t) (hc' : ∀ x, g'.Cut x t)
    (h : ∀ x y, t ≤ y → (g' x y).right = (g x y).right ∧ (g' x y).down = (g x y).down ∧
      (g' x y).conducts bits = (g x y).conducts bits) : Agree bits (fun _ y => t ≤ y) g g' := by
  have hge {g : Grid} {x y y' : Nat} (hc : g.Cut x t) (hl : g.Linked x y y') (hy : t ≤ y) :
      t ≤ y' :=
    Nat.le_of_not_lt fun hlt => Nat.not_lt.2 hy ((hl.lt_iff hc).2 hlt)
  refine ⟨fun x y hy => ⟨hy, (h x y hy).1⟩, fun x y y' hy => ⟨fun hl k h₁ h₂ => ?_,
    fun hl k h₁ h₂ => ?_⟩, fun x y y' hy hl => hge (hc x) hl hy, fun x y hy => (h x y hy).2.2⟩
  · have hy' := hge (hc' x) hl hy
    rw [← (h x k (by omega)).2.1]
    exact hl k h₁ h₂
  · have hy' := hge (hc x) hl hy
    rw [(h x k (by omega)).2.1]
    exact hl k h₁ h₂

/-- A change in the ties and instructions of one column is felt only if it changes an outlet with a
stub to the right. -/
theorem inlet_congr_column {column : Nat}
    (hother : ∀ x y, x ≠ column → (g' x y).down = (g x y).down ∧
      (g' x y).conducts bits = (g x y).conducts bits)
    (hright : ∀ x y, (g' x y).right = (g x y).right)
    (hout : ∀ y, (g column y).right = true →
      ((∃ y', g'.Linked column y y' ∧ g.Inlet bits column y' ∧
        (g' column y').conducts bits = true) ↔ g.Outlet bits column y)) (x y : Nat) :
    g'.Inlet bits x y ↔ g.Inlet bits x y := by
  induction x generalizing y with
  | zero => exact ⟨fun _ => inlet_zero g bits y, fun _ => inlet_zero g' bits y⟩
  | succ x ih =>
    rw [Inlet, inlet_succ, hright]
    refine and_congr_right fun hr => ?_
    by_cases hx : x = column
    · subst hx
      simp only [ih]
      exact hout y hr
    · simp only [ih, linked_congr fun k => (hother x k hx).1, (hother x _ hx).2]
      rfl

end Grid

namespace Sheet

open Grid

variable {rows : List Row} {bits : Text → Bool} {x y : Nat}

/-! ## Wire -/

theorem wired_wireRowsTo (hw : Wired (cellAt rows)) (ys : List Nat) (column : Nat) :
    Wired (cellAt (wireRowsTo rows ys column)) := by
  constructor
  · intro x y
    rw [cellAt_wireRowsTo, cellAt_wireRowsTo, hw.right_eq]
    simp
  · intro x y
    rw [cellAt_wireRowsTo, cellAt_wireRowsTo]
    exact hw.down_eq x y
  · intro y
    rw [cellAt_wireRowsTo]
    simp [hw.left_zero]
  · intro x
    rw [cellAt_wireRowsTo]
    exact hw.up_zero x

/-- Wire behind some rows does not change power in what was drawn before. -/
theorem agree_wireRowsTo (hw : Wired (cellAt rows)) (bits : Text → Bool) (ys : List Nat)
    (column : Nat) :
    Agree bits (fun x y => y ∉ ys ∨ x < (rowAt rows y).length) (cellAt rows)
      (cellAt (wireRowsTo rows ys column)) := by
  refine ⟨fun x y hS => ⟨hS.imp_right fun h => by omega, ?_⟩, fun x y y' _ => linked_congr fun k => ?_,
    fun x y y' hS hl => ?_, fun x y _ => ?_⟩
  · have hn : ¬(y < rows.length ∧ y ∈ ys ∧ (rowAt rows y).length ≤ x + 1 ∧ x + 1 < column) := by
      rintro ⟨-, hy, hle, -⟩
      rcases hS with h | h
      · exact h hy
      · omega
    rw [cellAt_wireRowsTo]
    simp [hn]
  · rw [cellAt_wireRowsTo]
  · -- an empty cell is linked to no other one
    refine Classical.byContradiction fun hn => ?_
    have hn := not_or.1 hn
    have hlen : (rowAt rows y').length ≤ x := Nat.le_of_not_lt hn.2
    have he := cellAt_of_length_le hlen
    obtain rfl : y = y' := hl.symm.eq_of_untied hw (by rw [he]) (by rw [he])
    exact not_or.2 hn hS
  · rw [cellAt_wireRowsTo]
    rfl

/-- Wire behind a row carries its last outlet on. -/
theorem outlet_wireRowsTo (hw : Wired (cellAt rows)) {ys : List Nat} {column : Nat} (hy : y ∈ ys)
    (hlt : y < rows.length) (hpos : 0 < (rowAt rows y).length)
    (hx : (rowAt rows y).length ≤ x + 1) (hc : x < column) :
    Outlet (cellAt (wireRowsTo rows ys column)) bits x y ↔
      Outlet (cellAt rows) bits ((rowAt rows y).length - 1) y := by
  have hag := agree_wireRowsTo hw bits ys column
  obtain ⟨k, rfl⟩ : ∃ k, x = (rowAt rows y).length - 1 + k := ⟨_, (Nat.add_sub_of_le (by omega)).symm⟩
  clear hx
  induction k with
  | zero => exact hag.outlet (.inr (by omega))
  | succ k ih =>
    have hlen : (rowAt rows y).length ≤ (rowAt rows y).length - 1 + (k + 1) := by omega
    have he := cellAt_of_length_le hlen
    refine Iff.trans ?_ (ih (by omega))
    rw [outlet_of_untied (wired_wireRowsTo hw ys column) (by rw [cellAt_wireRowsTo, he])
      (by rw [cellAt_wireRowsTo, he]), ← Nat.add_assoc, inlet_succ]
    have hr : (cellAt (wireRowsTo rows ys column) ((rowAt rows y).length - 1 + k) y).right = true := by
      rw [cellAt_wireRowsTo]
      have : y < rows.length ∧ y ∈ ys ∧ (rowAt rows y).length ≤ (rowAt rows y).length - 1 + k + 1 ∧
          (rowAt rows y).length - 1 + k + 1 < column := ⟨hlt, hy, by omega, by omega⟩
      simp [this]
    have hcond : (cellAt (wireRowsTo rows ys column) ((rowAt rows y).length - 1 + k + 1) y).conducts
        bits = true := by
      rw [Nat.add_assoc, cellAt_wireRowsTo, he]
      rfl
    simp [hr, hcond]

/-! ## Ties -/

theorem wired_tie (hw : Wired (cellAt rows)) {bottom : Nat} (hb : bottom < rows.length)
    (x top : Nat) : Wired (cellAt (tie rows x top bottom)) := by
  constructor
  · intro k y
    rw [cellAt_tie, cellAt_tie]
    exact hw.right_eq k y
  · intro k y
    have hiff : (y < rows.length ∧ k = x ∧ top ≤ y ∧ y < bottom) ↔
        (y + 1 < rows.length ∧ k = x ∧ top < y + 1 ∧ y + 1 ≤ bottom) := by omega
    rw [cellAt_tie, cellAt_tie, hw.down_eq]
    simp only [hiff]
  · intro y
    rw [cellAt_tie]
    exact hw.left_zero y
  · intro k
    rw [cellAt_tie]
    simp [hw.up_zero]

variable {top bottom : Nat}

/-- Ties of the column that lead out of a tie at its ends would be cuts in the tied rows too. -/
theorem cut_tie (hw : Wired (cellAt rows)) (hup : (cellAt rows x top).up = false)
    (hdown : (cellAt rows x bottom).down = false) :
    Cut (cellAt (tie rows x top bottom)) x top ∧
      Cut (cellAt (tie rows x top bottom)) x (bottom + 1) := by
  constructor
  · rintro k rfl
    rw [cellAt_tie, hw.down_eq, hup, Bool.false_or, decide_eq_false_iff_not]
    omega
  · intro k hk
    obtain rfl : k = bottom := by omega
    rw [cellAt_tie, hdown, Bool.false_or, decide_eq_false_iff_not]
    omega

/-- Where a tie ends, links end. -/
theorem linked_tie (hw : Wired (cellAt rows)) (hb : bottom < rows.length)
    (hup : (cellAt rows x top).up = false) (hdown : (cellAt rows x bottom).down = false)
    (h₁ : top ≤ y) (h₂ : y ≤ bottom) (y' : Nat) :
    Linked (cellAt (tie rows x top bottom)) x y y' ↔ top ≤ y' ∧ y' ≤ bottom := by
  obtain ⟨hc₁, hc₂⟩ := cut_tie hw hup hdown
  constructor
  · intro hl
    have ht := hl.lt_iff hc₁
    have hb := hl.lt_iff hc₂
    omega
  · rintro ⟨h₃, h₄⟩ k hk₁ hk₂
    have : k < rows.length ∧ x = x ∧ top ≤ k ∧ k < bottom := by omega
    rw [cellAt_tie]
    simp [this]

/-- Links off a tie are as before. -/
theorem linked_tie_of_ne {k : Nat} (hw : Wired (cellAt rows))
    (hup : (cellAt rows x top).up = false) (hdown : (cellAt rows x bottom).down = false)
    (h : k ≠ x ∨ y < top ∨ bottom < y) (y' : Nat) :
    Linked (cellAt (tie rows x top bottom)) k y y' ↔ Linked (cellAt rows) k y y' := by
  constructor
  · intro hl j hj₁ hj₂
    have hd := hl j hj₁ hj₂
    rw [cellAt_tie, Bool.or_eq_true, decide_eq_true_eq] at hd
    rcases hd with hd | ⟨-, rfl, hj₃, hj₄⟩
    · exact hd
    · -- a link from outside would enter the tie at one of its ends
      obtain ⟨hc₁, hc₂⟩ := cut_tie hw hup hdown
      have ht := hl.lt_iff hc₁
      have hb := hl.lt_iff hc₂
      omega
  · intro hl j hj₁ hj₂
    rw [cellAt_tie, hl j hj₁ hj₂]
    rfl

theorem conducts_tie (k y : Nat) :
    (cellAt (tie rows x top bottom) k y).conducts bits = (cellAt rows k y).conducts bits := by
  rw [cellAt_tie]
  rfl

/-- Power that comes in at one of the rows of a tie. -/
def TiePower (rows : List Row) (bits : Text → Bool) (x top bottom : Nat) : Prop :=
  ∃ y, top ≤ y ∧ y ≤ bottom ∧ Inlet (cellAt rows) bits x y ∧ (cellAt rows x y).conducts bits = true

/-- A tie changes no inlet if its rows with stubs to the right had its power before. -/
theorem inlet_tie (hw : Wired (cellAt rows)) (hb : bottom < rows.length)
    (hup : (cellAt rows x top).up = false) (hdown : (cellAt rows x bottom).down = false)
    (hright : ∀ y, top ≤ y → y ≤ bottom → (cellAt rows x y).right = true →
      TiePower rows bits x top bottom → Outlet (cellAt rows) bits x y) (k y : Nat) :
    Inlet (cellAt (tie rows x top bottom)) bits k y ↔ Inlet (cellAt rows) bits k y := by
  refine @inlet_congr_column (cellAt rows) (cellAt (tie rows x top bottom)) bits x
    (fun k y hk => ⟨?_, conducts_tie k y⟩) (fun k y => ?_) (fun y hr => ?_) k y
  · rw [cellAt_tie]
    simp [hk]
  · rw [cellAt_tie]
  · simp only [conducts_tie]
    by_cases hy : top ≤ y ∧ y ≤ bottom
    · constructor
      · rintro ⟨y', hl, hi, hc⟩
        obtain ⟨h₁, h₂⟩ := (linked_tie hw hb hup hdown hy.1 hy.2 y').1 hl
        exact hright y hy.1 hy.2 hr ⟨y', h₁, h₂, hi, hc⟩
      · rintro ⟨y', hl, hi, hc⟩
        refine ⟨y', fun j hj₁ hj₂ => ?_, hi, hc⟩
        rw [cellAt_tie, hl j hj₁ hj₂]
        rfl
    · simp only [linked_tie_of_ne hw hup hdown (k := x) (y := y) (by omega)]
      rfl

/-- The outlets of a tie share the power that comes in at any of its rows. -/
theorem outlet_tie (hw : Wired (cellAt rows)) (hb : bottom < rows.length)
    (hup : (cellAt rows x top).up = false) (hdown : (cellAt rows x bottom).down = false)
    (hinlet : ∀ y', Inlet (cellAt (tie rows x top bottom)) bits x y' ↔ Inlet (cellAt rows) bits x y')
    (h₁ : top ≤ y) (h₂ : y ≤ bottom) :
    Outlet (cellAt (tie rows x top bottom)) bits x y ↔ TiePower rows bits x top bottom := by
  simp only [Outlet, TiePower, linked_tie hw hb hup hdown h₁ h₂, hinlet, conducts_tie, and_assoc]

/-! ## Elements -/

variable {column : Nat} {i : Instruction} {n : Nat}

theorem wired_put (hw : Wired (cellAt rows)) (hy : y < rows.length) :
    Wired (cellAt (put rows column y i n)) := by
  have h (x' y' : Nat) : (cellAt (put rows column y i n) x' y').right = (cellAt rows x' y').right ∧
      (cellAt (put rows column y i n) x' y').left = (cellAt rows x' y').left ∧
      (cellAt (put rows column y i n) x' y').down = (cellAt rows x' y').down ∧
      (cellAt (put rows column y i n) x' y').up = (cellAt rows x' y').up := by
    rw [cellAt_put column i n x' y' hy]
    split
    · next he => rw [he.1, he.2]; exact ⟨rfl, rfl, rfl, rfl⟩
    · exact ⟨rfl, rfl, rfl, rfl⟩
  exact ⟨fun x' y' => by rw [(h x' y').1, (h _ y').2.1, hw.right_eq],
    fun x' y' => by rw [(h x' y').2.2.1, (h x' _).2.2.2, hw.down_eq],
    fun y' => by rw [(h 0 y').2.1, hw.left_zero], fun x' => by rw [(h x' 0).2.2.2, hw.up_zero]⟩

theorem wired_putWired (hw : Wired (cellAt rows)) (hy : y < rows.length) :
    Wired (cellAt (putWired rows column y i n)) := by
  have hput : Wired (cellAt (put rows column y i n)) := wired_put hw hy
  constructor
  · intro x' y'
    have hiff : (y' = y ∧ x' + 1 = column) ↔ (y' = y ∧ x' + 1 = column ∧ 0 < column) := by omega
    rw [cellAt_putWired column i n _ _ hy, cellAt_putWired column i n _ _ hy, hw.right_eq]
    simp only [hiff]
  · intro x' y'
    rw [cellAt_putWired column i n _ _ hy, cellAt_putWired column i n _ _ hy]
    exact hput.down_eq x' y'
  · intro y'
    rw [cellAt_putWired column i n _ _ hy, hw.left_zero, Bool.false_or, decide_eq_false_iff_not]
    omega
  · intro x'
    rw [cellAt_putWired column i n _ _ hy]
    exact hput.up_zero x'

/-- An instruction put behind the end of a row does not change power anywhere else. -/
theorem agree_put (hw : Wired (cellAt rows)) (bits : Text → Bool) (hy : y < rows.length)
    (hlen : (rowAt rows y).length ≤ column) :
    Agree bits (fun x' y' => ¬(y' = y ∧ column ≤ x')) (cellAt rows)
      (cellAt (put rows column y i n)) := by
  have hne {x' y' : Nat} (hS : ¬(y' = y ∧ column ≤ x')) :
      cellAt (put rows column y i n) x' y' = cellAt rows x' y' := by
    rw [cellAt_put column i n x' y' hy, if_neg (by omega)]
  have hdown (x' y' : Nat) :
      (cellAt (put rows column y i n) x' y').down = (cellAt rows x' y').down := by
    rw [cellAt_put column i n x' y' hy]
    split
    · next he => rw [he.1, he.2]
    · rfl
  refine ⟨fun x' y' hS => ?_, fun x' y' y'' _ => linked_congr (hdown x'), fun x' y' y'' hS hl => ?_,
    fun x' y' hS => by rw [hne hS]⟩
  · have hS' : ¬(y' = y ∧ column ≤ x') := by omega
    exact ⟨hS', by rw [hne hS']⟩
  · rintro ⟨rfl, hc⟩
    have he := cellAt_of_length_le (Nat.le_trans hlen hc)
    exact hS ⟨hl.symm.eq_of_untied hw (by rw [he]) (by rw [he]), hc⟩

/-- An element wired behind the end of a row does not change power in front of it. -/
theorem agree_putWired (hw : Wired (cellAt rows)) (bits : Text → Bool) (hy : y < rows.length)
    (hlen : (rowAt rows y).length ≤ column) :
    Agree bits (fun x' y' => ¬(y' = y ∧ column ≤ x')) (cellAt rows)
      (cellAt (putWired rows column y i n)) := by
  have hag := agree_put (i := i) (n := n) hw bits hy hlen
  have hdown (x' y' : Nat) : (cellAt (putWired rows column y i n) x' y').down =
      (cellAt (put rows column y i n) x' y').down := by
    rw [cellAt_putWired column i n x' y' hy]
  refine ⟨fun x' y' hS => ⟨(hag.right x' y' hS).1, ?_⟩,
    fun x' y' y'' hS => (linked_congr (hdown x')).trans (hag.linked x' y' y'' hS), hag.closed,
    fun x' y' hS => ?_⟩
  · have hn : ¬(y' = y ∧ x' + 1 = column) := by omega
    rw [cellAt_putWired column i n x' y' hy]
    simp [hn]
  · rw [← hag.conducts x' y' hS, cellAt_putWired column i n x' y' hy]
    rfl

/-- Power comes in at an element behind a row if it is at the outlet in front of it. -/
theorem inlet_putWired (hw : Wired (cellAt rows)) (hy : y < rows.length)
    (hlen : (rowAt rows y).length ≤ x + 1) :
    Inlet (cellAt (putWired rows (x + 1) y i n)) bits (x + 1) y ↔ Outlet (cellAt rows) bits x y := by
  have hag := agree_putWired (i := i) (n := n) hw bits hy hlen
  have hr : (cellAt (putWired rows (x + 1) y i n) x y).right = true := by
    rw [cellAt_putWired (x + 1) i n x y hy]
    simp
  rw [inlet_succ, hr, hag.outlet (x := x) (y := y) (by omega)]
  simp

/-- Power leaves an element behind a row if it comes in and the element lets it through. -/
theorem outlet_putWired (hw : Wired (cellAt rows)) (hy : y < rows.length)
    (hlen : (rowAt rows y).length ≤ x + 1) :
    Outlet (cellAt (putWired rows (x + 1) y i n)) bits (x + 1) y ↔
      Outlet (cellAt rows) bits x y ∧ Cell.conducts bits { instruction := some i } = true := by
  have he := cellAt_of_length_le hlen
  have hcell : cellAt (putWired rows (x + 1) y i n) (x + 1) y =
      { instruction := some i, source := some n, left := true } := by
    rw [cellAt_putWired (x + 1) i n _ _ hy, cellAt_put (x + 1) i n _ _ hy, he]
    simp
  rw [outlet_of_untied (wired_putWired hw hy) (by rw [hcell]) (by rw [hcell]),
    inlet_putWired hw hy hlen, hcell]
  rfl

/-! ## Cells that are fed -/

theorem isEmpty_eq_false {c : Cell} : c.isEmpty = false ↔
    c.instruction ≠ none ∨ c.up = true ∨ c.down = true ∨ c.left = true ∨ c.right = true := by
  cases h : c.instruction with
  | none =>
    simp only [Cell.isEmpty, Cell.isWired, h, ← Bool.not_eq_false]
    grind
  | some i => simp [Cell.isEmpty, h]

theorem isEmpty_of_down {c : Cell} (h : c.down = true) : c.isEmpty = false :=
  isEmpty_eq_false.2 (.inr (.inr (.inl h)))

theorem isEmpty_of_right {c : Cell} (h : c.right = true) : c.isEmpty = false :=
  isEmpty_eq_false.2 (.inr (.inr (.inr (.inr h))))

theorem drawn_wireRowsTo {ys : List Nat} (h : (cellAt rows x y).isEmpty = false) :
    (cellAt (wireRowsTo rows ys column) x y).isEmpty = false := by
  rw [isEmpty_eq_false] at h ⊢
  rw [cellAt_wireRowsTo]
  rcases h with h | h | h | h | h <;> simp [h]

theorem drawn_tie {k : Nat} (h : (cellAt rows k y).isEmpty = false) :
    (cellAt (tie rows x top bottom) k y).isEmpty = false := by
  rw [isEmpty_eq_false] at h ⊢
  rw [cellAt_tie]
  rcases h with h | h | h | h | h <;> simp [h]

/-- Every cell behind the rail that is not empty has a stub to the left or up. -/
def Fed (rows : List Row) : Prop := ∀ x y, (cellAt rows (x + 1) y).isEmpty = false →
  (cellAt rows (x + 1) y).left = true ∨ (cellAt rows (x + 1) y).up = true

/-- Wire is fed from the left. -/
theorem fed_wireRowsTo {ys : List Nat} (hf : Fed rows)
    (hend : ∀ r ∈ ys, (cellAt rows ((rowAt rows r).length - 1) r).isEmpty = false) :
    Fed (wireRowsTo rows ys column) := by
  intro x y hne
  by_cases hold : (cellAt rows (x + 1) y).isEmpty = false
  · rw [cellAt_wireRowsTo]
    rcases hf x y hold with h | h <;> simp [h]
  · -- an empty cell that gets wire lies behind the end of its row
    rw [isEmpty_eq_false] at hne hold
    rw [cellAt_wireRowsTo] at hne ⊢
    have hnew : y < rows.length ∧ y ∈ ys ∧ (rowAt rows y).length ≤ x + 2 ∧ x + 1 < column := by
      simp only [Bool.or_eq_true, decide_eq_true_eq] at hne
      grind
    have hlen : (rowAt rows y).length ≤ x + 1 := by
      refine Nat.le_of_not_lt fun hlt => hold ?_
      have := hend y hnew.2.1
      rw [show (rowAt rows y).length - 1 = x + 1 by omega, isEmpty_eq_false] at this
      exact this
    left
    simp [hnew.1, hnew.2.1, hnew.2.2.2, hlen]

/-- Tied cells are fed from above, but for the uppermost one. -/
theorem fed_tie (hf : Fed rows) (htop : (cellAt rows x top).isEmpty = false) :
    Fed (tie rows x top bottom) := by
  intro k y hne
  by_cases hold : (cellAt rows (k + 1) y).isEmpty = false
  · rw [cellAt_tie]
    rcases hf k y hold with h | h <;> simp [h]
  · have hnot : ¬(k + 1 = x ∧ y = top) := fun h => hold (by rw [h.1, h.2]; exact htop)
    rw [isEmpty_eq_false] at hne hold
    rw [cellAt_tie] at hne ⊢
    simp only [Bool.or_eq_true, decide_eq_true_eq] at hne ⊢
    have hnew : y < rows.length ∧ k + 1 = x ∧ top < y ∧ y ≤ bottom := by grind
    exact .inr (.inr hnew)

/-! ## Buses -/

/-- A bus can be drawn from a cell down: nothing is tied to the cell from above, and no cell below
it is wired to the left. -/
def BusClear (rows : List Row) (x y : Nat) : Prop :=
  (cellAt rows x y).up = false ∧ ∀ y' < rows.length, y < y' → (cellAt rows x y').left = false

instance (rows : List Row) (x y : Nat) : Decidable (BusClear rows x y) :=
  inferInstanceAs (Decidable (_ ∧ _))

theorem BusClear.left_eq {y' : Nat} (hc : BusClear rows x y) (hlt : y < y') :
    (cellAt rows x y').left = false := by
  by_cases hy : y' < rows.length
  · exact hc.2 y' hy hlt
  · rw [cellAt_of_height_le (by omega)]

/-- What is drawn below a clear cell, in its column, hangs on it already. -/
theorem linked_of_busClear (hw : Wired (cellAt rows)) (hf : Fed rows)
    (hc : BusClear rows (x + 1) y) {y' : Nat} (hle : y ≤ y')
    (hne : (cellAt rows (x + 1) y').isEmpty = false) : Linked (cellAt rows) (x + 1) y' y := by
  obtain ⟨k, rfl⟩ := Nat.exists_eq_add_of_le hle
  clear hle
  induction k with
  | zero => exact .refl _ _ _
  | succ k ih =>
    -- the cell is fed from above, as it is not from the left
    have hup : (cellAt rows (x + 1) (y + (k + 1))).up = true := by
      rcases hf x _ hne with h | h
      · rw [hc.left_eq (by omega)] at h
        cases h
      · exact h
    have hd : (cellAt rows (x + 1) (y + k)).down = true := by
      rw [hw.down_eq]
      exact hup
    exact (Linked.of_down hd).symm.trans (ih (isEmpty_of_down hd))

/-- A clear bus is fed from its upper end alone. -/
theorem tiePower_of_busClear (hw : Wired (cellAt rows)) (hc : BusClear rows (x + 1) y)
    (hcond : (cellAt rows (x + 1) y).conducts bits = true) {bottom : Nat} (hle : y ≤ bottom) :
    TiePower rows bits (x + 1) y bottom ↔ Inlet (cellAt rows) bits (x + 1) y := by
  constructor
  · rintro ⟨y', h₁, -, hi, -⟩
    rcases Nat.lt_or_eq_of_le h₁ with hlt | rfl
    · have hl := hc.left_eq hlt
      rw [← hw.right_eq] at hl
      rw [inlet_succ, hl] at hi
      cases hi.1
    · exact hi
  · intro hi
    exact ⟨y, Nat.le_refl y, hle, hi, hcond⟩

/-- A bus from a clear cell down to a new row, where it ends in an instruction. -/
def dropBus (rows : List Row) (x y : Nat) (i : Instruction) (n : Nat) : List Row :=
  put (tie (rows ++ [[]]) x y rows.length) x rows.length i n

theorem wired_dropBus (hw : Wired (cellAt rows)) : Wired (cellAt (dropBus rows x y i n)) := by
  have hw' : Wired (cellAt (rows ++ [[]])) := by
    rw [cellAt_append_nil_eq]
    exact hw
  exact wired_put (wired_tie hw' (by simp) x y) (by simp)

theorem cellAt_dropBus (rows : List Row) (x y : Nat) (i : Instruction) (n x' y' : Nat) :
    cellAt (dropBus rows x y i n) x' y' =
      if x' = x ∧ y' = rows.length then
        { instruction := some i, source := some n, up := decide (y < rows.length) }
      else { cellAt rows x' y' with
        up := (cellAt rows x' y').up || decide (x' = x ∧ y < y' ∧ y' ≤ rows.length)
        down := (cellAt rows x' y').down || decide (x' = x ∧ y ≤ y' ∧ y' < rows.length) } := by
  rw [dropBus, cellAt_put x i n x' y' (by simp)]
  split
  · rw [cellAt_tie, cellAt_append_nil, cellAt_of_height_le (Nat.le_refl _)]
    simp
  · have hu : (y' < (rows ++ [[]]).length ∧ x' = x ∧ y < y' ∧ y' ≤ rows.length) ↔
        (x' = x ∧ y < y' ∧ y' ≤ rows.length) := by
      rw [List.length_append, List.length_singleton]
      omega
    have hd : (y' < (rows ++ [[]]).length ∧ x' = x ∧ y ≤ y' ∧ y' < rows.length) ↔
        (x' = x ∧ y ≤ y' ∧ y' < rows.length) := by
      rw [List.length_append, List.length_singleton]
      omega
    rw [cellAt_tie, cellAt_append_nil]
    simp only [hu, hd]

/-- A bus from a clear cell changes no inlet, and ends with the power that comes in at the cell. -/
theorem power_dropBus (hw : Wired (cellAt rows)) (hf : Fed rows) (hc : BusClear rows (x + 1) y)
    (hy : y < rows.length) (hcond : (cellAt rows (x + 1) y).conducts bits = true)
    (hi : Cell.conducts bits { instruction := some i } = true) :
    (∀ x' y', Inlet (cellAt (dropBus rows (x + 1) y i n)) bits x' y' ↔
      Inlet (cellAt rows) bits x' y') ∧
    (Outlet (cellAt (dropBus rows (x + 1) y i n)) bits (x + 1) rows.length ↔
      Inlet (cellAt rows) bits (x + 1) y) := by
  have hcell : cellAt (rows ++ [[]]) = cellAt rows := cellAt_append_nil_eq rows
  have hw' : Wired (cellAt (rows ++ [[]])) := hcell ▸ hw
  have hb : rows.length < (rows ++ [[]]).length := by simp
  have hup : (cellAt (rows ++ [[]]) (x + 1) y).up = false := hcell ▸ hc.1
  have hdown : (cellAt (rows ++ [[]]) (x + 1) rows.length).down = false := by
    rw [hcell, cellAt_of_height_le (Nat.le_refl _)]
  have htie : TiePower (rows ++ [[]]) bits (x + 1) y rows.length ↔
      Inlet (cellAt rows) bits (x + 1) y := by
    rw [TiePower, hcell]
    exact tiePower_of_busClear hw hc hcond (Nat.le_of_lt hy)
  -- what hangs on the bus with a stub to the right hung on its upper end before
  have hinlet (x' y' : Nat) :
      Inlet (cellAt (tie (rows ++ [[]]) (x + 1) y rows.length)) bits x' y' ↔
        Inlet (cellAt (rows ++ [[]])) bits x' y' := by
    refine inlet_tie hw' hb hup hdown (fun y₁ h₁ _ hr hp => ?_) x' y'
    rw [hcell] at hr ⊢
    have hl := linked_of_busClear hw hf hc h₁ (isEmpty_of_right hr)
    exact (outlet_congr hl).2 (.of_inlet (htie.1 hp) hcond)
  -- the instruction at its end lets power through, as the wire did
  have hput : Agree bits (fun _ _ => True) (cellAt (tie (rows ++ [[]]) (x + 1) y rows.length))
      (cellAt (dropBus rows (x + 1) y i n)) := by
    have hend (x' y' : Nat) : (cellAt (dropBus rows (x + 1) y i n) x' y').right =
          (cellAt (tie (rows ++ [[]]) (x + 1) y rows.length) x' y').right ∧
        (cellAt (dropBus rows (x + 1) y i n) x' y').down =
          (cellAt (tie (rows ++ [[]]) (x + 1) y rows.length) x' y').down ∧
        (cellAt (dropBus rows (x + 1) y i n) x' y').conducts bits =
          (cellAt (tie (rows ++ [[]]) (x + 1) y rows.length) x' y').conducts bits := by
      rw [dropBus, cellAt_put (x + 1) i n x' y' (by simp)]
      split
      · next he =>
        rw [he.1, he.2]
        refine ⟨rfl, rfl, ?_⟩
        rw [conducts_tie, hcell, cellAt_of_height_le (Nat.le_refl _)]
        exact hi
      · exact ⟨rfl, rfl, rfl⟩
    exact ⟨fun x' y' _ => ⟨trivial, (hend x' y').1⟩, fun x' y' y'' _ =>
      linked_congr fun k => (hend x' k).2.1, fun _ _ _ _ _ => trivial, fun x' y' _ => (hend x' y').2.2⟩
  constructor
  · intro x' y'
    rw [hput.inlet trivial, hinlet, hcell]
  · rw [hput.outlet trivial, outlet_tie hw' hb hup hdown (hinlet (x + 1)) (Nat.le_of_lt hy)
      (Nat.le_refl _), htie]

end Sheet
end LadderLogic
