import LadderLogic.Proofs.Strips

/-!
# Regions

A region of the canvas is a block of the sheet (`Region.block`), as long as its active rows stand in order
below its output row (`Region.Ordered`). The regions that wait stand above one another (`Drawn`), and the
margins that are drawn stand above all regions but those that begin in the first row (`Clear`). To tie the
active rows of a region keeps all of this (`GoOn.converge`, `Clear.converge`), does on the rows what it
does on the sheet (`toRows_converge`), and leaves the output row drawn up to the last column
(`Reaches.converge`).

Source: `_Block` and `_LayoutBuilder.converge` (section 4.1 of the specification).
-/

namespace LadderLogic

/-! ## Regions as blocks -/

namespace Region

/-- The block that a region is: its output row, and the other active rows. -/
def block (r : Region) : Block :=
  { width := r.width, out := r.out, pending := r.active.tail, top := r.top }

/-- What holds of a region on a canvas with so many rows: the active rows stand in order, with the output
row first, and only a region that begins in the first row is without a column. -/
structure Ordered (height : Nat) (r : Region) : Prop where
  active_eq : r.active = r.out :: r.active.tail
  sorted : r.active.Pairwise (· < ·)
  lt_height : ∀ y ∈ r.active, y < height
  top_le : r.top ≤ r.out
  width_pos : 0 < r.out → 0 < r.width

variable {r : Region} {height : Nat}

theorem Ordered.rows_block (h : r.Ordered height) : r.block.rows = r.active := h.active_eq.symm

theorem Ordered.mono {height' : Nat} (h : r.Ordered height) (hle : height ≤ height') :
    r.Ordered height' :=
  { h with lt_height := fun y hy => Nat.lt_of_lt_of_le (h.lt_height y hy) hle }

theorem Ordered.out_mem (h : r.Ordered height) : r.out ∈ r.active := by
  rw [h.active_eq]
  exact List.mem_cons_self

theorem Ordered.out_le (h : r.Ordered height) : ∀ y ∈ r.active, r.out ≤ y := by
  have hsorted := h.sorted
  rw [h.active_eq] at hsorted ⊢
  intro y hy
  rcases List.mem_cons.1 hy with rfl | hy
  · exact Nat.le_refl _
  · exact Nat.le_of_lt (List.rel_of_pairwise_cons hsorted hy)

theorem Ordered.first_eq (h : r.Ordered height) : r.first = r.out := by
  rw [first, List.min?_eq_some_iff.2 ⟨h.out_mem, h.out_le⟩, Option.getD_some]

/-- The last of numbers in order is the largest. -/
theorem max?_eq_getLast? {ys : List Nat} (h : ys.Pairwise (· < ·)) : ys.max? = ys.getLast? := by
  cases hlast : ys.getLast? with
  | none => rw [List.getLast?_eq_none_iff.1 hlast, List.max?_nil]
  | some last =>
    exact List.max?_eq_some_iff.2 ⟨List.mem_of_getLast? hlast, fun _ => Sheet.le_of_getLast? h hlast⟩

/-- A region with more than one active row is tied down to the last of them. -/
theorem Ordered.getLast?_pending (h : r.Ordered height) (hlen : ¬r.active.length ≤ 1) :
    r.block.pending.getLast? = some r.last ∧ r.out < r.last ∧ r.last ∈ r.active := by
  obtain ⟨pending, hp⟩ : ∃ pending, r.active = r.out :: pending := ⟨_, h.active_eq⟩
  have hsorted := h.sorted
  rw [last, max?_eq_getLast? h.sorted, block]
  rw [hp] at hsorted hlen ⊢
  have hne : pending ≠ [] := fun hnil => hlen (by rw [hnil]; exact Nat.le_refl 1)
  have hmem := List.getLast_mem hne
  rw [List.tail_cons, List.getLast?_cons, List.getLast?_eq_some_getLast hne]
  exact ⟨rfl, List.rel_of_pairwise_cons hsorted hmem, List.mem_cons_of_mem _ hmem⟩

/-- More active rows below the others. -/
theorem Ordered.append {ys : List Nat} {width height' : Nat} (h : r.Ordered height)
    (hle : height ≤ height') (hw : r.width ≤ width) (hsorted : ys.Pairwise (· < ·))
    (hbelow : ∀ y ∈ r.active, ∀ z ∈ ys, y < z) (hlt : ∀ z ∈ ys, z < height') :
    Ordered height' { r with width, active := r.active ++ ys } where
  active_eq := by
    obtain ⟨pending, hp⟩ : ∃ pending, r.active = r.out :: pending := ⟨_, h.active_eq⟩
    rw [hp]
    rfl
  sorted := List.pairwise_append.2 ⟨h.sorted, hsorted, hbelow⟩
  lt_height y hy := (List.mem_append.1 hy).elim
    (fun hy => Nat.lt_of_lt_of_le (h.lt_height y hy) hle) (hlt y)
  top_le := h.top_le
  width_pos hpos := Nat.lt_of_lt_of_le (h.width_pos hpos) hw

theorem Ordered.block_append (h : r.Ordered height) (width : Nat) (ys : List Nat) :
    ({ r with width, active := r.active ++ ys } : Region).block =
      { r.block with width, pending := r.block.pending ++ ys } := by
  obtain ⟨pending, hp⟩ : ∃ pending, r.active = r.out :: pending := ⟨_, h.active_eq⟩
  rw [block, block, hp]
  rfl

/-- Rows that stand below the others are added as they are. -/
theorem union_eq_append {ys zs : List Nat} (h : ∀ y ∈ ys, ∀ z ∈ zs, y < z) : union ys zs = ys ++ zs := by
  rw [union, List.filter_eq_self.2 fun z hz => ?_]
  rw [Bool.not_eq_true', ← Bool.not_eq_true, List.contains_iff_mem]
  exact fun hmem => Nat.lt_irrefl z (h z hmem z hz)

end Region

namespace Canvas

variable {rows rows' : List Strip} {r : Region} {regions : List Region}

/-! ## What holds of a drawing -/

/-- The output row of a region is drawn up to its last column. -/
def Reaches (rows : List Strip) (r : Region) : Prop :=
  ∀ x, r.width = x + 1 → ∃ s, rows[r.out]? = some s ∧ (s.cell? x).isSome = true

theorem Reaches.goOn (h : Reaches rows r) (hgo : GoOn rows rows') : Reaches rows' r := by
  intro x hx
  obtain ⟨s, hs, hcell⟩ := h x hx
  obtain ⟨s', hs', hgoes⟩ := hgo.2 r.out s hs
  exact ⟨s', hs', hgoes.isSome x hcell⟩

/-- What holds of the rows and of the regions on them, the last one first: a region that waits stands
above the first row of those that were begun after it, and the output row of a region without other
active rows is drawn up to its last column. -/
structure Drawn (rows : List Strip) (regions : List Region) : Prop where
  strips : Strips rows
  ordered : ∀ r ∈ regions, r.Ordered rows.length
  nested : regions.Pairwise fun b a => ∀ y ∈ a.active, y < b.top
  reaches : ∀ r ∈ regions, r.active.length ≤ 1 → Reaches rows r

namespace Drawn

theorem nil : Drawn [] [] where
  strips y s hs := by cases hs
  ordered := by simp
  nested := .nil
  reaches := by simp

theorem goOn (h : Drawn rows regions) (hgo : GoOn rows rows') : Drawn rows' regions where
  strips := hgo.strips h.strips
  ordered r hr := (h.ordered r hr).mono (Nat.le_of_eq hgo.1.symm)
  nested := h.nested
  reaches r hr hlen := (h.reaches r hr hlen).goOn hgo

theorem tail (h : Drawn rows (r :: regions)) : Drawn rows regions where
  strips := h.strips
  ordered r hr := h.ordered r (List.mem_cons_of_mem _ hr)
  nested := h.nested.of_cons
  reaches r hr := h.reaches r (List.mem_cons_of_mem _ hr)

theorem cons (h : Drawn rows regions) (hr : r.Ordered rows.length)
    (hnested : ∀ a ∈ regions, ∀ y ∈ a.active, y < r.top)
    (hreaches : r.active.length ≤ 1 → Reaches rows r) : Drawn rows (r :: regions) where
  strips := h.strips
  ordered := List.forall_mem_cons.2 ⟨hr, h.ordered⟩
  nested := List.pairwise_cons.2 ⟨hnested, h.nested⟩
  reaches := List.forall_mem_cons.2 ⟨hreaches, h.reaches⟩

/-- A new row below all others. -/
theorem concat {s : Strip} (h : Drawn rows regions) (hs : s.Sound rows.length) :
    Drawn (rows ++ [s]) regions where
  strips := by
    intro y s' hs'
    rcases Nat.lt_or_ge y rows.length with hy | hy
    · exact h.strips y s' (by rwa [List.getElem?_append_left hy] at hs')
    · have hlt := (List.getElem?_eq_some_iff.1 hs').1
      rw [List.length_append, List.length_singleton] at hlt
      obtain rfl : y = rows.length := by omega
      rw [List.getElem?_concat_length] at hs'
      exact Option.some.inj hs' ▸ hs
  ordered r hr := (h.ordered r hr).mono (by simp)
  nested := h.nested
  reaches r hr hlen x hx := by
    obtain ⟨s', hs', hcell⟩ := h.reaches r hr hlen x hx
    exact ⟨s', by rw [List.getElem?_append_left (List.getElem?_eq_some_iff.1 hs').1, hs'], hcell⟩

end Drawn

/-- The margins that are drawn: none in or below the first row of a region that does not begin in the
first row of all, and none as long as there is only one row. -/
structure Clear (margins : List (Option Cell)) (tops : List Nat) : Prop where
  below : ∀ top ∈ tops, 0 < top → ∀ (y : Nat) m, top ≤ y → margins[y]? = some m → m = none
  alone : margins.length = 1 → ∀ m ∈ margins, m = none

namespace Clear

variable {margins : List (Option Cell)} {top : Nat} {tops tops' : List Nat}

theorem subset (h : Clear margins tops) (hsub : tops' ⊆ tops) : Clear margins tops' :=
  ⟨fun top ht => h.below top (hsub ht), h.alone⟩

theorem cons (h : Clear margins tops)
    (hnew : ∀ (y : Nat) m, top ≤ y → margins[y]? = some m → m = none) : Clear margins (top :: tops) :=
  ⟨List.forall_mem_cons.2 ⟨fun _ => hnew, h.below⟩, h.alone⟩

/-- The margin of a new row is not drawn. -/
theorem concat (h : Clear margins tops) : Clear (margins ++ [none]) tops := by
  refine ⟨fun top ht hpos y m hy hm => ?_, fun hlen m hm => ?_⟩
  · rcases Nat.lt_or_ge y margins.length with hlt | hge
    · rw [List.getElem?_append_left hlt] at hm
      exact h.below top ht hpos y m hy hm
    · rw [List.getElem?_append_right hge] at hm
      exact List.mem_singleton.1 (List.mem_of_getElem? hm)
  · rw [List.length_append, List.length_singleton] at hlen
    obtain rfl : margins = [] := List.eq_nil_of_length_eq_zero (by omega)
    exact List.mem_singleton.1 hm

end Clear

/-! ## Active rows -/

theorem snd_converge {height : Nat} (h : r.Ordered height) :
    (converge rows r).2 = { r with active := [r.out] } := by
  rw [converge]
  split
  · next hlen =>
    have htail : r.active.tail = [] := by
      rw [h.active_eq] at hlen
      exact List.eq_nil_of_length_eq_zero (Nat.le_zero.1 (Nat.le_of_succ_le_succ hlen))
    have hactive : r.active = [r.out] := by rw [h.active_eq, htail]
    rw [← hactive]
  · rfl

theorem converge_eq {height : Nat} (h : r.Ordered height) :
    converge rows r = ((converge rows r).1, { r with active := [r.out] }) :=
  Prod.ext rfl (snd_converge h)

theorem fst_converge {height : Nat} (h : r.Ordered height) (hlen : ¬r.active.length ≤ 1) :
    (converge rows r).1 = tieBefore (fillRows rows r.active r.width) r.width r.out r.last := by
  rw [converge, if_neg hlen, h.first_eq]

theorem fst_converge_of_le (hlen : r.active.length ≤ 1) : (converge rows r).1 = rows := by
  rw [converge, if_pos hlen]

theorem GoOn.converge (hs : Strips rows) (h : r.Ordered rows.length) :
    GoOn rows (converge rows r).1 := by
  by_cases hlen : r.active.length ≤ 1
  · rw [fst_converge_of_le hlen]
    exact ⟨rfl, fun y s hs => ⟨s, hs, .refl y s⟩⟩
  · rw [fst_converge h hlen]
    exact (GoOn.fillRows hs r.active r.width).trans (.tieBefore r.width (h.getLast?_pending hlen).2.1)

/-- The active rows are tied as on a sheet. Those of a region without a column are tied in the margin,
which cannot be seen. -/
theorem toRows_converge (hs : Strips rows) (h : r.Ordered rows.length) :
    toRows (converge rows r).1 = Sheet.tiePending (toRows rows) r.block := by
  by_cases hlen : r.active.length ≤ 1
  · have htail : r.block.pending = [] := by
      rw [h.active_eq] at hlen
      exact List.eq_nil_of_length_eq_zero (Nat.le_zero.1 (Nat.le_of_succ_le_succ hlen))
    rw [fst_converge_of_le hlen, Sheet.tiePending_of_nil _ htail]
  · rw [fst_converge h hlen]
    cases hw : r.width with
    | zero =>
      rw [Sheet.tiePending_of_width _ hw, fillRows_zero, toRows_tieBefore_zero]
    | succ x =>
      rw [Sheet.tiePending_eq _ (h.getLast?_pending hlen).1 hw, toRows_tieBefore, toRows_fillRows hs,
        h.rows_block]
      rfl

/-- Tied to the other active rows, the output row is drawn up to the last column. -/
theorem Reaches.converge (h : r.Ordered rows.length) (hr : r.active.length ≤ 1 → Reaches rows r) :
    Reaches (converge rows r).1 r := by
  by_cases hlen : r.active.length ≤ 1
  · rw [fst_converge_of_le hlen]
    exact hr hlen
  · rw [fst_converge h hlen]
    intro x hx
    have hout : r.out < (fillRows rows r.active (x + 1)).length := by
      rw [fillRows, List.length_mapIdx]
      exact h.lt_height _ h.out_mem
    rw [hx]
    exact isSome_tieBefore x hout (Nat.le_refl _) (Nat.le_of_lt (h.getLast?_pending hlen).2.1)

theorem Clear.converge (before : List Region) {after : List Region} (h : Drawn rows (before ++ r :: after))
    (hc : Clear (margins rows) ((before ++ r :: after).map Region.top)) :
    Clear (margins (converge rows r).1) ((before ++ r :: after).map Region.top) := by
  have hr : r.Ordered rows.length := h.ordered r (by simp)
  by_cases hlen : r.active.length ≤ 1
  · rwa [fst_converge_of_le hlen]
  · rw [fst_converge hr hlen]
    cases hw : r.width with
    | succ x => rwa [margins_tieBefore, margins_fillRows]
    | zero =>
      -- the region begins in the first row, and all that do not begin there begin below its active rows
      have hout : r.out = 0 := by
        have := hr.width_pos
        omega
      have htop : r.top = 0 := Nat.le_zero.1 (hout ▸ hr.top_le)
      obtain ⟨-, hlast, hmem⟩ := hr.getLast?_pending hlen
      have hheight := hr.lt_height _ hmem
      obtain ⟨-, hafter, hbefore⟩ := List.pairwise_append.1 h.nested
      rw [fillRows_zero]
      refine ⟨fun top ht hpos y m hy hm => ?_, fun hlen => ?_⟩
      · obtain ⟨q, hq, rfl⟩ := List.mem_map.1 ht
        rcases List.mem_append.1 hq with hq' | hq'
        · have hbelow : r.last < q.top := hbefore q hq' r List.mem_cons_self _ hmem
          rw [getElem?_margins_tieBefore _ _ (by omega)] at hm
          exact hc.below q.top ht hpos y m hy hm
        · rcases List.mem_cons.1 hq' with rfl | hq''
          · omega
          · have habove := (List.pairwise_cons.1 hafter).1 q hq'' q.out (h.ordered q hq).out_mem
            omega
      · rw [margins, List.length_map, tieBefore, List.length_mapIdx] at hlen
        omega

end Canvas
end LadderLogic
