import LadderLogic.Proofs.Regions
import Mathlib.Data.List.Induction

/-!
# The canvas and the sheet

Every program leaves on the canvas what it leaves on the sheet (`sheet_canvas`), so that its diagram is
the one on the sheet (`layout_eq`). What a canvas holds beyond a sheet is without effect:

- the first instruction that is drawn finds a canvas with one blank row and nothing left open
  (`Sound.rows_eq_of_isBare`, `Sound.fresh`), so that to begin a new diagram changes nothing more;
- a tie in front of column 0 stands in the margin, where it cannot be seen (`toRows_converge`), and no
  margin is ever moved into a column, since all regions but the lowest begin below the margins that are
  drawn (`Clear`);
- every cell that is to be wired to the left finds a cell there, since the output row of a region is drawn
  up to its last column as soon as its active rows are tied (`Reaches`);
- a row begins at the rail exactly if something is in its first cell (`Strip.Sound.rail`).

All of this is one invariant (`Sound`), which each step keeps while it does the same on the sheet.

Source: `_LayoutBuilder` and `layout` (section 4.1 of the specification).
-/

namespace LadderLogic
namespace Canvas

variable {rows : List Strip} {r : Region} {regions : List Region} {c : Canvas}

/-- What holds of a canvas. -/
structure Sound (c : Canvas) : Prop where
  drawn : Drawn c.rows (c.region :: c.waiting)
  clear : Clear (margins c.rows) ((c.region :: c.waiting).map Region.top)
  anchored : ∀ p ∈ c.anchors, p.2 < c.rows.length
  fresh : c.isBlank = false ∨ c.waiting = [] ∧ c.anchors = []

/-- The sheet that can be seen of a canvas. -/
def sheet (c : Canvas) : Sheet where
  rows := toRows c.rows
  block := c.region.block
  waiting := c.waiting.map Region.block
  anchors := c.anchors

theorem length_rows_sheet (c : Canvas) : c.sheet.rows.length = c.rows.length := length_toRows c.rows

/-! ## Blank canvases -/

theorem isBlank_eq_false_of_isDrawn {y : Nat} {s : Strip} (hs : c.rows[y]? = some s)
    (hd : s.isDrawn = true) : c.isBlank = false := by
  rw [isBlank, Bool.not_eq_false']
  exact List.any_eq_true.2 ⟨s, List.mem_of_getElem? hs, hd⟩

/-- With a second row the canvas is not blank. -/
theorem isBlank_eq_false_of_height (hs : Strips c.rows) (h : 1 < c.rows.length) : c.isBlank = false :=
  have hsecond := List.getElem?_eq_getElem h
  have hsound := hs 1 _ hsecond
  isBlank_eq_false_of_isDrawn hsecond (hsound.isDrawn_of_length_pos (hsound.started Nat.one_pos))

/-- With a region drawn up to its last column the canvas is not blank. -/
theorem isBlank_eq_false_of_reaches {x : Nat} (h : Reaches c.rows r) (hw : r.width = x + 1) :
    c.isBlank = false := by
  obtain ⟨s, hs, hcell⟩ := h x hw
  exact isBlank_eq_false_of_isDrawn hs (Strip.isDrawn_of_isSome hcell)

namespace Sound

theorem height_pos (h : c.Sound) : 0 < c.rows.length :=
  have hr := h.drawn.ordered c.region List.mem_cons_self
  Nat.lt_of_le_of_lt (Nat.zero_le _) (hr.lt_height _ hr.out_mem)

/-- If no cell can be seen then there is one row, in which nothing is drawn. -/
theorem rows_eq_of_isBare (h : c.Sound) (hb : c.sheet.isBare = true) : c.rows = [{}] := by
  have hnone : ∀ s ∈ c.rows, s.cells = [] := fun s hs =>
    List.map_eq_nil_iff.1 (List.isEmpty_iff.1 (List.all_eq_true.1 hb _ (List.mem_map_of_mem hs)))
  have hheight : ¬1 < c.rows.length := fun hlt => by
    have hstarted := (h.drawn.strips 1 _ (List.getElem?_eq_getElem hlt)).started Nat.one_pos
    rw [hnone _ (List.getElem_mem hlt)] at hstarted
    exact Nat.lt_irrefl 0 hstarted
  obtain ⟨s, hs⟩ := List.length_eq_one_iff.1 (Nat.le_antisymm (Nat.le_of_not_lt hheight) h.height_pos)
  have hmargin : s.margin = none :=
    h.clear.alone (by rw [hs]; rfl) s.margin (by rw [hs]; exact List.mem_cons_self)
  have hcells : s.cells = [] := hnone s (by rw [hs]; exact List.mem_cons_self)
  obtain ⟨margin, cells⟩ := s
  cases hmargin
  cases hcells
  exact hs

/-- A cell can be seen as soon as something is drawn. -/
theorem isBare_sheet (h : c.Sound) : c.sheet.isBare = c.isBlank := by
  cases hb : c.sheet.isBare with
  | true =>
    rw [isBlank, h.rows_eq_of_isBare hb]
    rfl
  | false =>
    obtain ⟨row, hrow, hne⟩ := List.all_eq_false.1 hb
    obtain ⟨s, hs, rfl⟩ := List.mem_map.1 hrow
    obtain ⟨y, hy⟩ := List.mem_iff_getElem?.1 hs
    have hcells : 0 < s.cells.length := by
      rw [← Strip.length_toRow]
      exact List.length_pos_iff.2 fun hnil => hne (by rw [hnil]; rfl)
    exact (isBlank_eq_false_of_isDrawn hy ((h.drawn.strips y s hy).isDrawn_of_length_pos hcells)).symm

end Sound

/-! ## Contacts at the start and in parallel -/

/-- A strip with one instruction. -/
def singleStrip (x : Nat) (i : Instruction) (n : Nat) : Strip :=
  Strip.update {} x ({ · with instruction := some i, source := some n })

theorem sound_singleStrip (x : Nat) (i : Instruction) (n y : Nat) : (singleStrip x i n).Sound y :=
  Strip.sound_update (fun _ => rfl) y

theorem put_concat (rows : List Strip) (x : Nat) (i : Instruction) (n : Nat) :
    put (rows ++ [({} : Strip)]) x rows.length i n = rows ++ [singleStrip x i n] :=
  modify_concat rows _ _

theorem toRows_singleStrip (rows : List Strip) (i : Instruction) (n : Nat) :
    toRows (rows ++ [singleStrip 0 i n]) = Sheet.put (toRows rows ++ [[]]) 0 rows.length i n := by
  rw [← put_concat, toRows_put, toRows_concat]

theorem margins_concat (rows : List Strip) (x : Nat) (i : Instruction) (n : Nat) :
    margins (rows ++ [singleStrip x i n]) = margins rows ++ [none] :=
  List.map_append

/-- A region begins in a new row. -/
theorem Drawn.begin (h : Drawn rows regions) (i : Instruction) (n : Nat) :
    Drawn (rows ++ [singleStrip 0 i n])
      ({ width := 1, active := [rows.length], out := rows.length, top := rows.length } :: regions) := by
  refine (h.concat (sound_singleStrip 0 i n _)).cons ⟨rfl, List.pairwise_singleton _ _, ?_, Nat.le_refl _,
    fun _ => Nat.one_pos⟩ (fun a ha => (h.ordered a ha).lt_height) fun _ x hx => ?_
  · simp
  · obtain rfl : x = 0 := by
      dsimp only at hx
      omega
    exact ⟨singleStrip 0 i n, List.getElem?_concat_length, rfl⟩

theorem Sound.start (h : c.Sound) (i : Instruction) (n : Nat) :
    (c.start i n).Sound ∧ (c.start i n).sheet = c.sheet.start i n := by
  cases hb : c.isBlank with
  | true =>
    -- a blank canvas has one row, and nothing waits or is left open on it
    have hbare := h.isBare_sheet.trans hb
    have hrows := h.rows_eq_of_isBare hbare
    obtain ⟨hwaiting, hanchors⟩ := h.fresh.resolve_left (by simp [hb])
    rw [Canvas.start, if_pos (by rw [hb, hwaiting]; rfl), Sheet.start, if_pos hbare]
    constructor
    · refine ⟨hwaiting ▸ Drawn.nil.begin i n, ⟨fun _ _ _ y m _ hm => ?_, fun _ m hm => ?_⟩, by simp,
        .inr ⟨hwaiting, rfl⟩⟩
      · exact List.mem_singleton.1 (List.mem_of_getElem? hm)
      · exact List.mem_singleton.1 hm
    · have hput : toRows (put [{}] 0 0 i n) = Sheet.put c.sheet.rows 0 0 i n := by
        rw [sheet, hrows, toRows_put]
      rw [sheet, Sheet.mk.injEq]
      exact ⟨hput, rfl, rfl, hanchors.symm⟩
  | false =>
    have hbare := h.isBare_sheet.trans hb
    have hdrawn := h.drawn.begin i n
    rw [Canvas.start, if_neg (by simp [hb]), Sheet.start, if_neg (by simp [hbare])]
    dsimp only
    rw [put_concat, length_rows_sheet]
    constructor
    · have hreaches := hdrawn.reaches _ List.mem_cons_self (Nat.le_refl 1)
      refine ⟨hdrawn, ?_, fun p hp => ?_, .inl (isBlank_eq_false_of_reaches hreaches rfl)⟩
      · rw [margins_concat]
        refine h.clear.concat.cons fun y m hy hm => ?_
        rw [List.getElem?_append_right (by rwa [margins, List.length_map])] at hm
        exact List.mem_singleton.1 (List.mem_of_getElem? hm)
      · rw [List.length_append]
        exact Nat.lt_add_right _ (h.anchored p hp)
    · rw [sheet, Sheet.mk.injEq]
      exact ⟨toRows_singleStrip c.rows i n, rfl, rfl, rfl⟩

theorem Sound.parallel (h : c.Sound) (i : Instruction) (n : Nat) :
    (c.parallel i n).Sound ∧ (c.parallel i n).sheet = c.sheet.parallel i n := by
  have hr := h.drawn.ordered c.region List.mem_cons_self
  have hbelow : ∀ y ∈ c.region.active, ∀ z ∈ [c.rows.length], y < z := fun y hy z hz =>
    List.mem_singleton.1 hz ▸ hr.lt_height y hy
  have hheight : (c.rows ++ [singleStrip 0 i n]).length = c.rows.length + 1 := by simp
  rw [Canvas.parallel, Sheet.parallel]
  dsimp only
  rw [put_concat, Region.union_eq_append hbelow, length_rows_sheet]
  have hdrawn := h.drawn.concat (sound_singleStrip 0 i n c.rows.length)
  constructor
  · refine ⟨hdrawn.tail.cons ?_ (List.pairwise_cons.1 h.drawn.nested).1 fun hlen => ?_, ?_, fun p hp => ?_,
      .inl (isBlank_eq_false_of_height hdrawn.strips ?_)⟩
    · exact hr.append (by omega) (Nat.le_refl _) (List.pairwise_singleton _ _) hbelow (by simp)
    · -- there are two active rows at least
      have hpos := List.length_pos_of_mem hr.out_mem
      rw [List.length_append, List.length_singleton] at hlen
      omega
    · rw [margins_concat]
      exact h.clear.concat
    · exact hheight ▸ Nat.lt_succ_of_lt (h.anchored p hp)
    · exact hheight ▸ Nat.succ_lt_succ h.height_pos
  · rw [sheet, Sheet.mk.injEq]
    exact ⟨toRows_singleStrip c.rows i n, hr.block_append c.region.width [c.rows.length], rfl, rfl⟩

/-! ## Elements in series -/

theorem Sound.series_eq (h : c.Sound) (i : Instruction) (n : Nat) :
    c.series i n =
      { c with
        rows := putWired (converge c.rows c.region).1 c.region.width c.region.out i n
        region := { c.region with width := c.region.width + 1, active := [c.region.out] } } := by
  rw [series, converge_eq (h.drawn.ordered c.region List.mem_cons_self)]

theorem Sound.series (h : c.Sound) (i : Instruction) (n : Nat) :
    (c.series i n).Sound ∧ (c.series i n).sheet = c.sheet.series i n ∧ (c.series i n).isBlank = false := by
  have hr := h.drawn.ordered c.region List.mem_cons_self
  have hgo := GoOn.converge h.drawn.strips hr
  have hwired := hgo.trans (.putWired c.region.width c.region.out i n)
  have hout : c.region.out < (converge c.rows c.region).1.length := hgo.1 ▸ hr.lt_height _ hr.out_mem
  have hreaches : Reaches (putWired (converge c.rows c.region).1 c.region.width c.region.out i n)
      { c.region with width := c.region.width + 1, active := [c.region.out] } := fun x hx => by
    obtain rfl : c.region.width = x := Nat.succ.inj hx
    exact isSome_putWired c.region.width i n hout
  have hblank : (c.series i n).isBlank = false := by
    rw [h.series_eq]
    exact isBlank_eq_false_of_reaches hreaches rfl
  rw [h.series_eq] at hblank ⊢
  refine ⟨⟨(h.drawn.goOn hwired).tail.cons ⟨rfl, List.pairwise_singleton _ _, ?_, hr.top_le,
    fun _ => Nat.succ_pos _⟩ (List.pairwise_cons.1 h.drawn.nested).1 fun _ => hreaches, ?_,
    fun p hp => hwired.1 ▸ h.anchored p hp, .inl hblank⟩, ?_, hblank⟩
  · intro y hy
    rw [List.mem_singleton.1 hy, hwired.1]
    exact hr.lt_height _ hr.out_mem
  · rw [margins_putWired]
    exact Clear.converge [] h.drawn h.clear
  · have hrows : toRows (putWired (converge c.rows c.region).1 c.region.width c.region.out i n) =
        Sheet.putWired (Sheet.tiePending c.sheet.rows c.sheet.block) c.region.width c.region.out i n := by
      have hleft := Reaches.converge hr (h.drawn.reaches c.region List.mem_cons_self)
      rw [toRows_putWired i n hleft, toRows_converge h.drawn.strips hr]
      rfl
    rw [sheet, Sheet.series, Sheet.mk.injEq]
    exact ⟨hrows, rfl, rfl, rfl⟩

theorem Sound.pushBranch (h : c.Sound) (i : Instruction) (n : Nat) :
    (c.pushBranch i n).Sound ∧ (c.pushBranch i n).sheet = c.sheet.pushBranch i n := by
  have hr := h.drawn.ordered c.region List.mem_cons_self
  obtain ⟨hsound, hsheet, hblank⟩ := h.series i n
  have hpush : c.pushBranch i n =
      { c.series i n with anchors := (c.region.width, c.region.out) :: c.anchors } := by
    rw [Canvas.pushBranch, converge_eq hr]
  have hregion : (c.series i n).region.out = c.region.out := by rw [h.series_eq]
  have hanchors : (c.series i n).anchors = c.anchors := rfl
  rw [hpush]
  constructor
  · refine ⟨hsound.drawn, hsound.clear,
      List.forall_mem_cons.2 ⟨?_, hanchors ▸ hsound.anchored⟩, .inl hblank⟩
    have hout := hsound.drawn.ordered _ List.mem_cons_self
    exact hregion ▸ hout.lt_height _ hout.out_mem
  · rw [Sheet.pushBranch, ← hsheet]
    rfl

/-! ## Joins -/

theorem Drawn.out_lt_top {a b : Region} (h : Drawn rows (b :: a :: regions)) : a.out < b.top :=
  (List.pairwise_cons.1 h.nested).1 a List.mem_cons_self _ (h.ordered a (by simp)).out_mem

/-- The region that waits stands above the one that is drawn. -/
theorem Drawn.lt {a b : Region} (h : Drawn rows (b :: a :: regions)) :
    ∀ y ∈ a.active, ∀ z ∈ b.active, y < z := fun y hy z hz => by
  have hb := h.ordered b List.mem_cons_self
  have habove := (List.pairwise_cons.1 h.nested).1 a List.mem_cons_self y hy
  have htop := hb.top_le
  have hout := hb.out_le z hz
  omega

theorem waiting_sheet {a : Region} {waiting : List Region} (hw : c.waiting = a :: waiting) :
    c.sheet.waiting = a.block :: waiting.map Region.block := by
  rw [sheet, hw, List.map_cons]

theorem Sound.joinParallel (h : c.Sound) :
    c.joinParallel.Sound ∧ c.joinParallel.sheet = c.sheet.joinParallel := by
  unfold Canvas.joinParallel
  split
  · next hw => exact ⟨h, by rw [Sheet.joinParallel, sheet, hw]; rfl⟩
  · next a waiting hw =>
    have hd : Drawn c.rows (c.region :: a :: waiting) := hw ▸ h.drawn
    have ha := hd.ordered a (by simp)
    have hb := hd.ordered c.region List.mem_cons_self
    have hout : a.out < c.region.out := hd.lt _ ha.out_mem _ hb.out_mem
    have hheight := hb.lt_height _ hb.out_mem
    have hgo := GoOn.fillRows hd.strips (a.active ++ c.region.active) (max a.width c.region.width)
    dsimp only
    rw [Region.union_eq_append hd.lt, Nat.min_eq_left (Nat.le_of_lt hout)]
    constructor
    · refine ⟨(hd.goOn hgo).tail.tail.cons ?_ (List.pairwise_cons.1 hd.tail.nested).1 fun hlen => ?_, ?_,
        fun p hp => hgo.1 ▸ h.anchored p hp, .inl (isBlank_eq_false_of_height (hgo.strips hd.strips) ?_)⟩
      · exact (ha.mono (Nat.le_of_eq hgo.1.symm)).append (Nat.le_refl _) (Nat.le_max_left _ _) hb.sorted
          hd.lt fun z hz => hgo.1 ▸ hb.lt_height z hz
      · -- there are two active rows at least
        have hpos := List.length_pos_of_mem ha.out_mem
        have hpos' := List.length_pos_of_mem hb.out_mem
        rw [List.length_append] at hlen
        omega
      · rw [margins_fillRows]
        refine h.clear.subset ?_
        rw [hw]
        exact List.subset_cons_self _ _
      · rw [hgo.1]
        omega
    · have hrows : toRows (fillRows c.rows (a.active ++ c.region.active) (max a.width c.region.width)) =
          Sheet.wireRowsTo c.sheet.rows (a.block.rows ++ c.region.block.rows)
            (max a.width c.region.width) := by
        rw [toRows_fillRows hd.strips, ha.rows_block, hb.rows_block]
        rfl
      have hblock := ha.block_append (max a.width c.region.width) c.region.active
      rw [Sheet.joinParallel, waiting_sheet hw]
      dsimp only
      rw [sheet, Sheet.mk.injEq]
      refine ⟨hrows, hblock.trans ?_, rfl, rfl⟩
      rw [← hb.rows_block]
      rfl

/-- The rows from `top` down can be moved: something is drawn in each of them, and not in the margin. -/
def Movable (rows : List Strip) (top : Nat) : Prop :=
  ∀ (y : Nat) (s : Strip), top ≤ y → rows[y]? = some s → s.isDrawn = true ∧ s.margin = none

theorem Clear.movable {tops : List Nat} {top : Nat} (hs : Strips rows) (h : Clear (margins rows) tops)
    (htop : top ∈ tops) (hpos : 0 < top) : Movable rows top := by
  intro y s hy hrow
  have hsound := hs y s hrow
  refine ⟨hsound.isDrawn_of_length_pos (hsound.started (by omega)), h.below top htop hpos y _ hy ?_⟩
  rw [margins, List.getElem?_map, hrow, Option.map_some]

/-- A row above those that move stays where it is. -/
theorem Reaches.shiftRows {top : Nat} (h : Reaches rows r) (habove : r.out < top) (offset : Nat) :
    Reaches (shiftRows rows top offset) r := by
  intro x hx
  obtain ⟨s, hs, hcell⟩ := h x hx
  refine ⟨s, ?_, hcell⟩
  rw [Canvas.shiftRows, List.getElem?_mapIdx, hs, Option.map_some, if_neg (Nat.not_le_of_lt habove)]

namespace Movable

variable {top : Nat}

theorem toRows_shiftRows (h : Movable rows top) (n : Nat) :
    toRows (shiftRows rows top (n + 1)) = Sheet.shiftRows (toRows rows) top (n + 1) := by
  refine toRows_mapIdx fun y s hs => ?_
  split
  · next hy => exact Strip.toRow_shift (h y s hy hs).1 (h y s hy hs).2 n
  · rfl

theorem margins_shiftRows (h : Movable rows top) (n : Nat) :
    margins (shiftRows rows top (n + 1)) = margins rows := by
  refine margins_mapIdx fun y s hs => ?_
  split
  · next hy => rw [Strip.margin_shift (h y s hy hs).1, (h y s hy hs).2]
  · rfl

/-- The rows that begin behind the junction are those that began at the rail. -/
theorem rowsFrom_shiftRows (h : Movable rows top) (hs : Strips rows) (hpos : 0 < top) (n : Nat) :
    rowsFrom (shiftRows rows top (n + 1)) top (n + 1) = Sheet.railRows (toRows rows) top := by
  have hzip : (shiftRows rows top (n + 1)).zipIdx =
      rows.zipIdx.map fun p => (if top ≤ p.2 then p.1.shift (n + 1) else p.1, p.2) := by
    refine List.ext_getElem? fun y => ?_
    rw [List.getElem?_zipIdx, shiftRows, List.getElem?_mapIdx, List.getElem?_map, List.getElem?_zipIdx]
    cases rows[y]? <;> simp
  rw [rowsFrom, Sheet.railRows, hzip, toRows, List.zipIdx_map, List.filter_map, List.filter_map,
    List.map_map, List.map_map]
  refine congrArg (List.map Prod.snd) (List.filter_congr ?_)
  rintro ⟨s, y⟩ hmem
  by_cases hy : top ≤ y
  · have hrow : rows[y]? = some s := List.mem_zipIdx_iff_getElem?.1 hmem
    have hrail : (s.cell? 0).isSome = s.toRow.startsAtRail := by
      rw [Row.startsAtRail, Strip.cell_toRow]
      cases hcell : s.cell? 0 with
      | none => rfl
      | some c => simp [(hs y s hrow).rail (by omega) c hcell]
    simp [hy, Strip.beginsAt_shift (h y s hy hrow).1 (h y s hy hrow).2, hrail]
  · simp [hy]

theorem drawn_shiftRows (h : Movable rows top) (hd : Drawn rows regions)
    (habove : ∀ r ∈ regions, r.out < top) (n : Nat) : Drawn (shiftRows rows top (n + 1)) regions where
  strips := by
    intro y s' hs'
    rw [shiftRows, List.getElem?_mapIdx] at hs'
    obtain ⟨s, hs, rfl⟩ := Option.map_eq_some_iff.1 hs'
    split
    · next hy => exact (hd.strips y s hs).shift (h y s hy hs).1 (h y s hy hs).2 n
    · exact hd.strips y s hs
  ordered r hr := (hd.ordered r hr).mono (Nat.le_of_eq List.length_mapIdx.symm)
  nested := hd.nested
  reaches r hr hlen := (hd.reaches r hr hlen).shiftRows (habove r hr) _

/-- The output row of a region that moves is drawn up to its last column. -/
theorem reaches_shiftRows {r' : Region} {n : Nat} (h : Movable rows top) (hr : Reaches rows r)
    (htop : top ≤ r.out) (hw : 0 < r.width) (hout : r'.out = r.out) (hwidth : r'.width = n + 1 + r.width) :
    Reaches (shiftRows rows top (n + 1)) r' := by
  intro x hx
  obtain ⟨s, hs, hcell⟩ := hr (r.width - 1) (by omega)
  refine ⟨s.shift (n + 1), ?_, ?_⟩
  · rw [hout, shiftRows, List.getElem?_mapIdx, hs, Option.map_some, if_pos htop]
  · rw [Strip.cell?_shift (h _ s htop hs).1 (h _ s htop hs).2, if_neg (by omega)]
    rwa [show x - (n + 1) = r.width - 1 by omega]

/-- The region that is drawn moves behind the one that waits, and takes its place. -/
theorem drawn_behind {a b : Region} (h : Movable rows b.top) (hd : Drawn rows (b :: a :: regions)) :
    Drawn (shiftRows rows b.top (a.width + 1))
      ({ b with width := a.width + 1 + b.width, top := a.top } :: regions) := by
  have ha := hd.ordered a (by simp)
  have hb := hd.ordered b List.mem_cons_self
  have hout := hd.out_lt_top
  have htop := hb.top_le
  have habove : ∀ q ∈ regions, q.out < b.top := fun q hq =>
    (List.pairwise_cons.1 hd.nested).1 q (List.mem_cons_of_mem _ hq) _ (hd.ordered q (by simp [hq])).out_mem
  have hheight : (shiftRows rows b.top (a.width + 1)).length = rows.length := List.length_mapIdx
  refine (h.drawn_shiftRows hd.tail.tail habove a.width).cons ⟨hb.active_eq, hb.sorted, ?_, ?_, ?_⟩
    (List.pairwise_cons.1 hd.tail.nested).1 fun hlen => ?_
  · exact fun y hy => hheight.symm ▸ hb.lt_height y hy
  · exact Nat.le_trans ha.top_le (Nat.le_trans (Nat.le_of_lt hout) htop)
  · exact fun _ => Nat.lt_of_lt_of_le (Nat.succ_pos a.width) (Nat.le_add_right _ _)
  · exact h.reaches_shiftRows (hd.reaches b List.mem_cons_self hlen) htop (hb.width_pos (by omega)) rfl rfl

end Movable

/-- Draws a junction: the output row of a region is wired to the column behind it, the column is tied
down to `bottom`, and each of the entry rows is wired to the column. -/
def junction (rows : List Strip) (a : Region) (entries : List Nat) (bottom : Nat) : List Strip :=
  (tieBefore (rows.modify a.out fun s => (s.update a.width id).joinLeft a.width) (a.width + 1) a.out
    bottom).mapIdx fun y s => if y ∈ entries then s.joinLeft (a.width + 1) else s

section Junction

variable {a : Region} {entries : List Nat} {bottom : Nat}

theorem GoOn.junction (ha : a.Ordered rows.length) (hbottom : a.out < bottom) :
    GoOn rows (junction rows a entries bottom) := by
  have hcell : GoOn rows (rows.modify a.out fun s => (s.update a.width id).joinLeft a.width) :=
    .modify fun s _ => .trans (.update fun hw hout => absurd (ha.width_pos hout) (by omega)) (.joinLeft _)
  refine (hcell.trans (.tieBefore (a.width + 1) hbottom)).trans (.mapIdx fun y s _ => ?_)
  split
  · exact .joinLeft _
  · exact .refl y s

theorem margins_junction (rows : List Strip) (a : Region) (entries : List Nat) (bottom : Nat) :
    margins (junction rows a entries bottom) = margins rows := by
  rw [junction, margins_mapIdx, margins_tieBefore, margins_modify]
  · intro s
    rw [Strip.margin_joinLeft, Strip.margin_update]
  · intro y s _
    split
    · exact s.margin_joinLeft _
    · rfl

/-- The cell of the junction in the output row is one of the tie, so that it does not matter whether it
is drawn before. -/
theorem tie_modify_update (rows : List Row) {x y : Nat} (h : y ≤ bottom) :
    Sheet.tie (rows.modify y fun row => (row.update x id).wireLeft x) x y bottom =
      Sheet.tie (rows.modify y (·.wireLeft x)) x y bottom := by
  have hrow (row : Row) (f : Cell → Cell) :
      ((row.update x id).wireLeft x).update x f = (row.wireLeft x).update x f := by
    refine Row.ext_cell ?_ fun k => ?_
    · simp only [Row.length_update, Row.length_wireLeft]
      split <;> omega
    · have hid (k : Nat) : (row.update x id).cell k = row.cell k := by
        rw [Row.cell_update]
        split
        · next hk => rw [hk, id]
        · rfl
      rw [Row.cell_update, Row.cell_update, Row.cell_wireLeft, Row.cell_wireLeft, Row.cell_wireLeft,
        Row.cell_wireLeft, hid, hid]
  refine List.ext_getElem? fun y' => ?_
  rw [Sheet.tie, Sheet.tie, List.getElem?_mapIdx, List.getElem?_mapIdx, List.getElem?_modify,
    List.getElem?_modify]
  cases rows[y']? with
  | none => rfl
  | some row =>
    by_cases hy : y = y'
    · subst hy
      simp [h, hrow]
    · simp [hy]

theorem toRows_junction (hreaches : Reaches rows a) (hbottom : a.out < bottom)
    (hentries : ∀ y ∈ entries, a.out ≤ y ∧ y ≤ bottom) :
    toRows (junction rows a entries bottom) = Sheet.junction (toRows rows) a.block entries bottom := by
  have hcell : toRows (rows.modify a.out fun s => (s.update a.width id).joinLeft a.width) =
      (toRows rows).modify a.out fun row => (row.update a.width id).wireLeft a.width := by
    refine toRows_modify fun s hs => ?_
    rw [Strip.toRow_joinLeft fun k hk => ?_, Strip.toRow_update]
    obtain ⟨s', hs', hleft⟩ := hreaches k hk
    rw [Option.some.inj (hs.symm.trans hs'), Strip.cell?_update]
    split
    · rfl
    · exact hleft
  have htie : toRows (tieBefore (rows.modify a.out fun s => (s.update a.width id).joinLeft a.width)
        (a.width + 1) a.out bottom) =
      Sheet.tie ((toRows rows).modify a.out (·.wireLeft a.width)) a.width a.out bottom := by
    rw [toRows_tieBefore, hcell, tie_modify_update _ (Nat.le_of_lt hbottom)]
  refine (toRows_mapIdx fun y s hs => ?_).trans (congrArg (List.mapIdx _) htie)
  split
  · next hy =>
    refine Strip.toRow_joinLeft fun k hk => ?_
    obtain rfl : a.width = k := Nat.succ.inj hk
    have hlt := (List.getElem?_eq_some_iff.1 hs).1
    rw [tieBefore, List.length_mapIdx] at hlt
    obtain ⟨s', hs', hleft⟩ := isSome_tieBefore a.width hlt (hentries y hy).1 (hentries y hy).2
    rw [Option.some.inj (hs.symm.trans hs')]
    exact hleft
  · rfl

end Junction

/-- Once the region that waits is tied, the rows of the region that is drawn can be moved behind it. -/
theorem Sound.movable {a : Region} {waiting : List Region} (h : c.Sound) (hw : c.waiting = a :: waiting) :
    Movable (converge c.rows a).1 c.region.top := by
  have hd : Drawn c.rows (c.region :: a :: waiting) := hw ▸ h.drawn
  have hgo := GoOn.converge hd.strips (hd.ordered a (by simp))
  have hclear := Clear.converge [c.region] hd (hw ▸ h.clear)
  exact hclear.movable (hgo.strips hd.strips) (by simp) (Nat.zero_lt_of_lt hd.out_lt_top)

theorem Sound.joinSeries_eq {a : Region} {waiting : List Region} (h : c.Sound)
    (hw : c.waiting = a :: waiting) :
    c.joinSeries =
      let rows := (converge c.rows a).1
      { rows := junction (shiftRows rows c.region.top (a.width + 1)) a
          (Sheet.railRows (toRows rows) c.region.top) (Sheet.lastEntry (toRows rows) c.region.top)
        region := { c.region with width := a.width + 1 + c.region.width, top := a.top }
        waiting
        anchors := c.anchors.map fun p =>
          if c.region.top ≤ p.2 then (p.1 + (a.width + 1), p.2) else p } := by
  have hd : Drawn c.rows (c.region :: a :: waiting) := hw ▸ h.drawn
  have ha := hd.ordered a (by simp)
  have hentries := (h.movable hw).rowsFrom_shiftRows ((GoOn.converge hd.strips ha).strips hd.strips)
    (Nat.zero_lt_of_lt hd.out_lt_top) a.width
  have hbottom := Region.max?_eq_getLast?
    (Sheet.pairwise_railRows (toRows (converge c.rows a).1) c.region.top)
  rw [Canvas.joinSeries, hw]
  dsimp only
  rw [converge_eq ha]
  dsimp only
  rw [hentries, hbottom]
  rfl

theorem Sound.joinSeries (h : c.Sound) :
    c.joinSeries.Sound ∧ c.joinSeries.sheet = c.sheet.joinSeries := by
  cases hw : c.waiting with
  | nil =>
    have hjoin : c.joinSeries = c := by rw [Canvas.joinSeries, hw]
    exact ⟨hjoin.symm ▸ h, by rw [hjoin, Sheet.joinSeries, sheet, hw]; rfl⟩
  | cons a waiting =>
    have hd : Drawn c.rows (c.region :: a :: waiting) := hw ▸ h.drawn
    have ha := hd.ordered a (by simp)
    have hb := hd.ordered c.region List.mem_cons_self
    have hout := hd.out_lt_top
    have htop := hb.top_le
    have hheight := hb.lt_height _ hb.out_mem
    have hmov := h.movable hw
    -- the active rows of the region that waits are tied
    have hgo := GoOn.converge hd.strips ha
    have hclear := Clear.converge [c.region] hd (hw ▸ h.clear)
    have hrows := toRows_converge hd.strips ha
    have hreaches := Reaches.converge ha (hd.reaches a (by simp))
    rw [h.joinSeries_eq hw]
    generalize (converge c.rows a).1 = rows at hgo hclear hrows hreaches hmov ⊢
    -- the rows of the region that is drawn move behind it
    have hshift : (shiftRows rows c.region.top (a.width + 1)).length = c.rows.length := by
      rw [shiftRows, List.length_mapIdx, hgo.1]
    have hdrawn := hmov.drawn_behind (hd.goOn hgo)
    -- and the junction is drawn between them
    have hbottom : a.out < Sheet.lastEntry (toRows rows) c.region.top :=
      Nat.lt_of_lt_of_le hout (Sheet.lastEntry_mem_Ico (by rw [length_toRows, hgo.1]; omega)).1
    have hjunction : GoOn (shiftRows rows c.region.top (a.width + 1))
        (junction (shiftRows rows c.region.top (a.width + 1)) a (Sheet.railRows (toRows rows) c.region.top)
          (Sheet.lastEntry (toRows rows) c.region.top)) :=
      .junction (ha.mono (Nat.le_of_eq hshift.symm)) hbottom
    constructor
    · refine ⟨hdrawn.goOn hjunction, ?_, fun p hp => ?_,
        .inl (isBlank_eq_false_of_height (hjunction.strips hdrawn.strips) ?_)⟩
      · rw [margins_junction, hmov.margins_shiftRows]
        exact hclear.subset (List.subset_cons_self _ _)
      · obtain ⟨⟨x, y⟩, hq, rfl⟩ := List.mem_map.1 hp
        have hy := h.anchored _ hq
        rw [hjunction.1, hshift]
        by_cases hmoves : c.region.top ≤ y <;> simpa [hmoves] using hy
      · rw [hjunction.1, hshift]
        omega
    · rw [Sheet.joinSeries, waiting_sheet hw]
      dsimp only
      rw [sheet, Sheet.mk.injEq]
      refine ⟨?_, rfl, rfl, rfl⟩
      rw [toRows_junction (hreaches.shiftRows hout _) hbottom fun y hy => ?_, hmov.toRows_shiftRows, hrows]
      · rfl
      · have := (Sheet.mem_railRows.1 hy).1
        exact ⟨by omega, Sheet.le_lastEntry hy⟩

/-! ## Branches -/

/-- The strip of a branch: one cell, which the tie reaches and the instruction is put into. -/
def branchStrip (x : Nat) (i : Instruction) (n : Nat) : Strip :=
  (Strip.update {} x ({ · with up := true })).update x
    ({ · with instruction := some i, source := some n })

theorem sound_branchStrip (x : Nat) (i : Instruction) (n y : Nat) : (branchStrip x i n).Sound y :=
  Strip.GoesOn.sound (.update fun _ _ _ => rfl)
    (Strip.sound_update (fun c => by simp [Cell.isEmpty, Cell.isWired]) y)

section Branch

variable {x top : Nat} (htop : top < rows.length) (i : Instruction) (n : Nat)
include htop

theorem put_tieBefore_concat :
    put (tieBefore (rows ++ [({} : Strip)]) (x + 1) top rows.length) x rows.length i n =
      tieBefore rows (x + 1) top rows.length ++ [branchStrip x i n] := by
  have hheight : (tieBefore rows (x + 1) top rows.length).length = rows.length := List.length_mapIdx
  have hmodify := modify_concat (tieBefore rows (x + 1) top rows.length)
    (Strip.update {} x ({ · with up := true }))
    (·.update x ({ · with instruction := some i, source := some n }))
  rw [hheight] at hmodify
  rw [tieBefore_concat htop]
  exact hmodify

theorem toRows_branchStrip :
    toRows (tieBefore rows (x + 1) top rows.length ++ [branchStrip x i n]) =
      Sheet.put (Sheet.tie (toRows rows ++ [[]]) x top rows.length) x rows.length i n := by
  rw [← put_tieBefore_concat htop, toRows_put, toRows_tieBefore, toRows_concat]

/-- A region goes on in the new row of a branch. -/
theorem Drawn.branch (h : Drawn rows (r :: regions)) :
    Drawn (tieBefore rows (x + 1) top rows.length ++ [branchStrip x i n])
      ({ r with width := x + 1, active := [rows.length], out := rows.length } :: regions) := by
  have hr := h.ordered r List.mem_cons_self
  have hgo : GoOn rows (tieBefore rows (x + 1) top rows.length) := .tieBefore (x + 1) htop
  refine ((h.goOn hgo).concat (sound_branchStrip x i n _)).tail.cons
    ⟨rfl, List.pairwise_singleton _ _, ?_, ?_, fun _ => Nat.succ_pos x⟩
    (List.pairwise_cons.1 h.nested).1 fun _ k hk => ?_
  · simp [hgo.1]
  · exact Nat.le_trans hr.top_le (Nat.le_of_lt (hr.lt_height _ hr.out_mem))
  · obtain rfl : x = k := Nat.succ.inj hk
    refine ⟨branchStrip x i n, by simp [hgo.1], ?_⟩
    rw [branchStrip, Strip.cell?_update, if_pos rfl]
    rfl

end Branch

theorem Sound.dropBranch (h : c.Sound) (i : Instruction) (n : Nat) (keep : Bool) :
    (c.dropBranch i n keep).Sound ∧ (c.dropBranch i n keep).sheet = c.sheet.dropBranch i n keep := by
  unfold Canvas.dropBranch
  split
  · next ha => exact ⟨h, by rw [Sheet.dropBranch, sheet, ha]⟩
  · next x top anchors ha =>
    have htop : top < c.rows.length := h.anchored (x, top) (ha ▸ List.mem_cons_self)
    have hdrawn := h.drawn.branch (x := x) htop i n
    dsimp only
    rw [put_tieBefore_concat htop]
    constructor
    · have hreaches := hdrawn.reaches _ List.mem_cons_self (Nat.le_refl 1)
      refine ⟨hdrawn, ?_, fun p hp => ?_, .inl (isBlank_eq_false_of_reaches hreaches rfl)⟩
      · rw [margins, List.map_append, ← margins, margins_tieBefore]
        exact h.clear.concat
      · have hmem : p ∈ c.anchors := by
          rw [ha]
          cases keep with
          | true => exact ha ▸ hp
          | false => exact List.mem_cons_of_mem _ hp
        rw [List.length_append, tieBefore, List.length_mapIdx]
        exact Nat.lt_add_right _ (h.anchored p hmem)
    · have hanchors : c.sheet.anchors = (x, top) :: anchors := ha
      rw [Sheet.dropBranch, hanchors]
      dsimp only
      rw [length_rows_sheet, sheet, Sheet.mk.injEq, ha]
      exact ⟨toRows_branchStrip htop i n, rfl, rfl, rfl⟩

/-! ## Programs -/

theorem Sound.draw (h : c.Sound) (i : Instruction) (n : Nat) :
    (c.draw i n).Sound ∧ (c.draw i n).sheet = c.sheet.draw i n := by
  rw [Canvas.draw, Sheet.draw]
  cases i.operation with
  | unknown name => exact ⟨h, rfl⟩
  | known opcode =>
    cases opcode with
    | contact position test =>
      cases position with
      | start => exact h.start i n
      | series => exact ⟨(h.series i n).1, (h.series i n).2.1⟩
      | parallel => exact h.parallel i n
    | coil coil => exact ⟨(h.series i n).1, (h.series i n).2.1⟩
    | block join =>
      cases join with
      | parallel => exact h.joinParallel
      | series => exact h.joinSeries
    | branch branch =>
      cases branch with
      | push => exact h.pushBranch i n
      | read => exact h.dropBranch i n true
      | pop => exact h.dropBranch i n false

theorem sound_blank : Sound {} where
  drawn := (Drawn.nil.concat (Strip.sound_blank)).cons
    ⟨rfl, List.pairwise_singleton _ _, by simp, Nat.le_refl 0, id⟩ (by simp) fun _ x hx => by cases hx
  clear := ⟨fun _ _ _ _ m _ hm => List.mem_singleton.1 (List.mem_of_getElem? hm),
    fun _ m hm => List.mem_singleton.1 hm⟩
  anchored := by simp
  fresh := .inr ⟨rfl, rfl⟩

/-- The last row of a canvas is drawn, unless nothing is. -/
theorem Sound.dropWhile_eq (h : c.Sound) (hb : c.isBlank = false) :
    (c.rows.reverse.dropWhile fun s => !s.isDrawn).reverse = c.rows := by
  rcases List.eq_nil_or_concat c.rows with hnil | ⟨rows, s, hrows⟩
  · rw [hnil]
    rfl
  · rw [List.concat_eq_append] at hrows
    have hs : c.rows[rows.length]? = some s := by rw [hrows, List.getElem?_concat_length]
    have hsound := h.drawn.strips _ s hs
    have hdrawn : s.isDrawn = true := by
      cases rows with
      | nil =>
        rw [isBlank, hrows] at hb
        simpa using hb
      | cons first rest => exact hsound.isDrawn_of_length_pos (hsound.started (Nat.succ_pos _))
    rw [hrows, List.reverse_concat, List.dropWhile_cons_of_neg (by simp [hdrawn]), List.reverse_cons,
      List.reverse_reverse]

/-- The diagram is the same on the canvas and on the sheet. -/
theorem Sound.toDiagram_sheet (h : c.Sound) : c.sheet.toDiagram = c.toDiagram := by
  rw [toDiagram, Sheet.toDiagram, h.isBare_sheet]
  split
  · rfl
  · next hb =>
    have hwidth : c.sheet.rows.map List.length = c.rows.map Strip.extent := by
      rw [sheet, toRows, List.map_map]
      refine List.map_congr_left fun s hs => ?_
      obtain ⟨y, hy⟩ := List.mem_iff_getElem?.1 hs
      rw [(h.drawn.strips y s hy).extent_eq]
      exact s.length_toRow
    dsimp only
    rw [h.dropWhile_eq (Bool.eq_false_iff.2 hb), ← hwidth, sheet, toRows, List.map_map]
    refine congrArg Diagram.ofRows (List.map_congr_left fun s hs => Strip.pad_toRow ?_)
    rw [← s.length_toRow]
    exact (Sheet.le_foldl_max _ 0).2 _ (List.mem_map_of_mem (List.mem_map_of_mem hs))

end Canvas

namespace Program

theorem canvas_append (program : Program) (i : Instruction) :
    canvas (program ++ [i]) = (canvas program).draw i program.length := by
  simp [canvas, List.zipIdx_append]

/-- **Every program leaves on the canvas what it leaves on the sheet.** -/
theorem sheet_canvas (program : Program) : program.canvas.Sound ∧ program.canvas.sheet = program.sheet := by
  induction program using List.reverseRecOn with
  | nil => exact ⟨Canvas.sound_blank, rfl⟩
  | append_singleton program i ih =>
    rw [canvas_append, sheet_append, ← ih.2]
    exact ih.1.draw i program.length

/-- The diagram of a program is the one on its sheet. -/
theorem layout_eq (program : Program) : program.layout = program.sheet.toDiagram := by
  obtain ⟨hsound, hsheet⟩ := sheet_canvas program
  rw [layout, ← hsheet, hsound.toDiagram_sheet]

/-- A cell of the diagram is that of the sheet, in its place. -/
theorem eq_placed_of_cell? {program : Program} {x y : Nat} {c : GridCell}
    (h : program.layout.cell? x y = some c) : c = (Sheet.cellAt program.sheet.rows x y).placed x y := by
  rw [layout_eq, Sheet.cell?_toDiagram] at h
  split at h
  · exact (Option.some.inj h).symm
  · cases h

theorem cellAt_of_cell? {program : Program} {x y : Nat} {c : GridCell}
    (h : program.layout.cell? x y = some c) : Sheet.cellAt program.sheet.rows x y = c.toCell := by
  rw [eq_placed_of_cell? h]
  rfl

end Program
end LadderLogic
