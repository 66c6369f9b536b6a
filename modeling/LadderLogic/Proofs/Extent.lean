import LadderLogic.Proofs.BlockSteps
import LadderLogic.Proofs.Canvas

/-!
# The size of a drawn circuit

A circuit is built from contacts and coils in series and in parallel, and from joins. Drawn on any sheet
it becomes one new block, on new rows below all others (`Spans`): the block is as wide as the circuit,
its output row comes to its very end, and none of its rows goes further. Each drawing step keeps this:
padding and ties stay inside the block, and a join in series moves its rows by the width of the block in
front and the column of the junction.

Main statement: the diagram of a circuit has the width and the height of the circuit.

Source: `layout` and `grid_size` (section 4.1 of the specification).
-/

namespace LadderLogic

/-- Whether a new row is opened for an instruction: for a contact at the start or in parallel. -/
def Instruction.opensRow (i : Instruction) : Bool :=
  match i.operation with
  | .known (.contact .start _) => true
  | .known (.contact .parallel _) => true
  | _ => false

/-- A contact at the start; a circuit and a contact in parallel, or a contact or a coil in series; two
circuits and a join. -/
inductive Circuit where
  | start (i : Instruction) (test : Test) (hi : i.operation = .known (.contact .start test))
  | parallel (c : Circuit) (i : Instruction) (test : Test)
      (hi : i.operation = .known (.contact .parallel test))
  | series (c : Circuit) (i : Instruction) (test : Test)
      (hi : i.operation = .known (.contact .series test))
  | coil (c : Circuit) (i : Instruction) (coil : Coil) (hi : i.operation = .known (.coil coil))
  | join (c c' : Circuit) (i : Instruction) (j : Join) (hi : i.operation = .known (.block j))

namespace Circuit

/-- The instructions of a circuit, each behind the circuits that it goes on from. -/
def program : Circuit → Program
  | .start i _ _ => [i]
  | .parallel c i _ _ => c.program ++ [i]
  | .series c i _ _ => c.program ++ [i]
  | .coil c i _ _ => c.program ++ [i]
  | .join c c' i _ _ => c.program ++ c'.program ++ [i]

/-- The columns of a circuit. -/
def width : Circuit → Nat
  | .start _ _ _ => 1
  | .parallel c _ _ _ => c.width
  | .series c _ _ _ => c.width + 1
  | .coil c _ _ _ => c.width + 1
  | .join c c' _ .parallel _ => max c.width c'.width
  | .join c c' _ .series _ => c.width + 1 + c'.width

/-- The rows of a circuit. -/
def height (c : Circuit) : Nat := c.program.countP Instruction.opensRow

end Circuit

namespace Sheet

/-- Draws the instructions of a program that has `n` others before it. -/
def drawAll (s : Sheet) (program : Program) (n : Nat) : Sheet :=
  (program.zipIdx n).foldl (fun s p => s.draw p.1 p.2) s

theorem drawAll_append (s : Sheet) (program rest : Program) (n : Nat) :
    s.drawAll (program ++ rest) n = (s.drawAll program n).drawAll rest (n + program.length) := by
  simp [drawAll, List.zipIdx_append]

theorem drawAll_concat (s : Sheet) (program : Program) (i : Instruction) (n : Nat) :
    s.drawAll (program ++ [i]) n = (s.drawAll program n).draw i (n + program.length) := by
  rw [drawAll_append]
  rfl

variable {s t u : Sheet} {i : Instruction} {n w h w' h' : Nat}

/-! ## New blocks -/

/-- The first row of the next block. The only row of a bare sheet is the first one. -/
def floor (s : Sheet) : Nat := if s.isBare then 0 else s.rows.length

/-- The blocks that wait once the next one is begun. -/
def below (s : Sheet) : List Block := if s.isBare then [] else s.block :: s.waiting

/-- The sheet `t` goes on from `s` with one more block, of a given width, and with so many rows of its
own below all others. -/
structure Spans (s t : Sheet) (width height : Nat) : Prop where
  width_pos : 0 < width
  waiting : t.waiting = s.below
  block_width : t.block.width = width
  block_top : t.block.top = s.floor
  length_rows : t.rows.length = s.floor + height
  open_rows : ∀ r ∈ t.block.rows, s.floor ≤ r ∧ r < s.floor + height
  length_out : (rowAt t.rows t.block.out).length = width
  length_le : ∀ y, s.floor ≤ y → (rowAt t.rows y).length ≤ width
  above : ∀ y < s.floor, (rowAt t.rows y).length = (rowAt s.rows y).length

theorem Spans.isBare_eq (hs : Spans s t w h) : t.isBare = false := by
  refine Bool.eq_false_iff.2 fun hbare => ?_
  have hlen := hs.length_out
  rw [isBare_iff.1 hbare] at hlen
  exact absurd hs.width_pos (by rw [← hlen]; exact Nat.lt_irrefl 0)

theorem Spans.floor_eq (hs : Spans s t w h) : t.floor = s.floor + h := by
  rw [floor, hs.isBare_eq, ← hs.length_rows]
  rfl

theorem Spans.below_eq (hs : Spans s t w h) : t.below = t.block :: s.below := by
  rw [below, hs.isBare_eq, ← hs.waiting]
  rfl

/-- A contact at the start opens a row, whether it is the first one or not. -/
theorem exists_start (hs : s = {} ∨ s.isBare = false) (i : Instruction) (n : Nat) :
    ∃ rows, rows.length = s.floor ∧ (∀ y < s.floor, rowAt rows y = rowAt s.rows y) ∧
      s.start i n =
        { rows := openRow rows i n
          block := { width := 1, out := s.floor, top := s.floor }
          waiting := s.below
          anchors := s.anchors } := by
  rcases hs with rfl | hs
  · exact ⟨[], rfl, fun y hy => absurd hy (Nat.not_lt_zero y), rfl⟩
  · refine ⟨s.rows, ?_, fun _ _ => rfl, ?_⟩
    · rw [floor, hs]
      rfl
    · rw [start, floor, below, hs]
      rfl

theorem spans_start (hs : s = {} ∨ s.isBare = false) (i : Instruction) (n : Nat) :
    Spans s (s.start i n) 1 1 := by
  obtain ⟨rows, hfloor, habove, he⟩ := exists_start hs i n
  rw [he]
  have hlast : (rowAt (openRow rows i n) s.floor).length = 1 := hfloor ▸ length_rowAt_openRow
  exact {
    width_pos := Nat.one_pos
    waiting := rfl
    block_width := rfl
    block_top := rfl
    length_rows := by rw [length_openRow, hfloor]
    open_rows := fun r hr => by
      rw [List.mem_singleton.1 hr]
      exact ⟨Nat.le_refl _, Nat.lt_succ_self _⟩
    length_out := hlast
    length_le := fun y hy => by
      rcases Nat.eq_or_lt_of_le hy with rfl | hlt
      · exact Nat.le_of_eq hlast
      · rw [rowAt_of_length_le (by rw [length_openRow]; omega)]
        exact Nat.zero_le 1
    above := fun y hy => by rw [rowAt_openRow_of_ne (by omega), habove y hy] }

theorem Spans.parallel (hs : Spans s t w h) (i : Instruction) (n : Nat) :
    Spans s (t.parallel i n) w (h + 1) := by
  have hlen := hs.length_rows
  have hrow (y : Nat) (hy : y ≠ t.rows.length) :
      (rowAt (t.parallel i n).rows y).length = (rowAt t.rows y).length := by
    rw [show (t.parallel i n).rows = openRow t.rows i n from rfl, rowAt_openRow_of_ne hy]
  have hout := hs.open_rows t.block.out (out_mem_rows t.block)
  exact {
    width_pos := hs.width_pos
    waiting := hs.waiting
    block_width := hs.block_width
    block_top := hs.block_top
    length_rows := (length_openRow t.rows i n).trans (by omega)
    open_rows := fun r hr => by
      rcases List.mem_append.1 (show r ∈ t.block.rows ++ [t.rows.length] from hr) with hr | hr
      · have := hs.open_rows r hr
        omega
      · rw [List.mem_singleton.1 hr]
        omega
    length_out := (hrow t.block.out (by omega)).trans hs.length_out
    length_le := fun y hy => by
      by_cases hy' : y = t.rows.length
      · subst hy'
        exact length_rowAt_openRow.trans_le hs.width_pos
      · rw [hrow y hy']
        exact hs.length_le y hy
    above := fun y hy => (hrow y (by omega)).trans (hs.above y hy) }

/-! ## Elements in series -/

/-- A tie of pending rows draws no row further than the width of the block, and leaves the rows above
and below the block. -/
theorem length_rowAt_tiePending (rows : List Row) (b : Block) (y : Nat) :
    ∃ m ≤ b.width, (rowAt (tiePending rows b) y).length = max (rowAt rows y).length m ∧
      ((∀ r ∈ b.rows, r < y) ∨ (∀ r ∈ b.rows, y < r) → m = 0) := by
  rcases tiePending_cases rows b with he | ⟨bottom, x, hp, hw, he⟩
  · exact ⟨0, Nat.zero_le _, by rw [he, Nat.max_eq_left (Nat.zero_le _)], fun _ => rfl⟩
  · have hbottom : bottom ∈ b.rows := List.mem_cons_of_mem _ (List.mem_of_getLast? hp)
    have hlen := length_rowAt_tie (wireRowsTo rows b.rows (x + 1)) x b.out bottom y
    rw [length_wireRowsTo, length_rowAt_wireRowsTo, ← he, ← hw] at hlen
    by_cases hy : y < rows.length ∧ (y ∈ b.rows ∨ b.out ≤ y ∧ y ≤ bottom)
    · refine ⟨b.width, Nat.le_refl _, ?_, fun hoff => ?_⟩
      · rw [hlen]
        obtain ⟨hlt, hy | hy⟩ := hy
        · rw [if_pos (show y < rows.length ∧ y ∈ b.rows from ⟨hlt, hy⟩)]
          split <;> omega
        · rw [if_pos ⟨hlt, hy⟩]
          split <;> omega
      · -- a row of the tie lies neither above nor below the block
        have hout := out_mem_rows b
        rcases hoff with hoff | hoff <;> rcases hy.2 with hy | hy
        · exact absurd (hoff y hy) (Nat.lt_irrefl y)
        · have := hoff bottom hbottom
          omega
        · exact absurd (hoff y hy) (Nat.lt_irrefl y)
        · have := hoff b.out hout
          omega
    · refine ⟨0, Nat.zero_le _, ?_, fun _ => rfl⟩
      rw [hlen, if_neg (fun hin => hy ⟨hin.1, .inr hin.2⟩), if_neg (fun hin => hy ⟨hin.1, .inl hin.2⟩),
        Nat.max_eq_left (Nat.zero_le _)]

theorem Spans.series (hs : Spans s t w h) (i : Instruction) (n : Nat) :
    Spans s (t.series i n) (w + 1) h := by
  have hout := hs.open_rows t.block.out (out_mem_rows t.block)
  have hlen := hs.length_rows
  have hrow (y : Nat) : ∃ m ≤ w, (rowAt (t.series i n).rows y).length =
      (if y = t.block.out then w + 1 else max (rowAt t.rows y).length m) ∧ (y < s.floor → m = 0) := by
    obtain ⟨m, hm, htie, hoff⟩ := length_rowAt_tiePending t.rows t.block y
    rw [hs.block_width] at hm
    refine ⟨m, hm, ?_, fun hy => hoff (.inr fun r hr => by have := hs.open_rows r hr; omega)⟩
    rw [Sheet.series, length_rowAt_putWired _ _ _ _ (by rw [length_tiePending]; omega), htie,
      hs.block_width]
    split
    · next he =>
      have := hs.length_out
      rw [he]
      omega
    · rfl
  exact {
    width_pos := Nat.succ_pos w
    waiting := hs.waiting
    block_width := congrArg (· + 1) hs.block_width
    block_top := hs.block_top
    length_rows := by
      rw [Sheet.series, length_putWired, length_tiePending]
      exact hlen
    open_rows := fun r hr => by
      rw [List.mem_singleton.1 hr]
      exact hout
    length_out := by
      obtain ⟨m, -, he, -⟩ := hrow t.block.out
      exact he.trans (if_pos rfl)
    length_le := fun y hy => by
      obtain ⟨m, hm, he, -⟩ := hrow y
      have := hs.length_le y hy
      rw [he]
      split <;> omega
    above := fun y hy => by
      obtain ⟨m, -, he, hm⟩ := hrow y
      rw [he, if_neg (by omega), hm hy, Nat.max_eq_left (Nat.zero_le _), hs.above y hy] }

/-! ## Joins -/

section Join

variable (hs : Spans s t w h) (hu : Spans t u w' h')

include hs hu

theorem Spans.waiting_join : u.waiting = t.block :: s.below := hu.waiting.trans hs.below_eq

/-- No row of the two blocks before a join is longer than its block. -/
theorem Spans.length_le_join {y : Nat} (hy : s.floor ≤ y) :
    (rowAt u.rows y).length ≤ if y < t.floor then w else w' := by
  split
  · next hlt =>
    rw [hu.above y hlt]
    exact hs.length_le y hy
  · next hge => exact hu.length_le y (Nat.le_of_not_lt hge)

theorem Spans.above_join {y : Nat} (hy : y < s.floor) :
    (rowAt u.rows y).length = (rowAt s.rows y).length := by
  have hfloor := hs.floor_eq
  rw [hu.above y (by omega), hs.above y hy]

theorem Spans.joinParallel : Spans s u.joinParallel (max w w') (h + h') := by
  have hfloor := hs.floor_eq
  have hwaiting := hs.waiting_join hu
  have hlen := hu.length_rows
  have ha (r : Nat) (hr : r ∈ t.block.rows) := hs.open_rows r hr
  have hb (r : Nat) (hr : r ∈ u.block.rows) := hu.open_rows r hr
  have hj : u.joinParallel =
      { u with
        rows := wireRowsTo u.rows (t.block.rows ++ u.block.rows) (max w w')
        block :=
          { width := max w w'
            out := t.block.out
            pending := t.block.pending ++ u.block.rows
            top := t.block.top }
        waiting := s.below } := by
    rw [Sheet.joinParallel, hwaiting, ← hs.block_width, ← hu.block_width]
  rw [hj]
  have hrow (y : Nat) := length_rowAt_wireRowsTo u.rows (t.block.rows ++ u.block.rows) (max w w') y
  exact {
    width_pos := Nat.lt_of_lt_of_le hs.width_pos (Nat.le_max_left w w')
    waiting := rfl
    block_width := rfl
    block_top := hs.block_top
    length_rows := by
      rw [length_wireRowsTo]
      omega
    open_rows := fun r hr => by
      rcases List.mem_append.1 (show r ∈ t.block.rows ++ u.block.rows from hr) with hr | hr
      · have := ha r hr
        omega
      · have := hb r hr
        omega
    length_out := by
      have hout := ha t.block.out (out_mem_rows t.block)
      have hlast := hs.length_out
      rw [← hu.above t.block.out (by omega)] at hlast
      refine (hrow t.block.out).trans ?_
      rw [if_pos ⟨by omega, List.mem_append_left _ (out_mem_rows t.block)⟩, hlast]
      omega
    length_le := fun y hy => by
      have hle := hs.length_le_join hu hy
      rw [hrow]
      split at hle <;> split <;> omega
    above := fun y hy => by
      rw [hrow, if_neg, hs.above_join hu hy]
      rintro ⟨-, hmem⟩
      rcases List.mem_append.1 hmem with hr | hr
      · have := ha y hr
        omega
      · have := hb y hr
        omega }

/-- The lengths of the rows after a join in series. -/
theorem Spans.length_rowAt_joinSeries (y : Nat) :
    (y < s.floor → (rowAt u.joinSeries.rows y).length = (rowAt s.rows y).length) ∧
    (s.floor ≤ y → (rowAt u.joinSeries.rows y).length ≤ w + 1 + w') ∧
    (y = u.block.out → (rowAt u.joinSeries.rows y).length = w + 1 + w') := by
  have hfloor := hs.floor_eq
  have hlen := hu.length_rows
  have ha (r : Nat) (hr : r ∈ t.block.rows) := hs.open_rows r hr
  have hout := ha t.block.out (out_mem_rows t.block)
  have hlast := hu.open_rows u.block.out (out_mem_rows u.block)
  have htop := hu.block_top
  have hpos := hu.width_pos
  rw [rows_joinSeries (hs.waiting_join hu), htop]
  rcases Nat.lt_or_ge y u.rows.length with hy | hy
  · obtain ⟨m, hm, htie, hoff⟩ := length_rowAt_tiePending u.rows t.block y
    have hentry (hlt : y < t.floor) : y ∉ railRows (tiePending u.rows t.block) t.floor :=
      fun hmem => Nat.not_le_of_lt hlt (mem_railRows.1 hmem).1
    rw [length_rowAt_junction _ _ _ (by simpa using by omega) (by simpa using hy),
      length_rowAt_shiftRows, length_tiePending, htie]
    rw [hs.block_width] at hm ⊢
    rcases Nat.lt_or_ge y s.floor with hlt | hge
    · -- above both blocks
      have hm0 : m = 0 := hoff (.inr fun r hr => by have := ha r hr; omega)
      have hl := hs.above_join hu hlt
      rw [if_neg (by omega), if_neg (by omega), if_neg (by omega), if_neg (hentry (by omega))]
      omega
    · have hl := hs.length_le_join hu hge
      rcases Nat.lt_or_ge y t.floor with hlt | hge'
      · -- on the rows of the block in front
        rw [if_pos hlt] at hl
        rw [if_neg (by omega), if_neg (hentry hlt)]
        refine ⟨fun h => by omega, fun _ => ?_, fun he => by omega⟩
        split <;> split <;> omega
      · -- on the rows that move
        have hm0 : m = 0 := hoff (.inl fun r hr => by have := ha r hr; omega)
        rw [if_neg (by omega)] at hl
        rw [if_pos ⟨hy, hge'⟩]
        refine ⟨fun h => by omega, fun _ => ?_, fun he => ?_⟩
        · split <;> split <;> split <;> omega
        · have hfull := hu.length_out
          rw [← he] at hfull
          split <;> split <;> split <;> omega
  · rw [rowAt_of_length_le (by simpa using hy)]
    refine ⟨fun hlt => by omega, fun _ => Nat.zero_le _, fun he => by omega⟩

theorem Spans.joinSeries : Spans s u.joinSeries (w + 1 + w') (h + h') := by
  have hfloor := hs.floor_eq
  have hwaiting := hs.waiting_join hu
  have hlen := hu.length_rows
  have hrow := hs.length_rowAt_joinSeries hu
  have hblock := block_joinSeries hwaiting
  exact {
    width_pos := by omega
    waiting := waiting_joinSeries hwaiting
    block_width := by rw [hblock, hs.block_width, hu.block_width]
    block_top := by rw [hblock, hs.block_top]
    length_rows := by
      rw [rows_joinSeries hwaiting, length_junction, length_shiftRows, length_tiePending]
      omega
    open_rows := fun r hr => by
      rw [hblock] at hr
      have := hu.open_rows r hr
      omega
    length_out := by
      rw [hblock]
      exact (hrow u.block.out).2.2 rfl
    length_le := fun y hy => (hrow y).2.1 hy
    above := fun y hy => (hrow y).1 hy }

end Join

end Sheet

namespace Circuit

open Sheet

/-! ## Circuits -/

theorem countP_opensRow_concat (program : Program) (i : Instruction) :
    (program ++ [i]).countP Instruction.opensRow =
      program.countP Instruction.opensRow + if i.opensRow then 1 else 0 := by
  rw [List.countP_append, List.countP_singleton]

/-- **A circuit is drawn as one new block** of its width and its height, on any sheet. -/
theorem spans (c : Circuit) {s : Sheet} (hs : s = {} ∨ s.isBare = false) (n : Nat) :
    Spans s (s.drawAll c.program n) c.width c.height := by
  induction c generalizing s n with
  | start i test hi =>
    have hopens : i.opensRow = true := by rw [Instruction.opensRow, hi]
    have hdraw : s.drawAll [i] n = s.start i n := by simp [drawAll, draw, hi]
    rw [height, program, hdraw, List.countP_singleton, if_pos hopens]
    exact spans_start hs i n
  | parallel c i test hi ih =>
    have hopens : i.opensRow = true := by rw [Instruction.opensRow, hi]
    rw [height, program, drawAll_concat, countP_opensRow_concat, if_pos hopens, draw, hi]
    exact (ih hs n).parallel i _
  | series c i test hi ih =>
    have hopens : ¬i.opensRow = true := by simp [Instruction.opensRow, hi]
    rw [height, program, drawAll_concat, countP_opensRow_concat, if_neg hopens, draw, hi]
    exact (ih hs n).series i _
  | coil c i k hi ih =>
    have hopens : ¬i.opensRow = true := by simp [Instruction.opensRow, hi]
    rw [height, program, drawAll_concat, countP_opensRow_concat, if_neg hopens, draw, hi]
    exact (ih hs n).series i _
  | join c c' i j hi ih ih' =>
    have hopens : ¬i.opensRow = true := by simp [Instruction.opensRow, hi]
    have h := ih hs n
    have h' := ih' (.inr h.isBare_eq) (n + c.program.length)
    rw [height, program, drawAll_concat, countP_opensRow_concat, if_neg hopens, drawAll_append,
      List.countP_append, draw, hi]
    cases j with
    | parallel => exact h.joinParallel h'
    | series => exact h.joinSeries h'

/-- **The size of a drawn circuit.** A contact at the start takes one column, an element in series one
more, and a contact in parallel none. A join in parallel is as wide as the wider of its circuits, and a
join in series as both together with a column between them. Each contact at the start or in parallel
takes a row. -/
theorem layout_size (c : Circuit) :
    (c.program.layout.width, c.program.layout.height) = (c.width, c.height) := by
  have hs := c.spans (.inl rfl) 0
  have hsheet : c.program.sheet = ({} : Sheet).drawAll c.program 0 := rfl
  have hbare := hs.isBare_eq
  have hheight : (drawAll {} c.program 0).rows.length = c.height :=
    hs.length_rows.trans (Nat.zero_add _)
  have hwidth : longest (drawAll {} c.program 0).rows = c.width := by
    refine Nat.le_antisymm (longest_le fun y => hs.length_le y (Nat.zero_le y)) ?_
    rw [← hs.length_out]
    exact length_rowAt_le_longest _ _
  rw [Program.layout_eq, hsheet, width_toDiagram hbare, height_toDiagram hbare, hheight, hwidth]

end Circuit
end LadderLogic
