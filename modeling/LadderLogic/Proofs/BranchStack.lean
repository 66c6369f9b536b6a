import LadderLogic.Proofs.Steps

/-!
# The branch stack in diagrams and scans

A scan keeps the truths of open branches on a stack, and a drawing keeps their anchors on another one.
Both have the depth that the program gives them, whatever is malformed in it. So the diagram shows what
the scan leaves on its stack: one truth for each push that is drawn, less one for each pop
(`branches_eq_drawn`). Since every drawn instruction has a cell of its own, the cells can be counted over
the indices of the program (`countP_cells`).

Source: the branch anchors of `layout` and the `mps_stack` of `step` (sections 4.1 and 4.2 of the
specification).
-/

namespace LadderLogic

/-- Whether a cell holds an operation on the branch stack. -/
def Cell.holdsBranch (b : Branch) (c : Cell) : Bool := c.instruction.any (·.isBranch b)

/-- All cells of a diagram, row by row. -/
def Diagram.cells (d : Diagram) : List GridCell := d.rows.flatten

namespace Program

/-! ## Cells and indices -/

/-- The indices in the cells of a diagram. -/
def sources (program : Program) : List Nat := program.layout.cells.filterMap (·.source)

theorem exists_cell?_of_mem_cells {d : Diagram} {c : GridCell} (h : c ∈ d.cells) :
    ∃ x y, d.cell? x y = some c := by
  obtain ⟨row, hrow, hc⟩ := List.mem_flatten.1 h
  obtain ⟨y, hy⟩ := List.mem_iff_getElem?.1 hrow
  obtain ⟨x, hx⟩ := List.mem_iff_getElem?.1 hc
  exact ⟨x, y, by rw [Diagram.cell?, hy]; exact hx⟩

theorem mem_cells_of_cell? {d : Diagram} {c : GridCell} {x y : Nat} (h : d.cell? x y = some c) :
    c ∈ d.cells := by
  obtain ⟨row, hrow, hc⟩ := Option.bind_eq_some_iff.1 h
  exact List.mem_flatten.2 ⟨row, List.mem_of_getElem? hrow, List.mem_of_getElem? hc⟩

theorem exists_cell?_iff {program : Program} {n : Nat} :
    (∃ x y c, program.layout.cell? x y = some c ∧ c.source = some n) ↔ n ∈ program.sources := by
  rw [sources, List.mem_filterMap]
  constructor
  · rintro ⟨x, y, c, hc, hn⟩
    exact ⟨c, mem_cells_of_cell? hc, hn⟩
  · rintro ⟨c, hc, hn⟩
    obtain ⟨x, y, hxy⟩ := exists_cell?_of_mem_cells hc
    exact ⟨x, y, c, hxy, hn⟩

/-- The indices in the cells are those of the drawn instructions. -/
theorem mem_sources {program : Program} {n : Nat} : n ∈ program.sources ↔ program.IsDrawn n := by
  rw [← exists_cell?_iff]
  constructor
  · rintro ⟨x, y, c, hc, hn⟩
    have hmark : (Sheet.marks (sheet program).rows x y).2 = some n := by rw [marks_of_cell? hc, hn]
    exact ((placed_sheet program).holds.sound hmark).1
  · intro h
    obtain ⟨x, y, c, hc, hn, -, -⟩ := exists_cell_of_isDrawn h
    exact ⟨x, y, c, hc, hn⟩

/-- No index stands in two cells. -/
theorem nodup_sources (program : Program) : program.sources.Nodup := by
  have hunique {x y x' y' : Nat} {c c' : GridCell} {n : Nat} (hc : program.layout.cell? x y = some c)
      (hc' : program.layout.cell? x' y' = some c') (hn : c.source = some n)
      (hn' : c'.source = some n) : x = x' ∧ y = y' :=
    (placed_sheet program).holds.unique (by rw [marks_of_cell? hc, hn]) (by rw [marks_of_cell? hc', hn'])
  rw [sources, List.Nodup, List.pairwise_filterMap, Diagram.cells, List.pairwise_flatten]
  constructor
  · intro row hrow
    obtain ⟨y, hy⟩ := List.mem_iff_getElem?.1 hrow
    rw [List.pairwise_iff_getElem]
    rintro x x' hx hx' hlt n hn m hm rfl
    have hcell {k : Nat} (hk : k < row.length) : program.layout.cell? k y = some row[k] := by
      rw [Diagram.cell?, hy]
      exact List.getElem?_eq_getElem hk
    exact absurd (hunique (hcell hx) (hcell hx') hn hm).1 (Nat.ne_of_lt hlt)
  · rw [List.pairwise_iff_getElem]
    rintro y y' hy hy' hlt c hc c' hc' n hn m hm rfl
    have hcell {k : Nat} (hk : k < program.layout.rows.length) {c : GridCell}
        (hc : c ∈ program.layout.rows[k]) : ∃ x, program.layout.cell? x k = some c := by
      obtain ⟨x, hx⟩ := List.mem_iff_getElem?.1 hc
      exact ⟨x, by rw [Diagram.cell?, List.getElem?_eq_getElem hk]; exact hx⟩
    obtain ⟨x, hx⟩ := hcell hy hc
    obtain ⟨x', hx'⟩ := hcell hy' hc'
    exact absurd (hunique hx hx' hn hm).2 (Nat.ne_of_lt hlt)

/-! ## Counts -/

/-- Whether the instruction at an index is an operation on the branch stack and is drawn. -/
def drawsBranch (program : Program) (b : Branch) (n : Nat) : Bool :=
  (program[n]?).any fun i => i.isBranch b && i.isDrawn (openBranches (program.take n))

/-- The number of drawn operations on the branch stack of a kind. -/
def drawnBranches (program : Program) (b : Branch) : Nat :=
  (List.range program.length).countP (program.drawsBranch b)

/-- A cell holds the instruction at its index, and none without an index. -/
theorem holdsBranch_iff {program : Program} {c : GridCell} (hc : c ∈ program.layout.cells) (b : Branch) :
    c.holdsBranch b = true ↔ (c.source.any fun n => (program[n]?).any (·.isBranch b)) = true := by
  have hholds := (placed_sheet program).holds
  obtain ⟨x, y, hxy⟩ := exists_cell?_of_mem_cells hc
  have hmark := marks_of_cell? hxy
  cases hn : c.source with
  | none =>
    have hnone : c.instruction = none := by
      have hblank := hholds.blank (x := x) (y := y)
      rw [hmark] at hblank
      exact hblank hn
    rw [Cell.holdsBranch, hnone, Option.any_none, Option.any_none]
  | some n =>
    have hsome : c.instruction = program[n]? := by
      have hsound := hholds.sound (x := x) (y := y) (n := n)
      rw [hmark] at hsound
      exact (hsound hn).2
    rw [Cell.holdsBranch, hsome, Option.any_some]

/-- The indices in the cells, in the order of the program. -/
theorem sources_perm (program : Program) :
    program.sources.Perm ((List.range program.length).filter
      fun n => (program[n]?).any fun i => i.isDrawn (openBranches (program.take n))) := by
  rw [List.perm_ext_iff_of_nodup program.nodup_sources (List.nodup_range.filter _)]
  intro n
  rw [mem_sources, IsDrawn, List.mem_filter, List.mem_range, Option.any_eq_true]
  constructor
  · rintro ⟨i, hi, hd⟩
    exact ⟨(List.getElem?_eq_some_iff.1 hi).1, i, hi, hd⟩
  · rintro ⟨-, h⟩
    exact h

/-- The cells that hold an operation on the branch stack can be counted over the program. -/
theorem countP_cells (program : Program) (b : Branch) :
    program.layout.cells.countP (·.holdsBranch b) = program.drawnBranches b := by
  calc program.layout.cells.countP (·.holdsBranch b)
    _ = program.layout.cells.countP fun c => c.source.any fun n => (program[n]?).any (·.isBranch b) :=
      List.countP_congr fun c hc => holdsBranch_iff hc b
    _ = program.sources.countP fun n => (program[n]?).any (·.isBranch b) := by
      rw [sources, List.countP_filterMap]
      refine List.countP_congr fun c _ => ?_
      cases c.source <;> rfl
    _ = program.drawnBranches b := by
      rw [program.sources_perm.countP_eq, List.countP_filter, drawnBranches]
      refine List.countP_congr fun n _ => ?_
      cases hi : program[n]? <;> simp [drawsBranch, hi]

theorem drawnBranches_append (program : Program) (i : Instruction) (b : Branch) :
    drawnBranches (program ++ [i]) b =
      drawnBranches program b + if i.isBranch b && i.isDrawn program.openBranches then 1 else 0 := by
  have hold : (List.range program.length).countP (drawsBranch (program ++ [i]) b) =
      drawnBranches program b := by
    refine List.countP_congr fun n hn => ?_
    have hlt := List.mem_range.1 hn
    rw [drawsBranch, drawsBranch, List.getElem?_append_left hlt,
      List.take_append_of_le_length (Nat.le_of_lt hlt)]
  have hnew : drawsBranch (program ++ [i]) b program.length =
      (i.isBranch b && i.isDrawn program.openBranches) := by
    simp [drawsBranch]
  rw [drawnBranches, List.length_append, List.length_singleton, List.range_succ, List.countP_append,
    hold, List.countP_singleton, hnew]

/-- A push that is drawn opens a branch, and a pop that is drawn closes one. -/
theorem depthAfter_add_pop (i : Instruction) (depth : Nat) :
    i.depthAfter depth + (if i.isBranch .pop && i.isDrawn depth then 1 else 0) =
      depth + if i.isBranch .push && i.isDrawn depth then 1 else 0 := by
  unfold Instruction.depthAfter Instruction.isDrawn Instruction.isBranch
  rcases i.operation with (⟨position, test⟩ | join | b | coil) | name
  · simp
  · simp
  · cases b with
    | push => simp
    | read => simp
    | pop => by_cases hopen : 0 < depth <;> simp [hopen] <;> omega
  · simp
  · simp

/-- Every open branch has a push that is drawn, and every pop that is drawn has closed one. -/
theorem openBranches_add_pops (program : Program) :
    program.openBranches + program.drawnBranches .pop = program.drawnBranches .push := by
  induction program using List.reverseRecOn with
  | nil => rfl
  | append_singleton program i ih =>
    have hstep := depthAfter_add_pop i (openBranches program)
    rw [drawnBranches_append, drawnBranches_append, openBranches_concat]
    omega

/-! ## Diagrams and scans -/

/-- **Diagram and scan agree on the branch stack.** Let a scan of a program, in which anything may be
malformed, not fail. It leaves as many truths on the branch stack as the diagram has cells with a push,
less those with a pop. A read or a pop is drawn exactly if the scan, when it comes to it, has something
on the branch stack. -/
theorem branches_eq_drawn {program : Program} (hne : program ≠ []) {s next : State} {dt : Int}
    (h : program.scan s dt = .ok next) :
    (next.branches.length : Int) = program.layout.cells.countP (·.holdsBranch .push) -
      program.layout.cells.countP (·.holdsBranch .pop) ∧
    ∀ n i, program[n]? = some i → i.readsBranch = true →
      ∃ u, (Scan.start s dt).run (program.take n) = .ok u ∧
        ((∃ x y c, program.layout.cell? x y = some c ∧ c.source = some n) ↔ u.state.branches ≠ []) := by
  constructor
  · have hcount := openBranches_add_pops program
    rw [length_branches_scan hne h, countP_cells, countP_cells]
    omega
  · intro n i hi hreads
    obtain ⟨w, hw, -⟩ := exists_run_of_scan hne h
    rw [← List.take_append_drop n program] at hw
    obtain ⟨u, hu, -⟩ := Scan.exists_run_of_append hw
    refine ⟨u, hu, ?_⟩
    have hdepth : u.state.branches.length = openBranches (program.take n) :=
      Scan.length_branches_run rfl hu
    have hdrawn : i.isDrawn (openBranches (program.take n)) = true ↔ u.state.branches ≠ [] := by
      rw [← hdepth, ← List.length_pos_iff]
      rcases Bool.or_eq_true_iff.1 hreads with ho | ho <;> simp [Instruction.isDrawn, of_decide_eq_true ho]
    rw [exists_cell?_iff, ← hdrawn, mem_sources, IsDrawn, hi]
    simp

/-- A pop in front of every push, a read and a pop of a branch that a join has moved, a pop too many, an
unknown operation and a push that is left open. -/
theorem branches_eq_drawn_malformed :
    let program : Program :=
      Listing.parse "MPP\nLD X0\nMPS\nMRD\nLD X1\nMPS\nANB\nMPP\nMPP\nMPP\nOR X2\nMPS" ++
        [⟨20, .unknown "FROB", [], []⟩]
    program ≠ [] ∧ ∃ next, program.scan {} 100 = .ok next ∧
      (next.branches.length : Int) = program.layout.cells.countP (·.holdsBranch .push) -
        program.layout.cells.countP (·.holdsBranch .pop) ∧
      program.layout.cells.countP (·.holdsBranch .push) = 3 ∧
      ∀ n i, program[n]? = some i → i.readsBranch = true →
        ∃ u, (Scan.start {} 100).run (program.take n) = .ok u ∧
          ((∃ x y c, program.layout.cell? x y = some c ∧ c.source = some n) ↔
            u.state.branches ≠ []) := by
  intro program
  have hne : program ≠ [] := by decide
  have hok : (program.scan {} 100).isOk = true := by decide
  have hpushes : program.layout.cells.countP (·.holdsBranch .push) = 3 := by decide
  refine ⟨hne, ?_⟩
  cases hscan : program.scan {} 100 with
  | error fault =>
    rw [hscan] at hok
    cases hok
  | ok next =>
    obtain ⟨hlength, hreads⟩ := branches_eq_drawn hne hscan
    exact ⟨next, rfl, hlength, hpushes, hreads⟩

end Program
end LadderLogic
