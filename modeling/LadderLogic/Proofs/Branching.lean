import LadderLogic.Proofs.SeriesParallel

/-!
# Branching rungs

Inside a rung the anchors of open branches stay free for further buses (`AnchorOpen`): all that is
drawn after a push goes to columns behind it, as expressions move there when they are joined, and the
rows of a branch begin at its bus. So every read and pop is admitted, and the diagram of a sequence of
rungs agrees with the scan.

Source: the branch operations of `layout` and `step` (sections 4.1 and 4.2 of the specification).
-/

namespace LadderLogic

namespace Sheet

variable {rows tied : List Row} {bits : Text → Bool} {a b : Block} {read : Bool}
  {anchor : Nat × Nat} {i : Instruction} {n : Nat}

/-- From an anchor a bus can be drawn down, and the block goes on behind and below it. -/
structure AnchorOpen (rows : List Row) (b : Block) (anchor : Nat × Nat) : Prop where
  clear : BusClear rows anchor.1 anchor.2
  column_lt : anchor.1 < b.width
  row_le : anchor.2 ≤ b.out
  length_lt : ∀ r ∈ b.rows, anchor.2 < r → anchor.1 < (rowAt rows r).length

/-- Tying the pending rows of the block draws no wire across the column of an anchor. -/
theorem AnchorOpen.left_tied {bottom y : Nat} (ho : AnchorOpen rows b anchor)
    (ht : Tied rows tied bits b bottom) (hy : anchor.2 < y) :
    (cellAt tied anchor.1 y).left = false := by
  rw [ht.left_eq _ _ fun hr => ho.length_lt y hr hy]
  exact ho.clear.left_eq hy

theorem AnchorOpen.up_tied {bottom : Nat} (ho : AnchorOpen rows b anchor)
    (ht : Tied rows tied bits b bottom) : (cellAt tied anchor.1 anchor.2).up = false := by
  rw [← ho.clear.1]
  rcases Nat.lt_or_eq_of_le ho.row_le with hlt | he
  · rw [cellAt, ht.above _ hlt, cellAt]
  · rw [he, ht.up_out]

/-! ## Elements in series -/

section Series

variable (hf : Fits rows b rows.length read) (ht : Tied rows tied bits b rows.length)

include hf ht

theorem AnchorOpen.series (ho : AnchorOpen rows b anchor) :
    AnchorOpen (putWired tied b.width b.out i n) { b with width := b.width + 1, pending := [] }
      anchor := by
  have hlt := ho.column_lt
  refine ⟨⟨?_, fun y _ hy => ?_⟩, Nat.lt_succ_of_lt hlt, ho.row_le, fun r hr _ => ?_⟩
  · rw [cellAt_putWired _ _ _ _ _ (ht.out_lt hf), cellAt_put _ _ _ _ _ (ht.out_lt hf),
      if_neg (by omega)]
    exact ho.up_tied ht
  · rw [cellAt_putWired _ _ _ _ _ (ht.out_lt hf), ho.left_tied ht hy, Bool.false_or,
      decide_eq_false_iff_not]
    omega
  · rw [List.mem_singleton.1 hr, length_rowAt_series hf ht, if_pos rfl]
    omega

/-- A push at the end of a block leaves an open anchor. -/
theorem anchorOpen_series_end :
    AnchorOpen (putWired tied b.width b.out i n) { b with width := b.width + 1, pending := [] }
      (b.width, b.out) := by
  have hblank := cellAt_of_length_le (Nat.le_of_eq ht.length_out)
  refine ⟨⟨?_, fun y hlt hy => ?_⟩, Nat.lt_succ_self _, Nat.le_refl _, fun r hr hlt => ?_⟩
  · rw [cellAt_putWired _ _ _ _ _ (ht.out_lt hf), cellAt_put _ _ _ _ _ (ht.out_lt hf),
      if_pos ⟨rfl, rfl⟩, hblank]
  · change b.out < y at hy
    rw [length_putWired, ht.length_eq] at hlt
    have hlen := (ht.length_le y (Nat.le_of_lt hy) hlt).2
    rw [cellAt_putWired _ _ _ _ _ (ht.out_lt hf), cellAt_of_length_le hlen, Bool.false_or,
      decide_eq_false_iff_not]
    exact fun h => Nat.ne_of_gt hy h.1
  · rw [List.mem_singleton.1 hr] at hlt
    exact absurd hlt (Nat.lt_irrefl _)

end Series

/-! ## Buses -/

/-- A bus from the last anchor leaves it open, and the anchors before it, which stand in front of it
and not below. -/
theorem AnchorOpen.dropBus {x y : Nat} (ho : AnchorOpen rows b anchor) (hx : anchor.1 ≤ x)
    (hy : anchor.2 ≤ y) (hlt : y < rows.length) :
    AnchorOpen (dropBus rows x y i n) { b with width := x + 1, out := rows.length, pending := [] }
      anchor := by
  refine ⟨⟨?_, fun y' _ hy' => ?_⟩, Nat.lt_succ_of_le hx, ?_, fun r hr _ => ?_⟩
  · have hn : ¬(anchor.1 = x ∧ y < anchor.2 ∧ anchor.2 ≤ rows.length) := by omega
    rw [cellAt_dropBus, if_neg (by omega), ho.clear.1, Bool.false_or, decide_eq_false_iff_not]
    exact hn
  · rw [cellAt_dropBus]
    split
    · rfl
    · exact ho.clear.left_eq hy'
  · change anchor.2 ≤ rows.length
    omega
  · rw [List.mem_singleton.1 hr, length_rowAt_dropBus]
    omega

/-! ## Joins in series -/

/-- A join behind the block of an anchor moves what was drawn in between behind the anchor. -/
theorem AnchorOpen.joinSeries {rows₀ : List Row} (ho : AnchorOpen rows₀ a anchor)
    (hrow : ∀ y < b.top, rowAt rows y = rowAt rows₀ y) (ha : Fits rows a b.top read)
    (hb : Fits rows b rows.length false) (ht : Tied rows tied bits a b.top) :
    AnchorOpen (seriesRows tied a b.top)
      { width := a.width + 1 + b.width, out := b.out, pending := b.pending, top := a.top }
      anchor := by
  have hj := joins_tied ha hb ht
  have hx := ho.column_lt
  have hle := ho.row_le
  have hout := ha.out_lt
  have hcell {x y : Nat} (hy : y < b.top) : cellAt rows x y = cellAt rows₀ x y := by
    rw [cellAt, hrow y hy, cellAt]
  refine ⟨⟨?_, fun y _ hy => ?_⟩, ?_, ?_, fun r hr _ => ?_⟩
  · have hup : (cellAt tied anchor.1 anchor.2).up = false := by
      rw [← ho.clear.1, ← hcell (by omega)]
      rcases Nat.lt_or_eq_of_le hle with hlt | he
      · rw [cellAt, ht.above _ hlt, cellAt]
      · rw [he, ht.up_out]
    rw [cellAt_seriesRows_above hj (by omega), hup, Bool.false_or, decide_eq_false_iff_not]
    omega
  · rcases Nat.lt_or_ge y b.top with htop | htop
    · have hleft : (cellAt tied anchor.1 y).left = false := by
        rw [ht.left_eq _ _ fun hr => by rw [hrow y htop]; exact ho.length_lt y hr hy, hcell htop]
        exact ho.clear.left_eq hy
      rw [cellAt_seriesRows_above hj htop, hleft, Bool.false_or, decide_eq_false_iff_not]
      omega
    · rw [cellAt_seriesRows_front hj htop (by omega)]
  · change anchor.1 < a.width + 1 + b.width
    omega
  · have := hb.top_le
    change anchor.2 ≤ b.out
    omega
  · rw [length_rowAt_joinSeries ha hb ht (Nat.le_trans hb.top_le (hb.out_le hr))
      (hb.lt_bottom r hr)]
    omega

end Sheet

namespace Program

open Sheet

/-! ## Between the parts of a rung -/

/-- A program that stands between the parts of a rung: its last block goes on, and every open branch
can be read. -/
structure Based (program : Program) : Prop where
  begins : program.BeginsBlock
  admitted : program.Admitted
  ties : TiesFree (sheet program).rows (sheet program).block
  anchors : ∀ anchor ∈ (sheet program).anchors,
    AnchorOpen (sheet program).rows (sheet program).block anchor
  nested : (sheet program).anchors.Pairwise fun p q => q.1 ≤ p.1 ∧ q.2 ≤ p.2
  gates : ∀ k ∈ (outline program).pushes, ∀ g ∈ (outline program).gates, ¬(g.1 ≤ k ∧ k < g.2)

variable {program before : Program} {i : Instruction}

/-- An expression begins a rung if no branch is open. -/
theorem Extends.based (h : Extends before program) (hw : program.WritesOnce)
    (hp : (outline before).pushes = []) : Based program := by
  have hp : (outline program).pushes = [] := h.pushes.trans hp
  have ha : (sheet program).anchors = [] := by
    have := (aligned_sheet h.begins).pushes
    rwa [hp, List.forall₂_nil_left_iff] at this
  exact {
    begins := h.begins
    admitted := h.admitted
    ties := h.tiesFree hw
    anchors := by rw [ha]; exact fun _ hm => nomatch hm
    nested := by rw [ha]; exact .nil
    gates := by rw [hp]; exact fun _ hm => nomatch hm }

theorem Based.exists_live (h : Based program) (hw : program.WritesOnce) :
    ∃ bits T f fs v logic, Grid.Wired (cellAt (sheet program).rows) ∧
      (outline program).frames = f :: fs ∧
      Live (sheet program).rows bits T (f :: fs)
        ((sheet program).block :: (sheet program).waiting) (sheet program).rows.length
        (v :: logic) := by
  obtain ⟨bits, T, t, ht⟩ := exists_tracks h.begins h.admitted hw
  have hl := ht.live
  obtain ⟨f, fs, v, logic, hf, hlogic⟩ := hl.exists_cons
  rw [hf, hlogic] at hl
  exact ⟨bits, T, f, fs, v, logic, ht.wired, hf, hl⟩

/-- A contact or an output coil in series. -/
theorem Based.series (h : Based program) (hw : program.WritesOnce)
    (hs : sheet (program ++ [i]) = (sheet program).series i program.length)
    (ho : outline (program ++ [i]) = outline program)
    (hadm : Admitted (program ++ [i])) : Based (program ++ [i]) := by
  obtain ⟨bits, T, f, fs, v, logic, hwired, -, hl⟩ := h.exists_live hw
  have ht := tied_tiePending hwired hl.1 (Nat.le_refl _) h.ties bits
  exact {
    begins := h.begins.append [i]
    admitted := hadm
    ties := by rw [hs]; exact fun hne => absurd rfl hne
    anchors := by rw [hs]; exact fun anchor ha => (h.anchors anchor ha).series hl.1 ht
    nested := by rw [hs]; exact h.nested
    gates := by rw [ho]; exact h.gates }

theorem Based.push (h : Based program) (hw : program.WritesOnce)
    (hi : i.operation = .known (.branch .push)) : Based (program ++ [i]) := by
  obtain ⟨bits, T, f, fs, v, logic, hwired, -, hl⟩ := h.exists_live hw
  have ht := tied_tiePending hwired hl.1 (Nat.le_refl _) h.ties bits
  have hs : sheet (program ++ [i]) = (sheet program).pushBranch i program.length := by
    rw [sheet_append, Sheet.draw, hi]
  have ho : outline (program ++ [i]) =
      { outline program with pushes := program.length :: (outline program).pushes } := by
    rw [outline_append, Outline.step, hi]
  have hadm : (sheet program).admits (outline program) i = true := by
    simp only [admits, hi, decide_eq_true_eq]
    exact h.ties
  refine ⟨h.begins.append [i], admitted_append.2 ⟨h.admitted, hadm⟩, ?_, ?_, ?_, ?_⟩
  · rw [hs]
    exact fun hne => absurd rfl hne
  · rw [hs]
    intro anchor ha
    rcases List.mem_cons.1 ha with rfl | ha
    · exact anchorOpen_series_end hl.1 ht
    · exact (h.anchors anchor ha).series hl.1 ht
  · rw [hs]
    refine List.pairwise_cons.2 ⟨fun anchor ha => ?_, h.nested⟩
    have hopen := h.anchors anchor ha
    exact ⟨Nat.le_of_lt hopen.column_lt, hopen.row_le⟩
  · rw [ho]
    intro k hk g hg
    rcases List.mem_cons.1 hk with rfl | hk
    · -- the joins so far come before the push
      have := (aligned_sheet h.begins).gates g hg
      omega
    · exact h.gates k hk g hg

section Drop

variable {keep : Bool} (hi : i.operation = .known (.branch (if keep then .read else .pop)))

include hi

theorem sheet_drop (program : Program) :
    sheet (program ++ [i]) = (sheet program).dropBranch i program.length keep := by
  rw [sheet_append, Sheet.draw, hi]
  cases keep <;> rfl

theorem outline_drop (program : Program) :
    outline (program ++ [i]) = (outline program).drop keep := by
  rw [outline_append, Outline.step, hi]
  cases keep <;> rfl

/-- The last of the open branches is read or popped. -/
theorem Based.drop (h : Based program) (hp : (outline program).pushes ≠ []) :
    Based (program ++ [i]) := by
  have hal := aligned_sheet h.begins
  obtain ⟨k, pushes, hk⟩ := List.exists_cons_of_ne_nil hp
  have hpushes := hal.pushes
  rw [hk] at hpushes
  obtain ⟨⟨x, y⟩, anchors, -, -, ha⟩ := List.forall₂_cons_left_iff.1 hpushes
  have hmem : (x, y) ∈ (sheet program).anchors := ha ▸ List.mem_cons_self
  have hadm : (sheet program).admits (outline program) i = true :=
    (admits_drop (by cases keep <;> decide) hi).2 ⟨k, pushes, x, y, anchors, hk, ha,
      (h.anchors _ hmem).clear, h.gates k (hk ▸ List.mem_cons_self)⟩
  -- the anchors that are left stand in front of the bus and not below
  have hfront : ∀ anchor ∈ (sheet program).anchors, anchor.1 ≤ x ∧ anchor.2 ≤ y := by
    have hn := h.nested
    rw [ha] at hn ⊢
    intro anchor hanchor
    rcases List.mem_cons.1 hanchor with rfl | hanchor
    · exact ⟨Nat.le_refl _, Nat.le_refl _⟩
    · exact (List.pairwise_cons.1 hn).1 anchor hanchor
  have hs := sheet_drop hi program
  rw [Sheet.dropBranch, ha] at hs
  have hsub : (sheet (program ++ [i])).anchors.Sublist (sheet program).anchors := by
    rw [hs, ha]
    cases keep with
    | true => exact .refl _
    | false => exact List.sublist_cons_self _ _
  refine ⟨h.begins.append [i], admitted_append.2 ⟨h.admitted, hadm⟩, ?_, fun anchor hanchor => ?_,
    h.nested.sublist hsub, fun k' hk' => ?_⟩
  · rw [hs]
    exact fun hne => absurd rfl hne
  · have hanchor := hsub.subset hanchor
    obtain ⟨hx, hy⟩ := hfront anchor hanchor
    rw [hs]
    exact (h.anchors anchor hanchor).dropBus hx hy (hal.anchor_lt hmem)
  · rw [outline_drop hi program, Outline.drop, hk] at hk' ⊢
    refine h.gates k' ?_
    rw [hk]
    cases keep with
    | true => exact hk'
    | false => exact List.mem_cons_of_mem k hk'

end Drop

/-- An expression is joined in series. -/
theorem Based.joinSeries {program' : Program} (h : Based program) (h' : Extends program program')
    (hw : program'.WritesOnce) (hi : i.operation = .known (.block .series)) :
    Based (program' ++ [i]) := by
  have hal := aligned_sheet h.begins
  have hwaiting : (sheet program').waiting = (sheet program).block :: (sheet program).waiting :=
    h'.waiting.trans (below_eq h.begins)
  have hrow : ∀ y < (sheet program').block.top,
      rowAt (sheet program').rows y = rowAt (sheet program).rows y := by
    rw [h'.top]
    exact h'.rows
  obtain ⟨bits, T, f, fs, v, u, rest, hwired, hf, hl⟩ := h'.exists_live_front h.begins hw
  obtain ⟨-, htail⟩ := hl.second rfl
  have hle := Nat.le_trans hl.1.top_le (Nat.le_of_lt hl.1.out_lt)
  -- the block in front is as it was before the expression
  have hfree : TiesFree (sheet program').rows (sheet program).block := fun hne r hr => by
    have := h.ties hne r hr
    rwa [cellAt, ← hrow r (htail.1.lt_bottom r hr), ← cellAt] at this
  have ht := tied_tiePending hwired htail.1 hle hfree bits
  have hs : sheet (program' ++ [i]) = (sheet program').joinSeries := by
    rw [sheet_append, Sheet.draw, hi]
  have hrows : (sheet program').joinSeries.rows = seriesRows _ _ _ := rows_joinSeries hwaiting
  have hblock := block_joinSeries hwaiting
  have hanchors : (sheet (program' ++ [i])).anchors = (sheet program).anchors := by
    rw [hs, h'.anchors_joinSeries h.begins, h'.anchors]
  have hadm : (sheet program').admits (outline program') i = true :=
    (admits_join hi).2 ⟨_, f, fs, _, _, h'.frames.trans (congrArg _ hf), hwaiting, rfl,
      fun _ => hfree⟩
  have ho : outline (program' ++ [i]) =
      { frames := f :: fs
        pushes := (outline program').pushes
        gates := (program.length, program'.length) :: (outline program').gates } := by
    simp only [outline_append, Outline.step, hi, Outline.join, h'.frames, hf]
    rfl
  refine ⟨h'.begins.append [i], admitted_append.2 ⟨h'.admitted, hadm⟩, ?_, ?_, ?_, ?_⟩
  · have hm := marks_joinSeries hwaiting (Nat.lt_of_lt_of_le htail.1.out_lt hle)
    have hfree' : FreeFrom (marks (sheet program').joinSeries.rows) program.height := by
      rw [hm]
      exact h'.free.shift _ _
    rw [hs, hblock]
    exact fun _ r hr => hfree'.isDrop_eq (h'.height_le hw hr)
  · rw [hanchors, hs, hrows, hblock]
    exact fun anchor ha => (h.anchors anchor ha).joinSeries hrow htail.1 hl.1 ht
  · rw [hanchors]
    exact h.nested
  · rw [ho]
    intro k hk g hg
    rw [h'.pushes] at hk
    have hlt := hal.push_lt (placed_sheet program) hk
    rcases List.mem_cons.1 hg with rfl | hg
    · exact fun hgate => absurd hgate.1 (Nat.not_le_of_lt hlt)
    · rcases h'.gates g hg with hg | hg
      · exact h.gates k hk g hg
      · omega

/-! ## Rungs -/

/-- What follows the expression at the beginning of a rung, or an operation on its branches: contacts
and output coils in series, expressions joined in series, and groups of branches, in which a push is
followed by any number of reads and a pop, each with the rest of its branch. -/
inductive IsTail : Program → Prop
  | nil : IsTail []
  | contact {t : Program} {i : Instruction} {test : Test} (ht : IsTail t)
      (hi : i.operation = .known (.contact .series test)) (htest : test ≠ .equal) :
      IsTail (t ++ [i])
  | out {t : Program} {i : Instruction} (ht : IsTail t) (hi : i.operation = .known (.coil .out)) :
      IsTail (t ++ [i])
  | join {t e : Program} {i : Instruction} (ht : IsTail t) (he : IsExpression e)
      (hi : i.operation = .known (.block .series)) : IsTail (t ++ e ++ [i])
  | group {t first last : Program} {reads : List (Instruction × Program)} {i j : Instruction}
      (ht : IsTail t) (hi : i.operation = .known (.branch .push)) (hfirst : IsTail first)
      (hread : ∀ r ∈ reads, r.1.operation = .known (.branch .read))
      (hreads : ∀ r ∈ reads, IsTail r.2) (hj : j.operation = .known (.branch .pop))
      (hlast : IsTail last) :
      IsTail (t ++ i :: first ++ reads.flatMap (fun r => r.1 :: r.2) ++ j :: last)

/-- A rung: an expression with a tail. -/
def IsRung (rung : Program) : Prop := ∃ e t, rung = e ++ t ∧ IsExpression e ∧ IsTail t

/-- A part of a rung after which the rung goes on as before, with the same branches open. -/
def Keeps (t : Program) : Prop := ∀ program : Program, Based program → WritesOnce (program ++ t) →
  Based (program ++ t) ∧ (outline (program ++ t)).pushes = (outline program).pushes

variable {t t' : Program}

theorem keeps_nil : Keeps [] := fun program h _ => by
  rw [List.append_nil]
  exact ⟨h, rfl⟩

theorem Keeps.append (h : Keeps t) (h' : Keeps t') : Keeps (t ++ t') := by
  intro program hb hw
  rw [← List.append_assoc] at hw ⊢
  obtain ⟨hb, hp⟩ := h program hb hw.of_append
  obtain ⟨hb', hp'⟩ := h' _ hb hw
  exact ⟨hb', hp'.trans hp⟩

theorem keeps_contact {test : Test} (hi : i.operation = .known (.contact .series test))
    (htest : test ≠ .equal) : Keeps [i] := by
  intro program hb hw
  have ho : outline (program ++ [i]) = outline program := by
    rw [outline_append, Outline.step, hi]
  refine ⟨hb.series hw.of_append (by rw [sheet_append, Sheet.draw, hi]) ho
    (admitted_append.2 ⟨hb.admitted, ?_⟩), by rw [ho]⟩
  simp only [admits, hi, Bool.and_eq_true, decide_eq_true_eq]
  exact ⟨htest, hb.ties⟩

theorem keeps_out (hi : i.operation = .known (.coil .out)) : Keeps [i] := by
  intro program hb hw
  have ho : outline (program ++ [i]) = outline program := by
    rw [outline_append, Outline.step, hi]
  refine ⟨hb.series hw.of_append (by rw [sheet_append, Sheet.draw, hi]) ho
    (admitted_append.2 ⟨hb.admitted, ?_⟩), by rw [ho]⟩
  simp only [admits, hi, decide_eq_true_eq]
  exact hb.ties

theorem keeps_join {e : Program} (he : IsExpression e)
    (hi : i.operation = .known (.block .series)) : Keeps (e ++ [i]) := by
  intro program hb hw
  rw [← List.append_assoc] at hw ⊢
  have hx := he.extends (.inr hb.begins) hb.admitted hw.of_append
  refine ⟨hb.joinSeries hx hw.of_append hi, ?_⟩
  rw [outline_append, Outline.step, hi, ← hx.pushes]
  exact Outline.pushes_join _ _ _

/-- A read or a pop of the last open branch, and the rest of the branch. -/
theorem Keeps.drop (h : Keeps t) (keep : Bool)
    (hi : i.operation = .known (.branch (if keep then .read else .pop))) {program : Program}
    (hb : Based program) (hp : (outline program).pushes ≠ [])
    (hw : WritesOnce (program ++ i :: t)) :
    Based (program ++ i :: t) ∧ (outline (program ++ i :: t)).pushes =
      if keep then (outline program).pushes else (outline program).pushes.tail := by
  rw [List.append_cons] at hw ⊢
  obtain ⟨hb', hp'⟩ := h _ (hb.drop hi hp) hw
  rw [hp', outline_drop hi program, Outline.pushes_drop]
  exact ⟨hb', rfl⟩

/-- The reads of a branch. -/
theorem Based.reads {reads : List (Instruction × Program)}
    (hread : ∀ r ∈ reads, r.1.operation = .known (.branch .read))
    (hkeeps : ∀ r ∈ reads, Keeps r.2) {program : Program} (hb : Based program)
    (hp : (outline program).pushes ≠ [])
    (hw : WritesOnce (program ++ reads.flatMap fun r => r.1 :: r.2)) :
    Based (program ++ reads.flatMap fun r => r.1 :: r.2) ∧
      (outline (program ++ reads.flatMap fun r => r.1 :: r.2)).pushes =
        (outline program).pushes := by
  induction reads generalizing program with
  | nil => exact keeps_nil program hb hw
  | cons r reads ih =>
    rw [List.forall_mem_cons] at hread hkeeps
    rw [List.flatMap_cons, ← List.append_assoc] at hw ⊢
    obtain ⟨hb', hp'⟩ := hkeeps.1.drop true hread.1 hb hp hw.of_append
    have hp' : _ = (outline program).pushes := hp'
    obtain ⟨hb'', hp''⟩ := ih hread.2 hkeeps.2 hb' (hp' ▸ hp) hw
    exact ⟨hb'', hp''.trans hp'⟩

/-- A group of branches closes all that it opens. -/
theorem keeps_group {first last : Program} {reads : List (Instruction × Program)} {j : Instruction}
    (hi : i.operation = .known (.branch .push)) (hfirst : Keeps first)
    (hread : ∀ r ∈ reads, r.1.operation = .known (.branch .read))
    (hreads : ∀ r ∈ reads, Keeps r.2) (hj : j.operation = .known (.branch .pop))
    (hlast : Keeps last) :
    Keeps (i :: first ++ reads.flatMap (fun r => r.1 :: r.2) ++ j :: last) := by
  intro program hb hw
  rw [← List.append_assoc, ← List.append_assoc, List.append_cons program i first] at hw ⊢
  have hw₁ := hw.of_append
  have hw₂ := hw₁.of_append
  obtain ⟨hb₁, hp₁⟩ := hfirst _ (hb.push hw₂.of_append.of_append hi) hw₂
  have ho : (outline (program ++ [i])).pushes = program.length :: (outline program).pushes := by
    rw [outline_append, Outline.step, hi]
  rw [ho] at hp₁
  obtain ⟨hb₂, hp₂⟩ := hb₁.reads hread hreads (by rw [hp₁]; exact List.cons_ne_nil _ _) hw₁
  rw [hp₁] at hp₂
  obtain ⟨hb₃, hp₃⟩ := hlast.drop false hj hb₂ (by rw [hp₂]; exact List.cons_ne_nil _ _) hw
  rw [hp₂] at hp₃
  exact ⟨hb₃, hp₃⟩

/-- **A tail keeps a rung going.** -/
theorem IsTail.keeps (ht : IsTail t) : Keeps t := by
  induction ht with
  | nil => exact keeps_nil
  | contact _ hi htest ih => exact ih.append (keeps_contact hi htest)
  | out _ hi ih => exact ih.append (keeps_out hi)
  | join _ he hi ih =>
    rw [List.append_assoc]
    exact ih.append (keeps_join he hi)
  | group _ hi _ hread _ hj _ ih ihfirst ihreads ihlast =>
    rw [List.append_assoc, List.append_assoc, ← List.append_assoc (_ :: _)]
    exact ih.append (keeps_group hi ihfirst hread ihreads hj ihlast)

/-- **Diagram and scan agree on branching rungs.** Let a program be a sequence of rungs that writes
each bit once and reads none after it is written. Then power comes in at an output coil exactly if
the scan sets its bit and, for each join in series in whose second expression the coil stands, what is
in front of that expression is true. -/
theorem outputsAgree_of_rungs {rungs : List Program} (hr : ∀ r ∈ rungs, IsRung r)
    (hw : WritesOnce rungs.flatten) (s : State) (dt : Int) : OutputsAgree rungs.flatten s dt := by
  -- between two rungs no branch is open
  let P (program : Program) := (program = [] ∨ program.BeginsBlock) ∧ program.Admitted ∧
    (outline program).pushes = []
  have hnil : P [] := ⟨.inl rfl, fun n hn => absurd hn (Nat.not_lt_zero n), rfl⟩
  have h : P rungs.flatten := flatten_induction hw hnil fun before rung hmem hb hw => by
    obtain ⟨e, t, rfl, he, ht⟩ := hr rung hmem
    rw [← List.append_assoc] at hw ⊢
    have hx := he.extends hb.1 hb.2.1 hw.of_append
    obtain ⟨hb', hp⟩ := ht.keeps _ (hx.based hw.of_append hb.2.2) hw
    exact ⟨.inr hb'.begins, hb'.admitted, hp.trans (hx.pushes.trans hb.2.2)⟩
  exact outputsAgree_of_admitted h.1 h.2.1 hw s dt

/-- A group of branches, with an expression joined in the first branch and a group in the second. -/
theorem isRung_nested_groups :
    IsRung (Listing.parse
      "LD X0\nMPS\nLD X1\nOUT Y0\nANB\nMRD\nMPS\nOUT Y1\nMPP\nANI X2\nOUT Y2\nMPP\nOUT Y3") := by
  let p : Program := Listing.parse
    "LD X0\nMPS\nLD X1\nOUT Y0\nANB\nMRD\nMPS\nOUT Y1\nMPP\nANI X2\nOUT Y2\nMPP\nOUT Y3"
  have hfirst : IsTail ((p.drop 2).take 3) :=
    @IsTail.join [] ((p.drop 2).take 2) _ .nil (by decide) rfl
  have hsecond : IsTail ((p.drop 6).take 5) :=
    @IsTail.group [] ((p.drop 7).take 1) ((p.drop 9).take 2) [] _ _ .nil rfl (.out .nil rfl)
      (by decide) (fun _ h => nomatch h) rfl (.out (.contact .nil rfl (by decide)) rfl)
  refine ⟨p.take 1, p.drop 1, by decide, by decide, ?_⟩
  exact @IsTail.group [] _ (p.drop 12) [(_, (p.drop 6).take 5)] _ _ .nil rfl hfirst
    (by decide) (fun r h => List.mem_singleton.1 h ▸ hsecond) rfl (.out .nil rfl)

theorem outputsAgree_nested_groups :
    let rungs := [Listing.parse
      "LD X0\nMPS\nLD X1\nOUT Y0\nANB\nMRD\nMPS\nOUT Y1\nMPP\nANI X2\nOUT Y2\nMPP\nOUT Y3"]
    let s : State := { bits := (∅ : Table Bool).insert "X1" true }
    (∀ r ∈ rungs, IsRung r) ∧ WritesOnce rungs.flatten ∧ OutputsAgree rungs.flatten s 10 :=
  have hr := List.forall_mem_singleton.2 isRung_nested_groups
  ⟨hr, by decide, outputsAgree_of_rungs hr (by decide) _ _⟩

/-- Without the condition on what is in front of joined expressions, power and scan do not agree in
the branches of a rung. -/
theorem output_joined_in_branch_unpowered :
    let rung := Listing.parse "LD X0\nMPS\nLD X1\nOUT Y0\nANB\nMPP"
    let s : State := { bits := (∅ : Table Bool).insert "X1" true }
    IsRung rung ∧ WritesOnce rung ∧
      ∃ live after c, rung.layout.power s.bit = .ok live ∧ rung.scan s 0 = .ok after ∧
        rung.layout.cell? 4 1 = some c ∧ c.source = some 3 ∧ ⟨4, 1, .inlet⟩ ∉ live ∧
        after.bit "Y0" = true := by
  let p : Program := Listing.parse "LD X0\nMPS\nLD X1\nOUT Y0\nANB\nMPP"
  have hfirst : IsTail ((p.drop 2).take 3) :=
    @IsTail.join [] ((p.drop 2).take 2) _ .nil (by decide) rfl
  have htail : IsTail (p.drop 1) :=
    @IsTail.group [] _ [] [] _ _ .nil rfl hfirst (by decide) (fun _ h => nomatch h) rfl .nil
  exact ⟨⟨p.take 1, p.drop 1, by decide, by decide, htail⟩, by decide, _, _, _, rfl, rfl, rfl, rfl,
    by decide, by decide⟩

end Program
end LadderLogic
