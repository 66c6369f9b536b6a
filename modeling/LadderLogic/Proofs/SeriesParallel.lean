import LadderLogic.Listing
import LadderLogic.Proofs.Agreement

/-!
# Series-parallel programs

An expression of contacts, output coils and joins is drawn as one new block below everything else
(`Extends`): what was drawn before stays as it is, and no branch is read into the block. So every
instruction of it is admitted (`IsExpression.extends`), and the diagram of a sequence of expressions
agrees with the scan.

Source: `layout`, `energize` and `step` (section 4 of the specification).
-/

namespace LadderLogic

namespace Sheet

/-- No branch is read on the rows from `top` down. -/
def FreeFrom (m : Marking) (top : Nat) : Prop :=
  ∀ x y i, top ≤ y → (m x y).1 = some i → i.isDrop = false

variable {m : Marking} {rows : List Row} {top : Nat} {i : Instruction}

theorem FreeFrom.put (h : FreeFrom m top) (hi : i.isDrop = false)
    (x y n : Nat) : FreeFrom (m.put x y i n) top := by
  intro x' y' j hy hj
  rw [Marking.put] at hj
  split at hj
  · obtain rfl := Option.some.inj hj
    exact hi
  · exact h x' y' j hy hj

theorem FreeFrom.shift (h : FreeFrom m top) (from' offset : Nat) :
    FreeFrom (m.shift from' offset) top := by
  intro x y j hy hj
  rw [Marking.shift] at hj
  split at hj
  · split at hj
    · cases hj
    · exact h _ y j hy hj
  · exact h x y j hy hj

theorem FreeFrom.isDrop_eq (h : FreeFrom (marks rows) top) {x y : Nat} (hy : top ≤ y) :
    (cellAt rows x y).isDrop = false := by
  cases hc : (cellAt rows x y).instruction with
  | none => rw [Cell.isDrop, hc]
  | some j =>
    have := h x y j hy hc
    rw [Cell.isDrop, hc]
    exact this

end Sheet

namespace Program

open Sheet

/-- Series-parallel expressions: a contact at the start; an expression and a contact in series or in
parallel, or an output coil; two expressions and a join. -/
inductive IsExpression : Program → Prop
  | start {i : Instruction} {test : Test} (hi : i.operation = .known (.contact .start test))
      (ht : test ≠ .equal) : IsExpression [i]
  | contact {e : Program} {i : Instruction} {position : Position} {test : Test}
      (he : IsExpression e) (hi : i.operation = .known (.contact position test))
      (hp : position ≠ .start) (ht : test ≠ .equal) : IsExpression (e ++ [i])
  | out {e : Program} {i : Instruction} (he : IsExpression e)
      (hi : i.operation = .known (.coil .out)) : IsExpression (e ++ [i])
  | join {e e' : Program} {i : Instruction} {j : Join} (he : IsExpression e)
      (he' : IsExpression e') (hi : i.operation = .known (.block j)) : IsExpression (e ++ e' ++ [i])

/-! ## Reading expressions -/

/-- Reads one more instruction behind some expressions, the last one first. -/
def reduce (es : List Program) (i : Instruction) : Option (List Program) :=
  match i.operation, es with
  | .known (.contact position test), es =>
    if test = .equal then none
    else if position = .start then some ([i] :: es)
    else es.head?.map fun e => (e ++ [i]) :: es.tail
  | .known (.coil .out), e :: es => some ((e ++ [i]) :: es)
  | .known (.block _), e' :: e :: es => some ((e ++ e' ++ [i]) :: es)
  | _, _ => none

theorem isExpression_of_reduce {es es' : List Program} {i : Instruction}
    (h : reduce es i = some es') (hes : ∀ e ∈ es, IsExpression e) : ∀ e ∈ es', IsExpression e := by
  unfold reduce at h
  split at h
  · next position test hi =>
    split at h
    · cases h
    next ht =>
    split at h
    · next hp =>
      cases h
      exact List.forall_mem_cons.2 ⟨.start (hp ▸ hi) ht, hes⟩
    · next hp =>
      obtain ⟨e, he, rfl⟩ := Option.map_eq_some_iff.1 h
      have he := hes e (List.mem_of_mem_head? he)
      exact List.forall_mem_cons.2 ⟨.contact he hi hp ht, fun e he => hes e (List.mem_of_mem_tail he)⟩
  · next e es hi =>
    cases h
    have := List.forall_mem_cons.1 hes
    exact List.forall_mem_cons.2 ⟨.out this.1 hi, this.2⟩
  · next j e' e es hi =>
    cases h
    have hes' := List.forall_mem_cons.1 hes
    have hes := List.forall_mem_cons.1 hes'.2
    exact List.forall_mem_cons.2 ⟨.join hes.1 hes'.1 hi, hes.2⟩
  · cases h

theorem isExpression_of_foldlM {program : Program} {es es' : List Program}
    (h : program.foldlM reduce es = some es') (hes : ∀ e ∈ es, IsExpression e) :
    ∀ e ∈ es', IsExpression e := by
  induction program generalizing es with
  | nil =>
    cases h
    exact hes
  | cons i program ih =>
    obtain ⟨mid, hi, hrest⟩ := Option.bind_eq_some_iff.1 h
    exact ih hrest (isExpression_of_reduce hi hes)

/-- An expression is read as one, whatever stands before it. -/
theorem IsExpression.foldlM_eq {e : Program} (he : IsExpression e) (es : List Program) :
    e.foldlM reduce es = some (e :: es) := by
  induction he generalizing es with
  | start hi ht => simp [reduce, hi, ht]
  | contact _ hi hp ht ih => simp [ih, reduce, hi, hp, ht]
  | out _ hi ih => simp [ih, reduce, hi]
  | join _ _ hi ih ih' => simp [ih, ih', reduce, hi]

/-- **Expressions are recognised** by reading them from the front. -/
theorem isExpression_iff {e : Program} : IsExpression e ↔ e.foldlM reduce [] = some [e] :=
  ⟨fun he => he.foldlM_eq [], fun h => isExpression_of_foldlM h (fun _ hm => nomatch hm) e (by simp)⟩

instance (e : Program) : Decidable (IsExpression e) := decidable_of_iff _ isExpression_iff.symm

/-! ## Extending a program by a block -/

/-- The number of rows that a program takes. -/
def height (program : Program) : Nat := if program.isEmpty then 0 else (sheet program).rows.length

/-- The blocks that wait once a new block is begun. -/
def below (program : Program) : List Block :=
  if program.isEmpty then [] else (sheet program).block :: (sheet program).waiting

/-- A program that goes on from another one with one new block, into which no branch is read. -/
structure Extends (before program : Program) : Prop where
  begins : program.BeginsBlock
  admitted : program.Admitted
  rows : ∀ y < before.height, rowAt (sheet program).rows y = rowAt (sheet before).rows y
  top : (sheet program).block.top = before.height
  waiting : (sheet program).waiting = before.below
  anchors : (sheet program).anchors = (sheet before).anchors
  free : FreeFrom (marks (sheet program).rows) before.height
  frames : (outline program).frames = { start := before.length } :: (outline before).frames
  pushes : (outline program).pushes = (outline before).pushes
  gates : ∀ g ∈ (outline program).gates, g ∈ (outline before).gates ∨ before.length ≤ g.1

variable {before program : Program} {i : Instruction}

/-! ## What is known of the sheet of an admitted program -/

theorem exists_tracks (hb : program.BeginsBlock) (hadm : program.Admitted)
    (hw : program.WritesOnce) :
    ∃ bits T t, Tracks bits T (sheet program) (outline program) t := by
  obtain ⟨t, ht⟩ := exists_follows hb hadm hw {} 0
  exact ⟨_, _, t, ht.tracks _ fun _ _ => rfl⟩

theorem Extends.exists_live (h : Extends before program) (hw : program.WritesOnce) :
    ∃ bits T v logic, Grid.Wired (cellAt (sheet program).rows) ∧
      Live (sheet program).rows bits T ({ start := before.length } :: (outline before).frames)
        ((sheet program).block :: before.below) (sheet program).rows.length (v :: logic) := by
  obtain ⟨bits, T, t, ht⟩ := exists_tracks h.begins h.admitted hw
  have hl := ht.live
  rw [h.frames, h.waiting, ht.logic_eq] at hl
  exact ⟨bits, T, _, _, ht.wired, hl⟩

/-- The rows of the new block lie below everything before it. -/
theorem Extends.fits (h : Extends before program) (hw : program.WritesOnce) :
    Fits (sheet program).rows (sheet program).block (sheet program).rows.length false := by
  obtain ⟨bits, T, v, logic, -, hl⟩ := h.exists_live hw
  exact hl.1

theorem Extends.height_le (h : Extends before program) (hw : program.WritesOnce) {r : Nat}
    (hr : r ∈ (sheet program).block.rows) : before.height ≤ r := by
  have hf := h.fits hw
  rw [← h.top]
  exact Nat.le_trans hf.top_le (hf.out_le hr)

theorem Extends.tiesFree (h : Extends before program) (hw : program.WritesOnce) :
    TiesFree (sheet program).rows (sheet program).block := fun _ _ hr =>
  h.free.isDrop_eq (h.height_le hw hr)

/-! ## One instruction -/

theorem isDrop_contact {position : Position} {test : Test}
    (hi : i.operation = .known (.contact position test)) :
    i.isDrop = false := by
  simp [Instruction.isDrop, hi]

theorem isDrop_out (hi : i.operation = .known (.coil .out)) :
    i.isDrop = false := by
  simp [Instruction.isDrop, hi]

theorem BeginsBlock.append (h : program.BeginsBlock) (rest : Program) :
    BeginsBlock (program ++ rest) := by
  obtain ⟨i, test, tail, rfl, hi⟩ := h
  exact ⟨i, test, tail ++ rest, rfl, hi⟩

theorem BeginsBlock.isEmpty_eq (h : program.BeginsBlock) : program.isEmpty = false := by
  obtain ⟨i, test, rest, rfl, -⟩ := h
  rfl

theorem height_eq (h : program.BeginsBlock) : program.height = (sheet program).rows.length := by
  rw [height, h.isEmpty_eq]
  rfl

theorem below_eq (h : program.BeginsBlock) :
    program.below = (sheet program).block :: (sheet program).waiting := by
  rw [below, h.isEmpty_eq]
  rfl

theorem extends_singleton {test : Test} (hi : i.operation = .known (.contact .start test))
    (hadm : Admitted [i]) : Extends [] [i] := by
  have hm : marks (put [[]] 0 0 i 0) = (marks []).put 0 0 i 0 := marks_put_append [] 0 i 0
  have hfree : FreeFrom (marks []) 0 := fun _ _ _ _ h => nomatch h
  have hs := sheet_singleton hi
  have ho := outline_singleton hi
  exact {
    begins := ⟨i, test, [], rfl, hi⟩
    admitted := hadm
    rows := fun y hy => absurd hy (Nat.not_lt_zero y)
    top := by rw [hs]; rfl
    waiting := by rw [hs]; rfl
    anchors := by rw [hs]; rfl
    free := by rw [hs, hm]; exact hfree.put (isDrop_contact hi) 0 0 0
    frames := by rw [ho]; rfl
    pushes := by rw [ho]; rfl
    gates := by rw [ho]; exact fun g hg => nomatch hg }

theorem extends_start (hb : before.BeginsBlock) {test : Test}
    (hi : i.operation = .known (.contact .start test)) (hadm : Admitted (before ++ [i])) :
    Extends before (before ++ [i]) := by
  have hs : sheet (before ++ [i]) = (sheet before).start i before.length := by
    rw [sheet_append, Sheet.draw, hi]
  have ho : outline (before ++ [i]) =
      { outline before with
        frames := { start := before.length } :: (outline before).frames } := by
    rw [outline_append, Outline.step, hi]
  rw [Sheet.start, isBare_sheet hb, if_neg Bool.false_ne_true] at hs
  have hm := marks_put_append (sheet before).rows 0 i before.length
  have hfree : FreeFrom (marks (sheet before).rows) (sheet before).rows.length :=
    fun x y j hy hj => by
      rw [marks_of_height_le x hy] at hj
      cases hj
  exact {
    begins := hb.append [i]
    admitted := hadm
    rows := fun y hy => by
      rw [height_eq hb] at hy
      rw [hs]
      exact rowAt_openRow_of_ne (Nat.ne_of_lt hy)
    top := by rw [hs, height_eq hb]
    waiting := by rw [hs, below_eq hb]
    anchors := by rw [hs]
    free := by
      rw [hs, height_eq hb, hm]
      exact hfree.put (isDrop_contact hi) 0 _ _
    frames := by rw [ho]
    pushes := by rw [ho]
    gates := by rw [ho]; exact fun g hg => .inl hg }

/-- An instruction that neither begins nor joins a block goes on with the last one. -/
theorem Extends.of_same (h : Extends before program) (hadm : Admitted (program ++ [i]))
    (ho : outline (program ++ [i]) = outline program)
    (hrows : ∀ y < before.height,
      rowAt (sheet (program ++ [i])).rows y = rowAt (sheet program).rows y)
    (htop : (sheet (program ++ [i])).block.top = (sheet program).block.top)
    (hwaiting : (sheet (program ++ [i])).waiting = (sheet program).waiting)
    (hanchors : (sheet (program ++ [i])).anchors = (sheet program).anchors)
    (hfree : FreeFrom (marks (sheet (program ++ [i])).rows) before.height) :
    Extends before (program ++ [i]) where
  begins := h.begins.append [i]
  admitted := hadm
  rows := fun y hy => (hrows y hy).trans (h.rows y hy)
  top := htop.trans h.top
  waiting := hwaiting.trans h.waiting
  anchors := hanchors.trans h.anchors
  free := hfree
  frames := ho ▸ h.frames
  pushes := ho ▸ h.pushes
  gates := ho ▸ h.gates

theorem Extends.parallel (h : Extends before program) (hw : program.WritesOnce) {test : Test}
    (hi : i.operation = .known (.contact .parallel test)) (ht : test ≠ .equal) :
    Extends before (program ++ [i]) := by
  have hf := h.fits hw
  have hs : sheet (program ++ [i]) = (sheet program).parallel i program.length := by
    rw [sheet_append, Sheet.draw, hi]
  have hadm : Admitted (program ++ [i]) := admitted_append.2 ⟨h.admitted, by
    simp only [admits, hi, decide_eq_true_eq]
    exact ht⟩
  have htop : before.height < (sheet program).rows.length := by
    rw [← h.top]
    exact Nat.lt_of_le_of_lt hf.top_le hf.out_lt
  refine h.of_same hadm (by rw [outline_append, Outline.step, hi]) (fun y hy => ?_) (by rw [hs]; rfl)
    (by rw [hs]; rfl) (by rw [hs]; rfl) ?_
  · rw [hs]
    exact rowAt_openRow_of_ne (by omega)
  · have hm := marks_put_append (sheet program).rows 0 i program.length
    rw [hs, Sheet.parallel, hm]
    exact h.free.put (isDrop_contact hi) 0 _ _

/-- A contact or an output coil in series. -/
theorem Extends.series (h : Extends before program) (hw : program.WritesOnce)
    (hs : sheet (program ++ [i]) = (sheet program).series i program.length)
    (ho : outline (program ++ [i]) = outline program)
    (hdrop : i.isDrop = false)
    (hadm : Admitted (program ++ [i])) : Extends before (program ++ [i]) := by
  obtain ⟨bits, T, v, logic, hwired, hl⟩ := h.exists_live hw
  have ht := tied_tiePending hwired hl.1 (Nat.le_refl _) (h.tiesFree hw) bits
  have htop := h.top
  have hle := hl.1.top_le
  refine h.of_same hadm ho (fun y hy => ?_) (by rw [hs]; rfl) (by rw [hs]; rfl) (by rw [hs]; rfl) ?_
  · rw [hs]
    exact rowAt_series_of_lt hl.1 ht (by omega)
  · rw [hs, marks_series i program.length hl.1.out_lt]
    exact h.free.put hdrop _ _ _

/-! ## Joins -/

variable {program' : Program}

/-- Both blocks before a join are free of branches. -/
theorem Extends.free_second (h : Extends before program) (h' : Extends program program') :
    FreeFrom (marks (sheet program').rows) before.height := by
  intro x y j hy hj
  rcases Nat.lt_or_ge y program.height with hlt | hge
  · refine h.free x y j hy ?_
    rw [marks, cellAt, ← h'.rows y hlt]
    exact hj
  · exact h'.free x y j hge hj

/-- A join in series of a new block leaves the anchors alone: they stand above what moves. -/
theorem Extends.anchors_joinSeries (h' : Extends program program') (hb : program.BeginsBlock) :
    (sheet program').joinSeries.anchors = (sheet program').anchors := by
  rw [Sheet.joinSeries, h'.waiting, below_eq hb]
  refine (List.map_congr_left fun anchor ha => ?_).trans (List.map_id _)
  rw [h'.anchors] at ha
  have hlt := (aligned_sheet hb).anchor_lt ha
  have hle : ¬(sheet program').block.top ≤ anchor.2 := by
    rw [h'.top, height_eq hb]
    omega
  exact if_neg hle

/-- The block in front of a new one, and the new one. -/
theorem Extends.exists_live_front (h' : Extends program program') (hb : program.BeginsBlock)
    (hw : program'.WritesOnce) :
    ∃ bits T f fs v u rest, Grid.Wired (cellAt (sheet program').rows) ∧
      (outline program).frames = f :: fs ∧
      Live (sheet program').rows bits T ({ start := program.length } :: f :: fs)
        ((sheet program').block :: (sheet program).block :: (sheet program).waiting)
        (sheet program').rows.length (v :: u :: rest) := by
  obtain ⟨bits, T, v, logic, hwired, hl⟩ := h'.exists_live hw
  obtain ⟨f, fs, -, -, hf⟩ := List.forall₂_cons_right_iff.1 (aligned_sheet hb).frames
  rw [below_eq hb, hf] at hl
  obtain ⟨-, htail⟩ := hl.2.2 rfl (List.cons_ne_nil f fs)
  obtain ⟨-, -, u, rest, -, rfl⟩ := htail.exists_cons
  exact ⟨bits, T, f, fs, v, u, rest, hwired, hf, hl⟩

section Join

variable (h : Extends before program) (h' : Extends program program')
  (hw : program'.WritesOnce)

include h h' hw

/-- The two blocks before a join. -/
theorem Extends.exists_live_second :
    ∃ bits T v u rest, Grid.Wired (cellAt (sheet program').rows) ∧
      Live (sheet program').rows bits T
        ({ start := program.length } :: { start := before.length } :: (outline before).frames)
        ((sheet program').block :: (sheet program).block :: before.below)
        (sheet program').rows.length (v :: u :: rest) := by
  obtain ⟨bits, T, f, fs, v, u, rest, hwired, hf, hl⟩ := h'.exists_live_front h.begins hw
  rw [← hf, h.frames, h.waiting] at hl
  exact ⟨bits, T, v, u, rest, hwired, hl⟩

theorem Extends.fits_second :
    Fits (sheet program').rows (sheet program).block (sheet program').block.top false := by
  obtain ⟨bits, T, v, u, rest, -, hl⟩ := h.exists_live_second h' hw
  exact (hl.second rfl).2.1

theorem Extends.height_le_second : before.height ≤ program.height := by
  have hf := h.fits_second h' hw
  rw [← h'.top, ← h.top]
  exact Nat.le_of_lt (Nat.lt_of_le_of_lt hf.top_le hf.out_lt)

theorem Extends.rows_second (y : Nat) (hy : y < before.height) :
    rowAt (sheet program').rows y = rowAt (sheet before).rows y := by
  have hle := h.height_le_second h' hw
  rw [h'.rows y (by omega), h.rows y hy]

theorem Extends.tiesFree_second : TiesFree (sheet program').rows (sheet program).block :=
  fun _ r hr => by
    have hf := h.fits_second h' hw
    refine (h.free_second h').isDrop_eq ?_
    rw [← h.top]
    exact Nat.le_trans hf.top_le (hf.out_le hr)

/-- A join is admitted behind two blocks that are free of branches. -/
theorem Extends.admitted_join {j : Join} (hi : i.operation = .known (.block j)) :
    Admitted (program' ++ [i]) := by
  refine admitted_append.2 ⟨h'.admitted, (admits_join hi).2 ?_⟩
  exact ⟨_, _, _, _, _, h'.frames.trans (congrArg _ h.frames), h'.waiting.trans (below_eq h.begins),
    rfl, fun _ => h.tiesFree_second h' hw⟩

/-- The new block takes the place of the two blocks that are joined. -/
theorem Extends.of_join {j : Join} (hi : i.operation = .known (.block j))
    (hrows : ∀ y < before.height,
      rowAt (sheet (program' ++ [i])).rows y = rowAt (sheet program').rows y)
    (htop : (sheet (program' ++ [i])).block.top = (sheet program).block.top)
    (hwaiting : (sheet (program' ++ [i])).waiting = (sheet program).waiting)
    (hanchors : (sheet (program' ++ [i])).anchors = (sheet program').anchors)
    (hfree : FreeFrom (marks (sheet (program' ++ [i])).rows) before.height) :
    Extends before (program' ++ [i]) := by
  have ho : outline (program' ++ [i]) = (outline program').join j program'.length := by
    rw [outline_append, Outline.step, hi]
  rw [Outline.join, h'.frames, h.frames] at ho
  have hle : before.length ≤ program.length := by
    have := (aligned_sheet h.begins).frames
    rw [h.frames, List.forall₂_cons] at this
    exact Nat.le_of_lt this.1.1
  have hgates : ∀ g ∈ (outline program').gates, g ∈ (outline before).gates ∨ before.length ≤ g.1 :=
    fun g hg => by
      rcases h'.gates g hg with hg | hg
      · exact h.gates g hg
      · exact .inr (Nat.le_trans hle hg)
  exact {
    begins := h'.begins.append [i]
    admitted := h.admitted_join h' hw hi
    rows := fun y hy => (hrows y hy).trans (h.rows_second h' hw y hy)
    top := htop.trans h.top
    waiting := hwaiting.trans h.waiting
    anchors := hanchors.trans (h'.anchors.trans h.anchors)
    free := hfree
    frames := by rw [ho]
    pushes := by rw [ho]; exact h'.pushes.trans h.pushes
    gates := by
      rw [ho]
      intro g hg
      change g ∈ (if j = .series then _ else _) at hg
      split at hg
      · rcases List.mem_cons.1 hg with rfl | hg
        · exact .inr hle
        · exact hgates g hg
      · exact hgates g hg }

theorem Extends.joinParallel (hi : i.operation = .known (.block .parallel)) :
    Extends before (program' ++ [i]) := by
  have hf := h.fits_second h' hw
  have hf' := h'.fits hw
  have hs : sheet (program' ++ [i]) = (sheet program').joinParallel := by
    rw [sheet_append, Sheet.draw, hi]
  rw [Sheet.joinParallel, h'.waiting, below_eq h.begins] at hs
  refine h.of_join h' hw hi (fun y hy => ?_) (by rw [hs]) (by rw [hs]) (by rw [hs]) ?_
  · rw [hs]
    refine rowAt_wireRowsTo_of_notMem (fun hmem => ?_) _
    have htop := h.top
    rcases List.mem_append.1 hmem with hr | hr
    · have := hf.out_le hr
      have := hf.top_le
      omega
    · have := h'.height_le hw hr
      have := h.height_le_second h' hw
      omega
  · rw [hs, marks_wireRowsTo]
    exact h.free_second h'

theorem Extends.joinSeries (hi : i.operation = .known (.block .series)) :
    Extends before (program' ++ [i]) := by
  obtain ⟨bits, T, v, u, rest, hwired, hl⟩ := h.exists_live_second h' hw
  obtain ⟨-, hl'⟩ := hl.second rfl
  have hwaiting : (sheet program').waiting = (sheet program).block :: (sheet program).waiting :=
    h'.waiting.trans (below_eq h.begins)
  have hle := Nat.le_trans hl.1.top_le (Nat.le_of_lt hl.1.out_lt)
  have ht := tied_tiePending hwired hl'.1 hle (h.tiesFree_second h' hw) bits
  have hj := joins_tied hl'.1 hl.1 ht
  have hs : sheet (program' ++ [i]) = (sheet program').joinSeries := by
    rw [sheet_append, Sheet.draw, hi]
  have hrows : (sheet program').joinSeries.rows = seriesRows _ _ _ := rows_joinSeries hwaiting
  refine h.of_join h' hw hi (fun y hy => ?_) (by rw [hs, block_joinSeries hwaiting])
    (by rw [hs, waiting_joinSeries hwaiting]) ?_ ?_
  · have htop := h.top
    have hle' := hl'.1.top_le
    rw [hs, hrows, rowAt_seriesRows_of_lt hj (by omega)]
    exact ht.above y (by omega)
  · rw [hs, h'.anchors_joinSeries h.begins]
  · rw [hs, marks_joinSeries hwaiting (Nat.lt_of_lt_of_le hl'.1.out_lt hle)]
    exact (h.free_second h').shift _ _

end Join

/-! ## Expressions -/

theorem WritesOnce.of_append {rest : Program} (h : WritesOnce (program ++ rest)) :
    WritesOnce program := by
  induction rest using List.reverseRecOn with
  | nil =>
    rw [List.append_nil] at h
    exact h
  | append_singleton rest i ih =>
    rw [← List.append_assoc] at h
    exact ih (writesOnce_append h).1

/-- **An expression is drawn as one new block.** -/
theorem IsExpression.extends {e : Program} (he : IsExpression e)
    (hb : before = [] ∨ before.BeginsBlock) (hadm : before.Admitted)
    (hw : WritesOnce (before ++ e)) : Extends before (before ++ e) := by
  induction he generalizing before with
  | @start i test hi ht =>
    have hadm : Admitted (before ++ [i]) := admitted_append.2 ⟨hadm, by
      simp only [admits, hi, decide_eq_true_eq]
      exact ht⟩
    rcases hb with rfl | hb
    · exact extends_singleton hi hadm
    · exact extends_start hb hi hadm
  | @contact e i position test _ hi hp ht ih =>
    rw [← List.append_assoc] at hw ⊢
    have hw' := (writesOnce_append hw).1
    have h := ih hb hadm hw'
    cases position with
    | start => cases hp rfl
    | parallel => exact h.parallel hw' hi ht
    | series =>
      refine h.series hw' (by rw [sheet_append, Sheet.draw, hi])
        (by rw [outline_append, Outline.step, hi]) (isDrop_contact hi) (admitted_append.2
          ⟨h.admitted, ?_⟩)
      simp only [admits, hi, Bool.and_eq_true, decide_eq_true_eq]
      exact ⟨ht, h.tiesFree hw'⟩
  | @out e i _ hi ih =>
    rw [← List.append_assoc] at hw ⊢
    have hw' := (writesOnce_append hw).1
    have h := ih hb hadm hw'
    refine h.series hw' (by rw [sheet_append, Sheet.draw, hi])
      (by rw [outline_append, Outline.step, hi]) (isDrop_out hi) (admitted_append.2
        ⟨h.admitted, ?_⟩)
    simp only [admits, hi, decide_eq_true_eq]
    exact h.tiesFree hw'
  | @join e e' i j _ _ hi ih ih' =>
    rw [← List.append_assoc, ← List.append_assoc] at hw ⊢
    have hw' := (writesOnce_append hw).1
    have h := ih hb hadm hw'.of_append
    have h' := ih' (.inr h.begins) h.admitted hw'
    cases j with
    | parallel => exact h.joinParallel h' hw' hi
    | series => exact h.joinSeries h' hw' hi

/-- What one part after another keeps holds after all parts. -/
theorem flatten_induction {P : Program → Prop} {parts : List Program}
    (hw : WritesOnce parts.flatten) (hnil : P [])
    (hstep : ∀ before, ∀ part ∈ parts, P before → WritesOnce (before ++ part) →
      P (before ++ part)) : P parts.flatten := by
  induction parts using List.reverseRecOn with
  | nil => exact hnil
  | append_singleton parts part ih =>
    rw [List.flatten_append, List.flatten_singleton] at hw ⊢
    have hprev := ih hw.of_append fun before p hp => hstep before p (List.mem_append_left _ hp)
    exact hstep _ part (by simp) hprev hw

/-- **Diagram and scan agree on series-parallel programs.** Let a program be a sequence of
expressions that writes each bit once and reads none after it is written. Then power comes in at an
output coil exactly if the scan sets its bit and, for each join in series in whose second expression
the coil stands, the first expression is true. -/
theorem outputsAgree_of_expressions {expressions : List Program}
    (he : ∀ e ∈ expressions, IsExpression e) (hw : WritesOnce expressions.flatten) (s : State)
    (dt : Int) : OutputsAgree expressions.flatten s dt := by
  let P (program : Program) := (program = [] ∨ program.BeginsBlock) ∧ program.Admitted
  have hnil : P [] := ⟨.inl rfl, fun n hn => absurd hn (Nat.not_lt_zero n)⟩
  have h : P expressions.flatten := flatten_induction hw hnil fun before e hmem hb hw => by
    have hx := (he e hmem).extends hb.1 hb.2 hw
    exact ⟨.inr hx.begins, hx.admitted⟩
  exact outputsAgree_of_admitted h.1 h.2 hw s dt

/-- Two expressions, where the coil `Y0` stands in the second part of a join in series and the first
part is itself a join. -/
theorem outputsAgree_nested_joins :
    let expressions := [Listing.parse "LD X0\nLDI X1\nANI X2\nORB\nLD X3\nOR X4\nOUT Y0\nANB\nOUT Y1",
      Listing.parse "LD X5\nORI X0\nOUT Y2"]
    let s : State := { bits := (∅ : Table Bool).insert "X3" true }
    (∀ e ∈ expressions, IsExpression e) ∧ WritesOnce expressions.flatten ∧
      OutputsAgree expressions.flatten s 10 :=
  ⟨by decide, by decide, outputsAgree_of_expressions (by decide) (by decide) _ _⟩

/-- Without the condition on the first expressions, power and scan do not agree: the scan sets a bit
in the second expression of a join in series where no power comes in. -/
theorem output_in_second_expression_unpowered :
    let program := Listing.parse "LD X0\nLD X1\nOUT Y0\nANB"
    let s : State := { bits := (∅ : Table Bool).insert "X1" true }
    IsExpression program ∧ WritesOnce program ∧
      ∃ live after c, program.layout.power s.bit = .ok live ∧ program.scan s 0 = .ok after ∧
        program.layout.cell? 3 1 = some c ∧ c.source = some 2 ∧ ⟨3, 1, .inlet⟩ ∉ live ∧
        after.bit "Y0" = true :=
  ⟨by decide, by decide, _, _, _, rfl, rfl, rfl, rfl, by decide, by decide⟩

end Program
end LadderLogic
