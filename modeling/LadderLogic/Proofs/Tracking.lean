import LadderLogic.Proofs.BlockSteps
import LadderLogic.Proofs.Outline
import LadderLogic.Scan

/-!
# A scan tracked on the sheet

While a program is drawn and run side by side, the blocks of the sheet carry the truths on the logic
stack: the block that is drawn carries the top, and each block that waits the truth below it
(`Live`). The power that comes in at a coil or a push is the truth that was on top of the stack there,
as far as the blocks in front of it in joins in series carry power (`Taps`). One lemma for each
operation says that this stays so; the branch stack holds the truths at the open pushes.

The two stacks part where a branch is read: the drawing goes on from the anchor in the place of the
block, while the stack gets one more truth. From then on nothing is known of the blocks that wait.

Source: `layout` and `step` (sections 4.1 and 4.2 of the specification).
-/

namespace LadderLogic

namespace Sheet

open Grid

variable {rows rows' : List Row} {bits : Text → Bool} {T : Nat → Bool} {b : Block}
  {bs : List Block} {f : Frame} {fs : List Frame} {bottom : Nat} {v : Bool} {logic : List Bool}
  {i : Instruction} {n : Nat}

/-! ## Blocks and the logic stack -/

/-- The blocks of a sheet fit and carry the truths of a stack, down to one into which a branch was
read. `T` gives the truth on top of the stack before each instruction. -/
def Live (rows : List Row) (bits : Text → Bool) (T : Nat → Bool) :
    List Frame → List Block → Nat → List Bool → Prop
  | f :: fs, b :: bs, bottom, v :: logic =>
    Fits rows b bottom f.read ∧ (Carries rows bits b ↔ v = true) ∧
      (f.read = false → fs ≠ [] →
        logic.head? = some (T f.start) ∧ Live rows bits T fs bs b.top logic)
  | _, _, _, _ => False

/-- What a block carries hangs on its own rows only. -/
theorem Fits.carries_congr {read : Bool} (hf : Fits rows b bottom read) (hw : Wired (cellAt rows))
    (hcut : ∀ x, (cellAt rows x bottom).up = false)
    (h : ∀ y < bottom, rowAt rows' y = rowAt rows y) :
    Carries rows' bits b ↔ Carries rows bits b := by
  have hag : Agree bits (fun _ y => y < bottom) (cellAt rows) (cellAt rows') := by
    refine agree_lt (fun x => .of_up hw (hcut x)) fun x y hy => ?_
    rw [cellAt, h y hy, cellAt]
    exact ⟨rfl, rfl, rfl⟩
  constructor
  · rintro ⟨r, hr, ho⟩
    rw [h r (hf.lt_bottom r hr)] at ho
    exact ⟨r, hr, (hag.outlet (hf.lt_bottom r hr)).1 ho⟩
  · rintro ⟨r, hr, ho⟩
    refine ⟨r, hr, ?_⟩
    rw [h r (hf.lt_bottom r hr)]
    exact (hag.outlet (hf.lt_bottom r hr)).2 ho

/-- Blocks above a row are not touched by what changes from that row down. -/
theorem Live.congr (hl : Live rows bits T fs bs bottom logic) (hw : Wired (cellAt rows))
    (hcut : ∀ x, (cellAt rows x bottom).up = false)
    (h : ∀ y < bottom, rowAt rows' y = rowAt rows y) : Live rows' bits T fs bs bottom logic := by
  induction fs generalizing bs bottom logic with
  | nil => cases hl
  | cons f fs ih =>
    match bs, logic, hl with
    | b :: bs, v :: logic, ⟨hfit, hv, hrest⟩ =>
      refine ⟨hfit.congr h, (hfit.carries_congr hw hcut h).trans hv, fun hread hne => ?_⟩
      obtain ⟨hT, htail⟩ := hrest hread hne
      have htop := Nat.lt_of_le_of_lt hfit.top_le hfit.out_lt
      exact ⟨hT, ih htail (hfit.top_clear hread) fun y hy => h y (by omega)⟩

theorem up_length (rows : List Row) (x : Nat) : (cellAt rows x rows.length).up = false := by
  rw [cellAt_of_height_le (Nat.le_refl _)]

/-- The last block is replaced by one with the same top, the others stay. -/
theorem Live.replace {b' : Block} {bottom' : Nat} {v' : Bool}
    (hl : Live rows bits T (f :: fs) (b :: bs) bottom (v :: logic)) (hw : Wired (cellAt rows))
    (htop : b'.top = b.top) (h : ∀ y < b.top, rowAt rows' y = rowAt rows y)
    (hfit : Fits rows' b' bottom' f.read) (hv : Carries rows' bits b' ↔ v' = true) :
    Live rows' bits T (f :: fs) (b' :: bs) bottom' (v' :: logic) := by
  refine ⟨hfit, hv, fun hread hne => ?_⟩
  obtain ⟨hT, htail⟩ := hl.2.2 hread hne
  rw [htop]
  exact ⟨hT, htail.congr hw (hl.1.top_clear hread) h⟩

theorem Live.start (hl : Live rows bits T fs bs rows.length logic) (hw : Wired (cellAt rows))
    (hT : logic.head? = some (T n)) :
    Live (openRow rows i n) bits T ({ start := n } :: fs)
      ({ width := 1, out := rows.length, top := rows.length } :: bs) (rows.length + 1)
      (Cell.conducts bits { instruction := some i } :: logic) :=
  ⟨fits_openRow rows i n, carries_openRow hw, fun _ _ => ⟨hT, hl.congr hw (up_length rows)
    fun _ hy => rowAt_openRow_of_ne (Nat.ne_of_lt hy)⟩⟩

theorem Live.parallel (hl : Live rows bits T (f :: fs) (b :: bs) rows.length (v :: logic))
    (hw : Wired (cellAt rows)) :
    Live (openRow rows i n) bits T (f :: fs)
      ({ b with pending := b.pending ++ [rows.length] } :: bs) (rows.length + 1)
      ((v || Cell.conducts bits { instruction := some i }) :: logic) := by
  have hlt := Nat.lt_of_le_of_lt hl.1.top_le hl.1.out_lt
  refine hl.replace hw rfl (fun y hy => rowAt_openRow_of_ne (by omega)) (fits_parallel hl.1 i n) ?_
  rw [carries_parallel hw hl.1, hl.2.1, Bool.or_eq_true]

theorem Live.series (hl : Live rows bits T (f :: fs) (b :: bs) rows.length (v :: logic))
    (hw : Wired (cellAt rows)) {tied : List Row} (ht : Tied rows tied bits b rows.length) :
    Live (putWired tied b.width b.out i n) bits T (f :: fs)
      ({ b with width := b.width + 1, pending := [] } :: bs) rows.length
      ((v && Cell.conducts bits { instruction := some i }) :: logic) := by
  have htop := hl.1.top_le
  refine hl.replace hw rfl (fun y hy => rowAt_series_of_lt hl.1 ht (by omega))
    (fits_series hl.1 ht) ?_
  rw [carries_series hl.1 ht, hl.2.1, Bool.and_eq_true]

/-- The form of the last two blocks, if no branch was read into the last one. -/
theorem Live.second {a : Block} {g : Frame} {u : Bool}
    (hl : Live rows bits T (f :: g :: fs) (b :: a :: bs) bottom (v :: u :: logic))
    (hread : f.read = false) :
    u = T f.start ∧ Live rows bits T (g :: fs) (a :: bs) b.top (u :: logic) := by
  obtain ⟨hT, htail⟩ := hl.2.2 hread (List.cons_ne_nil g fs)
  exact ⟨Option.some.inj hT, htail⟩

theorem Live.joinParallel {a : Block} {g : Frame} {u : Bool}
    (hl : Live rows bits T (f :: g :: fs) (b :: a :: bs) rows.length (v :: u :: logic))
    (hread : f.read = false) (hw : Wired (cellAt rows)) :
    Live (wireRowsTo rows (a.rows ++ b.rows) (max a.width b.width)) bits T (g :: fs)
      ({ width := max a.width b.width, out := a.out, pending := a.pending ++ b.rows, top := a.top } ::
        bs) rows.length ((v || u) :: logic) := by
  obtain ⟨-, hl'⟩ := hl.second hread
  have hb : Fits rows b rows.length false := hread ▸ hl.1
  have hA := Nat.le_max_left a.width b.width
  have hB := Nat.le_max_right a.width b.width
  have htop := hl'.1.top_le
  have hout := hl'.1.out_lt
  refine hl'.replace hw rfl (fun y hy => rowAt_wireRowsTo_of_notMem (fun h => ?_) _)
    (fits_joinParallel hl'.1 hb hA hB) ?_
  · rcases List.mem_append.1 h with h | h
    · have := hl'.1.out_le h
      omega
    · have := hb.out_le h
      have := hb.top_le
      omega
  · rw [carries_joinParallel hl'.1 hb hw hA hB, hl.2.1, hl'.2.1, Bool.or_eq_true, or_comm]

theorem Live.joinSeries {a : Block} {g : Frame} {u : Bool}
    (hl : Live rows bits T (f :: g :: fs) (b :: a :: bs) rows.length (v :: u :: logic))
    (hread : f.read = false) (hw : Wired (cellAt rows)) {tied : List Row}
    (ht : Tied rows tied bits a b.top) :
    Live (seriesRows tied a b.top) bits T (g :: fs)
      ({ width := a.width + 1 + b.width, out := b.out, pending := b.pending, top := a.top } :: bs)
      rows.length ((v && u) :: logic) := by
  obtain ⟨-, hl'⟩ := hl.second hread
  have hb : Fits rows b rows.length false := hread ▸ hl.1
  have htop := hl'.1.top_le
  refine hl'.replace hw rfl (fun y hy => ?_) (fits_joinSeries hl'.1 hb ht) ?_
  · rw [rowAt_seriesRows_of_lt (joins_tied hl'.1 hb ht) (by omega), ht.above y (by omega)]
  · rw [carries_joinSeries hl'.1 hb ht hw, hl.2.1, hl'.2.1, Bool.and_eq_true, and_comm]

/-- After a branch is read only the block at the end of the bus counts. -/
theorem Live.dropBranch (hl : Live rows bits T (f :: fs) (b :: bs) rows.length (v :: logic))
    {x y : Nat} (hi : i.isDrop = true) {u : Bool}
    (hu : Outlet (cellAt (dropBus rows x y i n)) bits x rows.length ↔ u = true) (stack : List Bool) :
    Live (dropBus rows x y i n) bits T ({ f with read := true } :: fs)
      ({ b with width := x + 1, out := rows.length, pending := [] } :: bs) (rows.length + 1)
      (u :: stack) := by
  have hle := Nat.le_trans hl.1.top_le (Nat.le_of_lt hl.1.out_lt)
  exact ⟨fits_dropBus b hle x y n hi, (carries_dropBus b x y i n).trans hu, fun h => nomatch h⟩

theorem Live.exists_cons (hl : Live rows bits T fs (b :: bs) bottom logic) :
    ∃ f fs' v logic', fs = f :: fs' ∧ logic = v :: logic' := by
  match fs, logic, hl with
  | f :: fs, v :: logic, _ => exact ⟨f, fs, v, logic, rfl, rfl⟩

/-! ## Coils and pushes -/

/-- A cell holds the coil or the push at an index. -/
def IsTap (m : Marking) (x y n : Nat) : Prop :=
  ∃ i, m x y = (some i, some n) ∧
    (i.operation = .known (.coil .out) ∨ i.operation = .known (.branch .push))

/-- The blocks in front of the instruction at an index, in the joins in series so far, carry power. -/
def Passes (T : Nat → Bool) (gates : List (Nat × Nat)) (n : Nat) : Prop :=
  ∀ g ∈ gates, g.1 ≤ n → n < g.2 → T g.1 = true

/-- Power comes in at coils and pushes where the truth on top of the stack was true, and the blocks in
front carry it there. -/
def Taps (rows : List Row) (bits : Text → Bool) (T : Nat → Bool) (gates : List (Nat × Nat)) : Prop :=
  ∀ x y n, IsTap (marks rows) x y n →
    0 < x ∧ (Inlet (cellAt rows) bits x y ↔ T n = true ∧ Passes T gates n)

variable {gates : List (Nat × Nat)}

theorem IsTap.drawn {x y : Nat} (h : IsTap (marks rows) x y n) :
    (cellAt rows x y).isEmpty = false := by
  obtain ⟨i, hm, -⟩ := h
  refine isEmpty_eq_false.2 (.inl fun hn => ?_)
  rw [marks, hn] at hm
  cases hm

theorem IsTap.lt_length {x y : Nat} (h : IsTap (marks rows) x y n) :
    x < (rowAt rows y).length := by
  have hne := h.drawn
  refine Nat.lt_of_not_le fun hle => ?_
  rw [cellAt_of_length_le hle] at hne
  cases hne

/-- An instruction is put on the sheet, and power in what was drawn stays. -/
theorem Taps.put (h : Taps rows bits T gates) {x y : Nat}
    (hm : marks rows' = (marks rows).put x y i n)
    (hin : ∀ x' y', x' < (rowAt rows y').length →
      (Inlet (cellAt rows') bits x' y' ↔ Inlet (cellAt rows) bits x' y'))
    (hnew : i.operation = .known (.coil .out) ∨ i.operation = .known (.branch .push) →
      0 < x ∧ (Inlet (cellAt rows') bits x y ↔ T n = true ∧ Passes T gates n)) :
    Taps rows' bits T gates := by
  rintro x' y' k ⟨j, hj, ho⟩
  rw [hm, Marking.put] at hj
  split at hj
  · next he =>
    obtain ⟨rfl, rfl⟩ : i = j ∧ n = k := by simpa using hj
    rw [he.1, he.2]
    exact hnew ho
  · have ht : IsTap (marks rows) x' y' k := ⟨j, hj, ho⟩
    rw [hin x' y' ht.lt_length]
    exact h x' y' k ht

theorem Taps.openRow (h : Taps rows bits T gates) (hw : Wired (cellAt rows))
    {position : Position} {test : Test} (hi : i.operation = .known (.contact position test)) :
    Taps (openRow rows i n) bits T gates := by
  refine h.put (marks_put_append rows 0 i n) (fun x y hx => ?_) fun ho => ?_
  · have hy : y ≠ rows.length := fun he => by
      rw [he, rowAt_of_length_le (Nat.le_refl _)] at hx
      exact Nat.not_lt_zero x hx
    exact (agree_openRow hw bits).inlet fun he => hy he.1
  · rw [hi] at ho
    rcases ho with ho | ho <;> cases ho

/-- An element gets the truth on top of the stack, which the block carries. -/
theorem Taps.series (h : Taps rows bits T gates)
    (hl : Live rows bits T (f :: fs) (b :: bs) rows.length (v :: logic))
    {tied : List Row} (ht : Tied rows tied bits b rows.length)
    (hm : marks (putWired tied b.width b.out i n) = (marks rows).put b.width b.out i n)
    (hT : v = T n) (hg : ∀ g ∈ gates, g.2 < n) :
    Taps (putWired tied b.width b.out i n) bits T gates := by
  refine h.put hm (fun x y hx => inlet_series hl.1 ht hx) fun _ => ⟨hl.1.width_pos, ?_⟩
  rw [inlet_series_end hl.1 ht, hl.2.1, hT]
  refine (and_iff_left fun g hmem _ hlt => ?_).symm
  have := hg g hmem
  omega

theorem Taps.joinParallel (h : Taps rows bits T gates) (hw : Wired (cellAt rows)) (ys : List Nat)
    (column : Nat) : Taps (wireRowsTo rows ys column) bits T gates := by
  intro x y n ht
  rw [marks_wireRowsTo] at ht
  rw [(agree_wireRowsTo hw bits ys column).inlet (.inr ht.lt_length)]
  exact h x y n ht

/-- A join in series gates what is drawn from the top of the last block down, and that is what comes
in the program from its beginning on. -/
theorem Taps.joinSeries {a : Block} {g : Frame} {u : Bool} (h : Taps rows bits T gates)
    (hl : Live rows bits T (f :: g :: fs) (b :: a :: bs) rows.length (v :: u :: logic))
    (hread : f.read = false) (hw : Wired (cellAt rows)) {tied : List Row}
    (ht : Tied rows tied bits a b.top)
    (hm : marks (seriesRows tied a b.top) = (marks rows).shift b.top (a.width + 1))
    (hc : Covers (marks rows) n f b) (hn : ∀ x y k, (marks rows x y).2 = some k → k < n) :
    Taps (seriesRows tied a b.top) bits T ((f.start, n) :: gates) := by
  obtain ⟨hT, hl'⟩ := hl.second hread
  have hb : Fits rows b rows.length false := hread ▸ hl.1
  rintro x y k ⟨j, hj, ho⟩
  rw [hm, Marking.shift] at hj
  split at hj
  · next hy =>
    split at hj
    · cases hj
    · obtain ⟨x, rfl⟩ : ∃ x', x = x' + (a.width + 1) := ⟨x - (a.width + 1), by omega⟩
      rw [Nat.add_sub_cancel] at hj
      have htap : IsTap (marks rows) x y k := ⟨j, hj, ho⟩
      have hk : (marks rows x y).2 = some k := by rw [hj]
      have hstart := (hc.2 x y k hk).2 hy
      have hlt := hn x y k hk
      obtain ⟨hpos, hi⟩ := h x y k htap
      refine ⟨by omega, ?_⟩
      rw [inlet_joinSeries_behind hl'.1 hb ht hw hy htap.drawn, hi, hl'.2.1, hT]
      constructor
      · rintro ⟨hfront, hTk, hpass⟩
        refine ⟨hTk, fun gate hgate => ?_⟩
        rcases List.mem_cons.1 hgate with rfl | hgate
        · exact fun _ _ => hfront
        · exact hpass gate hgate
      · rintro ⟨hTk, hpass⟩
        exact ⟨hpass _ List.mem_cons_self hstart hlt, hTk, fun gate hgate =>
          hpass gate (List.mem_cons_of_mem _ hgate)⟩
  · next hy =>
    have htap : IsTap (marks rows) x y k := ⟨j, hj, ho⟩
    have hk : (marks rows x y).2 = some k := by rw [hj]
    have hstart : ¬f.start ≤ k := fun hle => hy ((hc.2 x y k hk).1 hle)
    obtain ⟨hpos, hi⟩ := h x y k htap
    refine ⟨hpos, ?_⟩
    rw [inlet_joinSeries_above hl'.1 hb ht (by omega) htap.drawn, hi]
    refine and_congr_right fun _ => ⟨fun hpass gate hgate => ?_, fun hpass gate hgate =>
      hpass gate (List.mem_cons_of_mem _ hgate)⟩
    rcases List.mem_cons.1 hgate with rfl | hgate
    · exact fun hle => absurd hle hstart
    · exact hpass gate hgate

end Sheet
end LadderLogic
