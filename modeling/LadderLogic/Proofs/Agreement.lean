import LadderLogic.Proofs.Tracking

/-!
# Diagram and scan agree

A program is drawn and run at once, instruction by instruction (`Tracks`). As long as every
instruction is admitted, that is, as long as the drawing and the stacks of the scan do the same with
it, the blocks of the sheet carry the truths on the logic stack. So in the finished diagram power
comes in at an output coil exactly if the scan sets its bit and every block that stands in front of
the coil in a join in series carries power (`outputsAgree_of_admitted`).

Source: `layout`, `energize` and `step`, which take the same instructions (section 4 of the
specification).
-/

namespace LadderLogic

/-! ## Scans of contacts, joins, branches and output coils -/

namespace Scan

variable {t : Scan} {i : Instruction} {bits : Text → Bool}

/-- A scan after a contact that finds `v`. -/
def meet (t : Scan) (position : Position) (v : Bool) : Scan :=
  match position with
  | .start => t.push v
  | .series => t.drop.push (t.peek && v)
  | .parallel => t.drop.push (t.peek || v)

theorem contact_ok {ε : Type} (t : Scan) (position : Position) (v : Bool) :
    t.contact position (.ok v : Except ε Bool) = .ok (t.meet position v) := by
  cases position with
  | start => rfl
  | series =>
    simp only [contact, meet]
    cases t.peek <;> rfl
  | parallel =>
    simp only [contact, meet]
    cases t.peek <;> rfl

/-- A contact that finds its bit as it was drawn lets power through if its test holds. -/
theorem exec_contact {position : Position} {test : Test}
    (hi : i.operation = .known (.contact position test)) (htest : test ≠ .equal)
    (hbit : t.bit i.value = bits i.value) :
    t.exec i = .ok (t.meet position (Cell.conducts bits { instruction := some i })) := by
  have hfound : t.test i test = .ok (Cell.conducts bits { instruction := some i }) := by
    cases test with
    | on => simp only [Scan.test, Cell.conducts, hi, hbit]
    | off => simp only [Scan.test, Cell.conducts, hi, hbit]
    | equal => cases htest rfl
  simp only [exec, hi, hfound]
  exact contact_ok t position _

theorem exec_out (hi : i.operation = .known (.coil .out)) (hf : Family.ofName i.value = .bit) :
    t.exec i = .ok (t.setBit i.value t.peek) := by
  simp only [exec, hi, coil, out, hf]

theorem bit_setBit_self (t : Scan) (name : Text) (v : Bool) : (t.setBit name v).bit name = v := by
  rw [bit_eq, State.bit]
  exact Std.ExtTreeMap.getD_insert_self

theorem bit_setBit_of_ne (t : Scan) {name other : Text} (v : Bool) (h : other ≠ name) :
    (t.setBit name v).bit other = t.bit other := by
  have hother : (t.state.bits.insert name v).getD other false = t.state.bits.getD other false := by
    simp [Std.ExtTreeMap.getD_insert, h.symm]
  rw [bit_eq, bit_eq]
  exact hother

theorem bit_start (s : State) (dt : Int) (name : Text) : (start s dt).bit name = s.bit name :=
  bit_eq (start s dt) name

theorem run_append (t : Scan) (program : Program) (i : Instruction) :
    t.run (program ++ [i]) =
      match t.run program with
      | .ok u => u.exec i
      | .error fault => .error fault := by
  induction program generalizing t with
  | nil =>
    simp only [List.nil_append, run]
    cases t.exec i <;> rfl
  | cons j rest ih =>
    simp only [List.cons_append, run]
    cases t.exec j with
    | ok u => exact ih u
    | error fault => rfl

end Scan

namespace Sheet

open Grid

/-- A sheet on which the outline and the scan of the same instructions are found. -/
structure Tracks (bits : Text → Bool) (T : Nat → Bool) (s : Sheet) (o : Outline) (t : Scan) :
    Prop where
  wired : Wired (cellAt s.rows)
  fed : Fed s.rows
  live : Live s.rows bits T o.frames (s.block :: s.waiting) s.rows.length t.logic
  taps : Taps s.rows bits T o.gates
  branches : t.branches = o.pushes.map T

variable {bits : Text → Bool} {T : Nat → Bool} {s : Sheet} {o : Outline} {t t' : Scan}
  {i : Instruction} {n : Nat}

theorem Tracks.logic_eq (h : Tracks bits T s o t) : t.logic = t.peek :: t.logic.tail := by
  obtain ⟨f, fs, v, logic, -, hl⟩ := h.live.exists_cons
  rw [Scan.peek, hl]
  rfl

/-! ## One lemma for each operation -/

theorem Tracks.start (h : Tracks bits T s o t) (hbare : s.isBare = false) {test : Test}
    (hi : i.operation = .known (.contact .start test)) (hT : t.peek = T n) :
    Tracks bits T (s.start i n) { o with frames := { start := n } :: o.frames }
      (t.push (Cell.conducts bits { instruction := some i })) := by
  have hlive := h.live.start (i := i) (n := n) h.wired (by rw [h.logic_eq, hT]; rfl)
  simp only [Sheet.start, hbare]
  refine ⟨wired_openRow h.wired, fed_openRow h.fed, ?_, h.taps.openRow h.wired hi, h.branches⟩
  rw [← length_openRow s.rows i n] at hlive
  exact hlive

theorem Tracks.parallel (h : Tracks bits T s o t) {test : Test}
    (hi : i.operation = .known (.contact .parallel test)) :
    Tracks bits T (s.parallel i n) o
      (t.drop.push (t.peek || Cell.conducts bits { instruction := some i })) := by
  have hlive := h.live
  obtain ⟨f, fs, v, logic, hf, -⟩ := hlive.exists_cons
  rw [hf, h.logic_eq] at hlive
  have hlive := hlive.parallel (i := i) (n := n) h.wired
  rw [← length_openRow s.rows i n, ← hf] at hlive
  exact ⟨wired_openRow h.wired, fed_openRow h.fed, hlive, h.taps.openRow h.wired hi, h.branches⟩

theorem Tracks.tied (h : Tracks bits T s o t) (hfree : TiesFree s.rows s.block) :
    Tied s.rows (tiePending s.rows s.block) bits s.block s.rows.length := by
  have hlive := h.live
  obtain ⟨f, fs, v, logic, hf, -⟩ := hlive.exists_cons
  rw [hf, h.logic_eq] at hlive
  exact tied_tiePending h.wired hlive.1 (Nat.le_refl _) hfree bits

theorem Tracks.series (h : Tracks bits T s o t) (hfree : TiesFree s.rows s.block)
    (hT : t.peek = T n) (hg : ∀ g ∈ o.gates, g.2 < n)
    (hlogic : t'.logic =
      (t.peek && Cell.conducts bits { instruction := some i }) :: t.logic.tail)
    (hb : t'.branches = t.branches) : Tracks bits T (s.series i n) o t' := by
  have hlive := h.live
  obtain ⟨f, fs, v, logic, hf, -⟩ := hlive.exists_cons
  rw [hf, h.logic_eq] at hlive
  have ht := h.tied hfree
  have hlen : (s.series i n).rows.length = s.rows.length := by simp [Sheet.series]
  refine ⟨wired_series hlive.1 ht, fed_series hlive.1 ht h.fed, ?_, ?_, hb.trans h.branches⟩
  · rw [hlen, hlogic, hf]
    exact hlive.series h.wired ht
  · exact h.taps.series hlive ht (marks_series i n hlive.1.out_lt) hT hg

theorem Tracks.pushBranch (h : Tracks bits T s o t) (hfree : TiesFree s.rows s.block)
    (hi : i.operation = .known (.branch .push)) (hT : t.peek = T n)
    (hg : ∀ g ∈ o.gates, g.2 < n) :
    Tracks bits T (s.pushBranch i n) { o with pushes := n :: o.pushes } (t.pushBranch t.peek) := by
  have hlogic : t.logic =
      (t.peek && Cell.conducts bits { instruction := some i }) :: t.logic.tail := by
    simp only [Cell.conducts, hi, Bool.and_true]
    exact h.logic_eq
  have hs := h.series hfree hT hg hlogic rfl
  refine ⟨hs.wired, hs.fed, hs.live, hs.taps, ?_⟩
  simp only [Scan.pushBranch, List.map_cons, h.branches, hT]

section Joins

variable {f g : Frame} {fs : List Frame} {a : Block} {waiting : List Block}

/-- Before a join the two tops of the stack are what the last two blocks carry. -/
theorem Tracks.exists_second (h : Tracks bits T s o t) (hf : o.frames = f :: g :: fs)
    (hw : s.waiting = a :: waiting) (hread : f.read = false) :
    ∃ v u rest, t.logic = v :: u :: rest ∧
      Live s.rows bits T (f :: g :: fs) (s.block :: a :: waiting) s.rows.length
        (v :: u :: rest) := by
  have hlive := h.live
  rw [hf, hw, h.logic_eq] at hlive
  obtain ⟨-, htail⟩ := hlive.2.2 hread (List.cons_ne_nil g fs)
  obtain ⟨-, -, u, rest, -, hrest⟩ := htail.exists_cons
  rw [hrest] at hlive
  exact ⟨t.peek, u, rest, hrest ▸ h.logic_eq, hlive⟩

theorem Tracks.joinParallel (h : Tracks bits T s o t) (hf : o.frames = f :: g :: fs)
    (hw : s.waiting = a :: waiting) (hread : f.read = false) :
    Tracks bits T s.joinParallel (o.join .parallel n) (t.block .parallel) := by
  obtain ⟨v, u, rest, hlogic, hlive⟩ := h.exists_second hf hw hread
  have hblock : (t.block .parallel).logic = (v || u) :: rest := by
    simp only [Scan.block, Scan.push, Scan.drop, hlogic, List.tail_cons, Scan.peek, List.headD_cons]
  have hend : ∀ r ∈ a.rows ++ s.block.rows, (tip s.rows r).isEmpty = false := fun r hr => by
    rcases List.mem_append.1 hr with hr | hr
    · exact (hlive.second hread).2.1.tip_drawn r hr
    · exact hlive.1.tip_drawn r hr
  simp only [Sheet.joinParallel, hw, Outline.join, hf]
  refine ⟨wired_wireRowsTo h.wired _ _, fed_wireRowsTo h.fed hend, ?_,
    h.taps.joinParallel h.wired _ _, h.branches⟩
  rw [hblock, length_wireRowsTo]
  exact hlive.joinParallel hread h.wired

theorem Tracks.joinSeries (h : Tracks bits T s o t) (hf : o.frames = f :: g :: fs)
    (hw : s.waiting = a :: waiting) (hread : f.read = false) (hfree : TiesFree s.rows a)
    (hc : Covers (marks s.rows) n f s.block)
    (hn : ∀ x y k, (marks s.rows x y).2 = some k → k < n) :
    Tracks bits T s.joinSeries (o.join .series n) (t.block .series) := by
  obtain ⟨v, u, rest, hlogic, hlive⟩ := h.exists_second hf hw hread
  obtain ⟨-, hlive'⟩ := hlive.second hread
  have hb : Fits s.rows s.block s.rows.length false := hread ▸ hlive.1
  have hblock : (t.block .series).logic = (v && u) :: rest := by
    simp only [Scan.block, Scan.push, Scan.drop, hlogic, List.tail_cons, Scan.peek, List.headD_cons]
  have htop : s.block.top ≤ s.rows.length := Nat.le_trans hb.top_le (Nat.le_of_lt hb.out_lt)
  have ht := tied_tiePending h.wired hlive'.1 htop hfree bits
  have hj := joins_tied hlive'.1 hb ht
  have hend : (cellAt (tiePending s.rows a) (a.width - 1) a.out).isEmpty = false := by
    refine ht.drawn _ _ ?_
    have := hlive'.1.tip_drawn a.out (out_mem_rows a)
    rwa [tip, hlive'.1.length_out] at this
  have hrows : s.joinSeries.rows = seriesRows (tiePending s.rows a) a s.block.top :=
    rows_joinSeries hw
  have hm := marks_joinSeries hw (Nat.lt_of_lt_of_le hlive'.1.out_lt htop)
  rw [hrows] at hm
  have htaps := h.taps.joinSeries hlive hread h.wired ht hm hc hn
  have hlive := hlive.joinSeries hread h.wired ht
  rw [← hrows] at hm htaps hlive
  refine ⟨hrows ▸ wired_seriesRows hj, hrows ▸ fed_seriesRows hj (ht.fed h.fed) hend, ?_, ?_, ?_⟩
  · rw [hblock, hrows, length_seriesRows, ht.length_eq, ← hrows]
    simp only [Sheet.joinSeries, hw, Outline.join, hf] at hlive ⊢
    exact hlive
  · simp only [Outline.join, hf, if_true]
    exact htaps
  · simp only [Outline.join, hf]
    exact h.branches

end Joins

/-- Reading a branch goes on with the truth at its push, which power brings along the bus. -/
theorem Tracks.dropBranch (h : Tracks bits T s o t) {k x y : Nat} {pushes : List Nat}
    {anchors : List (Nat × Nat)} (hk : o.pushes = k :: pushes) (hs : s.anchors = (x, y) :: anchors)
    (ha : Anchors (marks s.rows) k (x, y)) (hclear : BusClear s.rows x y)
    (hgate : ∀ g ∈ o.gates, ¬(g.1 ≤ k ∧ k < g.2))
    (hi : i.isDrop = true) (keep : Bool)
    (hlogic : t'.logic = T k :: t.logic)
    (hb : t'.branches = (o.drop keep).pushes.map T) :
    Tracks bits T (s.dropBranch i n keep) (o.drop keep) t' := by
  obtain ⟨j, hm, hj⟩ := ha
  have htap : IsTap (marks s.rows) x y k := ⟨j, hm, .inr hj⟩
  obtain ⟨hpos, hin⟩ := h.taps x y k htap
  have hy : y < s.rows.length := Nat.lt_of_not_le fun hle => by
    rw [marks_of_height_le x hle] at hm
    cases hm
  have hcond : (cellAt s.rows x y).conducts bits = true := by
    have : (cellAt s.rows x y).instruction = some j := congrArg Prod.fst hm
    rw [Cell.conducts, this]
    simp only [hj]
  have hicond : Cell.conducts bits { instruction := some i } = true := by
    simp only [Instruction.isDrop, Bool.or_eq_true, decide_eq_true_eq] at hi
    rcases hi with hi | hi <;> simp only [Cell.conducts, hi]
  obtain ⟨x, rfl⟩ : ∃ x', x = x' + 1 := ⟨x - 1, by omega⟩
  obtain ⟨hinlet, hout⟩ := power_dropBus (i := i) (n := n) h.wired h.fed hclear hy hcond hicond
  -- no join in series stands between the push and here
  have hu : Outlet (cellAt (dropBus s.rows (x + 1) y i n)) bits (x + 1) s.rows.length ↔
      T k = true := by
    rw [hout, hin]
    exact and_iff_left fun g hg h₁ h₂ => absurd ⟨h₁, h₂⟩ (hgate g hg)
  have hlive := h.live
  obtain ⟨f, fs, v, logic, hf, hl⟩ := hlive.exists_cons
  rw [hf, hl] at hlive
  have hlive := hlive.dropBranch hi hu t.logic
  have hmarks := marks_dropBranch i n keep hs
  simp only [Sheet.dropBranch, hs, Outline.drop, hk, hf, List.modifyHead_cons] at hb hmarks ⊢
  refine ⟨wired_dropBus h.wired, fed_dropBus h.fed hy htap.drawn, ?_, ?_, hb⟩
  · rw [hlogic]
    simp only [length_put, length_tie, List.length_append, List.length_singleton]
    exact hlive
  · refine h.taps.put hmarks (fun x' y' _ => hinlet x' y') fun ho => ?_
    simp only [Instruction.isDrop, Bool.or_eq_true, decide_eq_true_eq] at hi
    rcases ho with ho | ho <;> rw [ho] at hi <;> rcases hi with hi | hi <;> cases hi

/-! ## One instruction -/

/-- Whether the drawing and the stacks of a scan do the same with an instruction. Contacts test bits,
and the only coil is the output coil. Rows that are tied do not end in a bus. A join finds two blocks,
and into the last one no branch was read. A branch that is read finds a push which stands in no
block behind a join in series, and its bus crosses no wire. -/
def admits (s : Sheet) (o : Outline) (i : Instruction) : Bool :=
  match i.operation with
  | .known (.contact .series test) => test ≠ .equal && TiesFree s.rows s.block
  | .known (.contact _ test) => test ≠ .equal
  | .known (.coil .out) => TiesFree s.rows s.block
  | .known (.branch .push) => TiesFree s.rows s.block
  | .known (.block join) =>
    match o.frames, s.waiting with
    | f :: _ :: _, a :: _ => !f.read && (join = .parallel || TiesFree s.rows a)
    | _, _ => false
  | .known (.branch _) =>
    match o.pushes, s.anchors with
    | k :: _, (x, y) :: _ => BusClear s.rows x y && ∀ g ∈ o.gates, ¬(g.1 ≤ k ∧ k < g.2)
    | _, _ => false
  | _ => false

theorem admits_join {j : Join} (hi : i.operation = .known (.block j)) :
    s.admits o i = true ↔ ∃ f g fs a waiting, o.frames = f :: g :: fs ∧ s.waiting = a :: waiting ∧
      f.read = false ∧ (j = .series → TiesFree s.rows a) := by
  simp only [admits, hi]
  split
  · next f g fs a waiting hf hw =>
    rw [Bool.and_eq_true, Bool.not_eq_true', Bool.or_eq_true, decide_eq_true_eq, decide_eq_true_eq]
    constructor
    · rintro ⟨hread, hj⟩
      exact ⟨f, g, fs, a, waiting, hf, hw, hread, fun hs => hj.resolve_left (by rw [hs]; decide)⟩
    · rintro ⟨f', g', fs', a', waiting', hf', hw', hread, hj⟩
      rw [hf] at hf'
      rw [hw] at hw'
      cases hf'
      cases hw'
      cases j with
      | parallel => exact ⟨hread, .inl rfl⟩
      | series => exact ⟨hread, .inr (hj rfl)⟩
  · next hne =>
    refine ⟨fun h => (nomatch h), ?_⟩
    rintro ⟨f, g, fs, a, waiting, hf, hw, -⟩
    exact absurd hw (hne f g fs a waiting hf)

theorem admits_drop {b : Branch} (hb : b ≠ .push) (hi : i.operation = .known (.branch b)) :
    s.admits o i = true ↔ ∃ k pushes x y anchors, o.pushes = k :: pushes ∧
      s.anchors = (x, y) :: anchors ∧ BusClear s.rows x y ∧
      ∀ g ∈ o.gates, ¬(g.1 ≤ k ∧ k < g.2) := by
  have he : s.admits o i = match o.pushes, s.anchors with
      | k :: _, (x, y) :: _ => BusClear s.rows x y && ∀ g ∈ o.gates, ¬(g.1 ≤ k ∧ k < g.2)
      | _, _ => false := by
    cases b with
    | push => cases hb rfl
    | read | pop => simp only [admits, hi]
  rw [he]
  split
  · next k pushes x y anchors hk ha =>
    rw [Bool.and_eq_true, decide_eq_true_eq, decide_eq_true_eq]
    constructor
    · rintro ⟨hclear, hgates⟩
      exact ⟨k, pushes, x, y, anchors, hk, ha, hclear, hgates⟩
    · rintro ⟨k', pushes', x', y', anchors', hk', ha', h⟩
      rw [hk] at hk'
      rw [ha] at ha'
      cases hk'
      cases ha'
      exact h
  · next hne =>
    refine ⟨fun h => (nomatch h), ?_⟩
    rintro ⟨k, pushes, x, y, anchors, hk, ha, -⟩
    exact absurd ha (hne k pushes x y anchors hk)

/-- The bits after an instruction: an output coil writes the top of the stack. -/
def bitsAfter (t : Scan) (i : Instruction) : Text → Bool :=
  if i.operation = .known (.coil .out) then (t.setBit i.value t.peek).bit else t.bit

variable {program : Program}

theorem Tracks.join (h : Tracks bits T s o t) (ha : Aligned s o program.length)
    (hp : Placed s program) {j : Join} (hi : i.operation = .known (.block j))
    (hadm : s.admits o i = true) :
    Tracks bits T (s.draw i program.length) (o.step i program.length) (t.block j) := by
  obtain ⟨f, g, fs, a, waiting, hf, hw, hread, hfree⟩ := (admits_join hi).1 hadm
  have hframes := ha.frames
  rw [hf, List.forall₂_cons] at hframes
  cases j with
  | parallel =>
    simp only [Sheet.draw, Outline.step, hi]
    exact h.joinParallel hf hw hread
  | series =>
    simp only [Sheet.draw, Outline.step, hi]
    exact h.joinSeries hf hw hread (hfree rfl) hframes.1 fun x y k hk => (hp.holds.sound hk).1.lt

theorem Tracks.branch (h : Tracks bits T s o t) (ha : Aligned s o program.length)
    (hT : t.peek = T program.length) {b : Branch} (hi : i.operation = .known (.branch b))
    (hadm : s.admits o i = true) :
    Tracks bits T (s.draw i program.length) (o.step i program.length) (t.branch b) := by
  by_cases hb : b = .push
  · subst hb
    simp only [admits, hi, decide_eq_true_eq] at hadm
    simp only [Sheet.draw, Outline.step, hi]
    exact h.pushBranch hadm hi hT ha.gates
  · obtain ⟨k, pushes, x, y, anchors, hk, hs, hclear, hgate⟩ := (admits_drop hb hi).1 hadm
    have hpushes := ha.pushes
    rw [hk, hs, List.forall₂_cons] at hpushes
    have hpeek : t.peekBranch = T k := by
      rw [Scan.peekBranch, h.branches, hk]
      rfl
    cases b with
    | push => cases hb rfl
    | read =>
      simp only [Sheet.draw, Outline.step, hi]
      refine h.dropBranch hk hs hpushes.1 hclear hgate (by simp [Instruction.isDrop, hi]) true
        (congrArg (· :: t.logic) hpeek) ?_
      simpa [Outline.drop, hk, Scan.branch, Scan.push] using h.branches
    | pop =>
      simp only [Sheet.draw, Outline.step, hi]
      refine h.dropBranch hk hs hpushes.1 hclear hgate (by simp [Instruction.isDrop, hi]) false
        (congrArg (· :: t.logic) hpeek) ?_
      simp [Outline.drop, hk, Scan.branch, Scan.dropBranch, Scan.push, h.branches]

theorem Tracks.contact (h : Tracks bits T s o t) (ha : Aligned s o program.length)
    (hbare : s.isBare = false) (hT : t.peek = T program.length) {position : Position} {test : Test}
    (hi : i.operation = .known (.contact position test)) (hadm : s.admits o i = true) :
    test ≠ .equal ∧ Tracks bits T (s.draw i program.length) (o.step i program.length)
      (t.meet position (Cell.conducts bits { instruction := some i })) := by
  simp only [admits, hi] at hadm
  simp only [Sheet.draw, Outline.step, hi]
  cases position with
  | start => exact ⟨of_decide_eq_true hadm, h.start hbare hi hT⟩
  | parallel => exact ⟨of_decide_eq_true hadm, h.parallel hi⟩
  | series =>
    rw [Bool.and_eq_true, decide_eq_true_eq, decide_eq_true_eq] at hadm
    exact ⟨hadm.1, h.series hadm.2 hT ha.gates rfl rfl⟩

theorem Tracks.out (h : Tracks bits T s o t) (ha : Aligned s o program.length)
    (hT : t.peek = T program.length) (hi : i.operation = .known (.coil .out))
    (hadm : s.admits o i = true) :
    Tracks bits T (s.draw i program.length) (o.step i program.length)
      (t.setBit i.value t.peek) := by
  simp only [admits, hi, decide_eq_true_eq] at hadm
  simp only [Sheet.draw, Outline.step, hi]
  refine h.series hadm hT ha.gates ?_ rfl
  simp only [Cell.conducts, hi, Bool.and_true]
  exact h.logic_eq

/-- **One instruction.** An instruction that is admitted runs, and the sheet stays in step with the
scan. -/
theorem Tracks.draw (h : Tracks bits T s o t) (ha : Aligned s o program.length)
    (hp : Placed s program) (hbare : s.isBare = false) (hT : t.peek = T program.length)
    (hadm : s.admits o i = true)
    (hbit : ∀ position test, i.operation = .known (.contact position test) →
      t.bit i.value = bits i.value)
    (hfam : i.operation = .known (.coil .out) → Family.ofName i.value = .bit) :
    ∃ t', t.exec i = .ok t' ∧ t'.bit = bitsAfter t i ∧
      Tracks bits T (s.draw i program.length) (o.step i program.length) t' := by
  cases hi : i.operation with
  | unknown name => simp [admits, hi] at hadm
  | known c =>
    cases c with
    | contact position test =>
      obtain ⟨htest, htracks⟩ := h.contact ha hbare hT hi hadm
      refine ⟨_, Scan.exec_contact hi htest (hbit position test hi), ?_, htracks⟩
      rw [bitsAfter, if_neg (by rw [hi]; exact fun he => nomatch he)]
      cases position <;> rfl
    | block j =>
      refine ⟨t.block j, by simp only [Scan.exec, hi], ?_, h.join ha hp hi hadm⟩
      rw [bitsAfter, if_neg (by rw [hi]; exact fun he => nomatch he)]
      cases j <;> rfl
    | branch b =>
      refine ⟨t.branch b, by simp only [Scan.exec, hi], ?_, h.branch ha hT hi hadm⟩
      rw [bitsAfter, if_neg (by rw [hi]; exact fun he => nomatch he)]
      cases b <;> rfl
    | coil c =>
      cases c with
      | out =>
        refine ⟨t.setBit i.value t.peek, Scan.exec_out hi (hfam hi), ?_, h.out ha hT hi hadm⟩
        rw [bitsAfter, if_pos hi]
      | set | reset | move | movePulse => simp [admits, hi] at hadm

end Sheet

/-! ## Programs -/

/-- Whether an instruction is a contact. -/
def Instruction.isContact (i : Instruction) : Bool :=
  match i.operation with
  | .known (.contact _ _) => true
  | _ => false

namespace Program

open Sheet Grid

/-- The names that output coils write, in order. -/
def outputs (program : Program) : List Text :=
  program.filterMap fun i => if i.operation = .known (.coil .out) then some i.value else none

/-- A program that writes bits only, each at most once, and reads no bit after it was written. -/
structure WritesOnce (program : Program) : Prop where
  family : ∀ i ∈ program, i.operation = .known (.coil .out) → Family.ofName i.value = .bit
  distinct : program.outputs.Nodup
  unread : ∀ n (h : n < program.length), program[n].isContact = true →
    program[n].value ∉ outputs (program.take n)

instance (program : Program) : Decidable program.WritesOnce :=
  decidable_of_iff ((∀ i ∈ program, i.operation = .known (.coil .out) →
      Family.ofName i.value = .bit) ∧ program.outputs.Nodup ∧
    ∀ n (h : n < program.length), program[n].isContact = true →
      program[n].value ∉ outputs (program.take n))
    ⟨fun h => ⟨h.1, h.2.1, h.2.2⟩, fun h => ⟨h.family, h.distinct, h.unread⟩⟩

/-- Every instruction of a program is admitted where it stands. -/
def Admitted (program : Program) : Prop := ∀ n (h : n < program.length),
  (sheet (program.take n)).admits (outline (program.take n)) program[n] = true

/-- The truth on top of the logic stack before the instruction at an index. -/
def truth (program : Program) (s : State) (dt : Int) (n : Nat) : Bool :=
  match (Scan.start s dt).run (program.take n) with
  | .ok t => t.peek
  | .error _ => false

/-- **Diagram and scan agree on the outputs of a program.** Power can be followed in the diagram, and
the scan ends. Every output coil has one cell, and power comes in there exactly if the scan sets the
bit and, for each join in series in whose second block the coil stands, the truth in front of that
block is true. -/
def OutputsAgree (program : Program) (s : State) (dt : Int) : Prop :=
  ∃ live after, program.layout.power s.bit = .ok live ∧ program.scan s dt = .ok after ∧
    ∀ n (h : n < program.length), program[n].operation = .known (.coil .out) →
      ∃ x y c, program.layout.cell? x y = some c ∧ c.source = some n ∧
        (∀ x' y' c', program.layout.cell? x' y' = some c' → c'.source = some n → x' = x ∧ y' = y) ∧
        (⟨x, y, .inlet⟩ ∈ live ↔ after.bit program[n].value = true ∧
          Passes (program.truth s dt) program.outline.gates n)

variable {program : Program} {i : Instruction}

theorem outputs_append (program : Program) (i : Instruction) :
    outputs (program ++ [i]) = outputs program ++
      if i.operation = .known (.coil .out) then [i.value] else [] := by
  by_cases h : i.operation = .known (.coil .out) <;> simp [outputs, h]

theorem admitted_append : Admitted (program ++ [i]) ↔
    Admitted program ∧ (sheet program).admits (outline program) i = true :=
  forall_append (P := fun before i => (sheet before).admits (outline before) i = true)

theorem writesOnce_append (h : WritesOnce (program ++ [i])) :
    WritesOnce program ∧
      (i.operation = .known (.coil .out) →
        Family.ofName i.value = .bit ∧ i.value ∉ outputs program) ∧
      (i.isContact = true → i.value ∉ outputs program) := by
  have hunread := (forall_append (P := fun before i => i.isContact = true →
    i.value ∉ outputs before)).1 h.unread
  have hd := h.distinct
  rw [outputs_append] at hd
  refine ⟨⟨fun j hj => h.family j (List.mem_append_left _ hj), (List.nodup_append.1 hd).1,
    hunread.1⟩, fun hi => ⟨h.family i (by simp) hi, fun hmem => ?_⟩, hunread.2⟩
  rw [if_pos hi] at hd
  exact (List.nodup_append.1 hd).2.2 _ hmem _ (List.mem_singleton_self _) rfl

theorem truth_append {n : Nat} (s : State) (dt : Int) (h : n ≤ program.length) :
    truth (program ++ [i]) s dt n = truth program s dt n := by
  rw [truth, List.take_append_of_le_length h, truth]

theorem truth_length {s : State} {dt : Int} {t : Scan}
    (h : (Scan.start s dt).run program = .ok t) : truth program s dt program.length = t.peek := by
  rw [truth, List.take_length, h]

/-- A run of a program that stays in step with its drawing. `T` gives the truths on top of the stack;
bits that no coil wrote are as they were, and those written are what was on top of the stack. -/
structure Follows (program : Program) (s : State) (dt : Int) (t : Scan) : Prop where
  run : (Scan.start s dt).run program = .ok t
  tracks : ∀ T : Nat → Bool, (∀ k ≤ program.length, T k = program.truth s dt k) →
    Tracks s.bit T (sheet program) (outline program) t
  kept : ∀ name ∉ program.outputs, t.bit name = s.bit name
  written : ∀ n (h : n < program.length), program[n].operation = .known (.coil .out) →
    t.bit program[n].value = program.truth s dt n

theorem follows_singleton {test : Test} (hi : i.operation = .known (.contact .start test))
    (hadm : Admitted [i]) (s : State) (dt : Int) :
    Follows [i] s dt ((Scan.start s dt).push (Cell.conducts s.bit { instruction := some i })) := by
  have htest : test ≠ .equal := by
    have := hadm 0 Nat.one_pos
    simp only [List.getElem_cons_zero, admits, hi] at this
    exact of_decide_eq_true this
  have hw : Wired (cellAt []) := ⟨fun _ _ => rfl, fun _ _ => rfl, fun _ => rfl, fun _ => rfl⟩
  constructor
  · rw [Scan.run, Scan.exec_contact (t := Scan.start s dt) hi htest (Scan.bit_start s dt i.value)]
    rfl
  · intro T _
    have htaps : Taps [] s.bit T [] := by
      rintro x y n ⟨j, hj, -⟩
      cases hj
    have hs : sheet [i] = { rows := openRow [] i 0, block := { width := 1 } } := sheet_singleton hi
    rw [hs, outline_singleton hi]
    exact ⟨wired_openRow hw, fed_openRow (fun _ _ h => nomatch h),
      ⟨fits_openRow [] i 0, carries_openRow hw, fun _ h => absurd rfl h⟩, htaps.openRow hw hi, rfl⟩
  · exact fun name _ => Scan.bit_start s dt name
  · intro n hn ho
    obtain rfl : n = 0 := by
      rw [List.length_singleton] at hn
      omega
    rw [List.getElem_cons_zero, hi] at ho
    cases ho

/-- **A program and one more instruction.** -/
theorem Follows.append {s : State} {dt : Int} {t : Scan} (h : Follows program s dt t)
    (hb : program.BeginsBlock) (hadm : Admitted (program ++ [i]))
    (hw : WritesOnce (program ++ [i])) : ∃ t', Follows (program ++ [i]) s dt t' := by
  obtain ⟨-, hnew, hcontact⟩ := writesOnce_append hw
  have hT : t.peek = truth program s dt program.length := (truth_length h.run).symm
  have htracks := h.tracks _ fun k _ => rfl
  have hstep {T : Nat → Bool} (htr : Tracks s.bit T (sheet program) (outline program) t)
      (hT : t.peek = T program.length) := htr.draw (i := i) (aligned_sheet hb) (placed_sheet program)
    (isBare_sheet hb) hT (admitted_append.1 hadm).2
    (fun position test hi => h.kept _ (hcontact (by rw [Instruction.isContact, hi])))
    fun hi => (hnew hi).1
  obtain ⟨t', hexec, hbits, -⟩ := hstep htracks hT
  have hrun : (Scan.start s dt).run (program ++ [i]) = .ok t' := by
    rw [Scan.run_append, h.run]
    exact hexec
  refine ⟨t', hrun, fun T hTk => ?_, fun name hname => ?_, fun n hn ho => ?_⟩
  · have hTk' : ∀ k ≤ program.length, T k = truth program s dt k := fun k hk => by
      rw [hTk k (by rw [List.length_append]; omega), truth_append s dt hk]
    obtain ⟨u, hu, -, htr⟩ := hstep (h.tracks T hTk') (by rw [hT, hTk' _ (Nat.le_refl _)])
    rw [hexec] at hu
    cases hu
    rw [sheet_append, outline_append]
    exact htr
  · rw [outputs_append, List.mem_append, not_or] at hname
    rw [← h.kept name hname.1, hbits, bitsAfter]
    split
    · next hi =>
      rw [if_pos hi, List.mem_singleton] at hname
      exact Scan.bit_setBit_of_ne t t.peek hname.2
    · rfl
  · rw [hbits, bitsAfter]
    by_cases hlt : n < program.length
    · rw [List.getElem_append_left hlt] at ho ⊢
      rw [truth_append s dt (Nat.le_of_lt hlt), ← h.written n hlt ho]
      split
      · next hi =>
        -- the coil before wrote another bit
        have hmem : program[n].value ∈ outputs program :=
          List.mem_filterMap.2 ⟨program[n], List.getElem_mem hlt, by rw [if_pos ho]⟩
        exact Scan.bit_setBit_of_ne t t.peek fun he => (hnew hi).2 (he ▸ hmem)
      · rfl
    · obtain rfl : n = program.length := by
        rw [List.length_append, List.length_singleton] at hn
        omega
      rw [List.getElem_concat_length rfl] at ho ⊢
      rw [if_pos ho, truth_append s dt (Nat.le_refl _), ← hT]
      exact Scan.bit_setBit_self t i.value t.peek

/-- **A whole program.** A program whose instructions are admitted runs in step with its drawing. -/
theorem exists_follows (hb : program.BeginsBlock) (hadm : program.Admitted)
    (hw : program.WritesOnce) (s : State) (dt : Int) : ∃ t, Follows program s dt t := by
  induction program using List.reverseRecOn with
  | nil =>
    obtain ⟨i, test, rest, he, -⟩ := hb
    cases he
  | append_singleton program i ih =>
    cases program with
    | nil =>
      obtain ⟨j, test, rest, he, hj⟩ := hb
      rw [List.nil_append, List.cons.injEq] at he
      exact ⟨_, follows_singleton (he.1 ▸ hj) hadm s dt⟩
    | cons first rest =>
      have hb' := hb.of_append (List.cons_ne_nil first rest)
      obtain ⟨t, ht⟩ := ih hb' (admitted_append.1 hadm).1 (writesOnce_append hw).1
      exact ht.append hb' hadm hw

/-- **Diagram and scan agree on admitted programs.** -/
theorem outputsAgree_of_admitted (hb : program = [] ∨ program.BeginsBlock)
    (hadm : program.Admitted) (hw : program.WritesOnce) (s : State) (dt : Int) :
    program.OutputsAgree s dt := by
  rcases hb with rfl | hb
  · exact ⟨[], s, rfl, rfl, fun n h => absurd h (Nat.not_lt_zero n)⟩
  obtain ⟨t, ht⟩ := exists_follows hb hadm hw s dt
  have htracks := ht.tracks _ fun k _ => rfl
  obtain ⟨live, hlive, hinlet⟩ := exists_power htracks.wired (isBare_sheet hb) s.bit
  rw [← layout_eq] at hlive
  have hscan : program.scan s dt = .ok t.commit := by
    obtain ⟨i, test, rest, rfl, -⟩ := hb
    rw [scan, ht.run]
    rfl
  refine ⟨live, t.commit, hlive, hscan, fun n hn ho => ?_⟩
  have hget : program[n]? = some program[n] := List.getElem?_eq_getElem hn
  have hdrawn : program.IsDrawn n := ⟨program[n], hget, by rw [Instruction.isDrawn, ho]⟩
  obtain ⟨x, y, c, hc, hn', hi, huniq⟩ := exists_cell_of_isDrawn hdrawn
  have hm : marks (sheet program).rows x y = (some program[n], some n) := by
    rw [marks_of_cell? hc, hn', hi, hget]
  have htap : IsTap (marks (sheet program).rows) x y n := ⟨program[n], hm, .inl ho⟩
  obtain ⟨hx, hy⟩ := mem_toDiagram_of_ne (s := sheet program) (x := x) (y := y) fun he => by
    rw [marks, he] at hm
    cases hm
  refine ⟨x, y, c, hc, hn', huniq, ?_⟩
  rw [hinlet x y hx hy, (htracks.taps x y n htap).2, ← ht.written n hn ho,
    Scan.bit_eq]
  rfl

end Program
end LadderLogic
