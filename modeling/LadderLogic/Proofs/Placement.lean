import LadderLogic.Proofs.Canvas

/-!
# Where the instructions of a program are drawn

Every program is drawn without loss: each instruction that is drawn at all has one cell of its own,
and along a row the instructions stand in the order of the program. This holds of programs of any
form. The reason is that a block keeps room for itself: on its output row nothing is drawn from its
width on (`Placed.room`), and the rows of a block that waits lie above the first row of the block
that is drawn (`Placed.nested`), so that a join in series moves only rows of the latter.

Main statement: `placed_sheet`, from which the statements about diagrams follow.

Source: `layout` (section 4.1 of the specification).
-/

namespace LadderLogic

namespace Program

/-- The number of pushes that no later pop has taken. -/
def openBranches (program : Program) : Nat :=
  program.foldl (fun n i =>
    match i.operation with
    | .known (.branch .push) => n + 1
    | .known (.branch .pop) => n - 1
    | _ => n) 0

end Program

/-- Whether an instruction is drawn, where so many branches are open before it. Contacts, coils and
pushes always are; a read or a pop is if it finds a branch; joins and unknown operations are not. -/
def Instruction.isDrawn (i : Instruction) (branches : Nat) : Bool :=
  match i.operation with
  | .known (.contact _ _) => true
  | .known (.coil _) => true
  | .known (.branch .push) => true
  | .known (.branch _) => 0 < branches
  | .known (.block _) => false
  | .unknown _ => false

namespace Program

/-- Whether the instruction at an index is drawn. -/
def IsDrawn (program : Program) (n : Nat) : Prop :=
  ∃ i, program[n]? = some i ∧ i.isDrawn (openBranches (program.take n)) = true

theorem isDrawn_append {program : Program} {n : Nat} (i : Instruction) (h : n < program.length) :
    IsDrawn (program ++ [i]) n ↔ IsDrawn program n := by
  simp only [IsDrawn, List.getElem?_append_left h, List.take_append_of_le_length (Nat.le_of_lt h)]

theorem isDrawn_length {program : Program} (i : Instruction) :
    IsDrawn (program ++ [i]) program.length ↔ i.isDrawn (openBranches program) = true := by
  simp [IsDrawn]

theorem IsDrawn.lt {program : Program} {n : Nat} (h : program.IsDrawn n) : n < program.length := by
  obtain ⟨i, hi, -⟩ := h
  exact (List.getElem?_eq_some_iff.1 hi).1

/-- What holds of each instruction after what comes before it holds so for a program and one more. -/
theorem forall_append {P : Program → Instruction → Prop} {program : Program} {i : Instruction} :
    (∀ n (h : n < (program ++ [i]).length), P ((program ++ [i]).take n) (program ++ [i])[n]) ↔
      (∀ n (h : n < program.length), P (program.take n) program[n]) ∧ P program i := by
  constructor
  · intro h
    constructor
    · intro n hn
      have := h n (by rw [List.length_append]; omega)
      rwa [List.take_append_of_le_length (Nat.le_of_lt hn), List.getElem_append_left hn] at this
    · have := h program.length (by simp)
      rwa [List.take_left' rfl, List.getElem_concat_length rfl] at this
  · rintro ⟨hold, hnew⟩ n hn
    by_cases hlt : n < program.length
    · rw [List.take_append_of_le_length (Nat.le_of_lt hlt), List.getElem_append_left hlt]
      exact hold n hlt
    · obtain rfl : n = program.length := by
        rw [List.length_append, List.length_singleton] at hn
        omega
      rw [List.take_left' rfl, List.getElem_concat_length rfl]
      exact hnew

theorem openBranches_append (program : Program) (i : Instruction) :
    openBranches (program ++ [i]) =
      match i.operation with
      | .known (.branch .push) => openBranches program + 1
      | .known (.branch .pop) => openBranches program - 1
      | _ => openBranches program := by
  simp only [openBranches, List.foldl_append, List.foldl_cons, List.foldl_nil]

end Program

/-! ## Marks

The mark of a cell is its instruction and its index; wire and ties leave the marks alone. -/

/-- The instruction and the index in each cell of a grid. -/
abbrev Marking := Nat → Nat → Option Instruction × Option Nat

namespace Marking

/-- The grid with an instruction put into one cell. -/
def put (m : Marking) (x y : Nat) (i : Instruction) (n : Nat) : Marking := fun x' y' =>
  if x' = x ∧ y' = y then (some i, some n) else m x' y'

/-- The grid with the rows from `top` down moved to the right. -/
def shift (m : Marking) (top offset : Nat) : Marking := fun x y =>
  if top ≤ y then (if x < offset then (none, none) else m (x - offset) y) else m x y

/-- A grid that holds the drawn instructions of a program, each once and in order along the rows. -/
structure Holds (m : Marking) (program : Program) : Prop where
  blank : ∀ {x y}, (m x y).2 = none → (m x y).1 = none
  sound : ∀ {x y n}, (m x y).2 = some n → program.IsDrawn n ∧ (m x y).1 = program[n]?
  drawn : ∀ {n}, program.IsDrawn n → ∃ x y, (m x y).2 = some n
  unique : ∀ {x y x' y' n}, (m x y).2 = some n → (m x' y').2 = some n → x = x' ∧ y = y'
  sorted : ∀ {x x' y n n'}, x < x' → (m x y).2 = some n → (m x' y).2 = some n' → n < n'

theorem holds_nil : Holds (fun _ _ => (none, none)) [] where
  blank := fun _ => rfl
  sound := fun h => nomatch h
  drawn := fun h => absurd h.lt (Nat.not_lt_zero _)
  unique := fun h => nomatch h
  sorted := fun _ h => nomatch h

/-- An instruction that is not drawn changes nothing. -/
theorem Holds.skip {m : Marking} {program : Program} (h : m.Holds program) {i : Instruction}
    (hi : i.isDrawn program.openBranches = false) : m.Holds (program ++ [i]) where
  blank := h.blank
  sound := fun hn => by
    obtain ⟨hd, he⟩ := h.sound hn
    exact ⟨(Program.isDrawn_append i hd.lt).2 hd, by rw [he, List.getElem?_append_left hd.lt]⟩
  drawn := fun {n} hn => by
    have hlt := hn.lt
    rw [List.length_append, List.length_singleton] at hlt
    rcases Nat.lt_succ_iff_lt_or_eq.1 hlt with hlt | rfl
    · exact h.drawn ((Program.isDrawn_append i hlt).1 hn)
    · rw [Program.isDrawn_length, hi] at hn
      exact absurd hn Bool.false_ne_true
  unique := h.unique
  sorted := h.sorted

/-- A cell with an index, after an instruction is put: that of the new instruction, or one as it was. -/
theorem put_cases {m : Marking} {i : Instruction} {x y n x' y' k : Nat}
    (h : (m.put x y i n x' y').2 = some k) :
    (x' = x ∧ y' = y ∧ k = n) ∨ ((m x' y').2 = some k ∧ m.put x y i n x' y' = m x' y') := by
  unfold Marking.put at h ⊢
  split at h
  · next he => exact .inl ⟨he.1, he.2, (Option.some.inj h).symm⟩
  · next hne => exact .inr ⟨h, if_neg hne⟩

/-- An instruction that is drawn goes to a place behind all others of its row. -/
theorem Holds.put {m : Marking} {program : Program} (h : m.Holds program) {i : Instruction}
    (hi : i.isDrawn program.openBranches = true) {x y : Nat}
    (hroom : ∀ x', x ≤ x' → (m x' y).2 = none) :
    (m.put x y i program.length).Holds (program ++ [i]) where
  blank := fun {x' y'} hn => by
    unfold Marking.put at hn ⊢
    split at hn
    · simp at hn
    · next hne => rw [if_neg hne]; exact h.blank hn
  sound := fun {x' y' n} hn => by
    rcases put_cases hn with ⟨rfl, rfl, rfl⟩ | ⟨hn, he⟩
    · refine ⟨(Program.isDrawn_length i).2 hi, ?_⟩
      simp [Marking.put]
    · obtain ⟨hd, hget⟩ := h.sound hn
      rw [he]
      exact ⟨(Program.isDrawn_append i hd.lt).2 hd, by rw [hget, List.getElem?_append_left hd.lt]⟩
  drawn := fun {n} hn => by
    have hlt := hn.lt
    rw [List.length_append, List.length_singleton] at hlt
    rcases Nat.lt_succ_iff_lt_or_eq.1 hlt with hlt | rfl
    · obtain ⟨x', y', he⟩ := h.drawn ((Program.isDrawn_append i hlt).1 hn)
      refine ⟨x', y', ?_⟩
      have hne : ¬(x' = x ∧ y' = y) := by
        rintro ⟨rfl, rfl⟩
        rw [hroom x' (Nat.le_refl _)] at he
        exact nomatch he
      rw [Marking.put, if_neg hne, he]
    · exact ⟨x, y, by simp [Marking.put]⟩
  unique := fun {x₁ y₁ x₂ y₂ n} h₁ h₂ => by
    -- the index of the new instruction is not among the others
    rcases put_cases h₁ with ⟨hx₁, hy₁, rfl⟩ | ⟨h₁, -⟩
    · rcases put_cases h₂ with ⟨hx₂, hy₂, -⟩ | ⟨h₂, -⟩
      · exact ⟨hx₁.trans hx₂.symm, hy₁.trans hy₂.symm⟩
      · exact absurd (h.sound h₂).1.lt (Nat.lt_irrefl _)
    · rcases put_cases h₂ with ⟨-, -, rfl⟩ | ⟨h₂, -⟩
      · exact absurd (h.sound h₁).1.lt (Nat.lt_irrefl _)
      · exact h.unique h₁ h₂
  sorted := fun {x₁ x₂ y' n n'} hx h₁ h₂ => by
    rcases put_cases h₂ with ⟨hx₂, hy₂, rfl⟩ | ⟨h₂, -⟩
    · rcases put_cases h₁ with ⟨hx₁, -, -⟩ | ⟨h₁, -⟩
      · omega
      · exact (h.sound h₁).1.lt
    · rcases put_cases h₁ with ⟨hx₁, hy₁, -⟩ | ⟨h₁, -⟩
      · -- nothing stands to the right of the new instruction
        rw [hy₁, hroom x₂ (by omega)] at h₂
        exact nomatch h₂
      · exact h.sorted hx h₁ h₂

/-- A cell with an index, after rows are moved, was a cell of the same row before. -/
theorem shift_cases {m : Marking} {top offset x y n : Nat}
    (h : (m.shift top offset x y).2 = some n) :
    (top ≤ y ∧ offset ≤ x ∧ m.shift top offset x y = m (x - offset) y) ∨
      (y < top ∧ m.shift top offset x y = m x y) := by
  unfold Marking.shift at h ⊢
  by_cases hy : top ≤ y
  · by_cases hx : x < offset
    · simp [hy, hx] at h
    · exact .inl ⟨hy, by omega, by simp [hy, hx]⟩
  · exact .inr ⟨by omega, by simp [hy]⟩

/-- Moving rows to the right keeps what they hold. -/
theorem Holds.shift {m : Marking} {program : Program} (h : m.Holds program) (top offset : Nat) :
    (m.shift top offset).Holds program where
  blank := fun {x y} hn => by
    unfold Marking.shift at hn ⊢
    by_cases hy : top ≤ y
    · by_cases hx : x < offset
      · simp [hy, hx]
      · simp only [hy, hx, if_true, if_false] at hn ⊢
        exact h.blank hn
    · simp only [hy, if_false] at hn ⊢
      exact h.blank hn
  sound := fun hn => by
    rcases shift_cases hn with ⟨-, -, e⟩ | ⟨-, e⟩
    · rw [e] at hn ⊢
      exact h.sound hn
    · rw [e] at hn ⊢
      exact h.sound hn
  drawn := fun hn => by
    obtain ⟨x, y, he⟩ := h.drawn hn
    by_cases hy : top ≤ y
    · have hx : ¬x + offset < offset := by omega
      exact ⟨x + offset, y, by simp [Marking.shift, hy, hx, he]⟩
    · exact ⟨x, y, by simp [Marking.shift, hy, he]⟩
  unique := fun h₁ h₂ => by
    rcases shift_cases h₁ with ⟨t₁, o₁, e₁⟩ | ⟨t₁, e₁⟩ <;>
      rcases shift_cases h₂ with ⟨t₂, o₂, e₂⟩ | ⟨t₂, e₂⟩ <;>
      · rw [e₁] at h₁
        rw [e₂] at h₂
        have := h.unique h₁ h₂
        omega
  sorted := fun hx h₁ h₂ => by
    rcases shift_cases h₁ with ⟨t₁, o₁, e₁⟩ | ⟨t₁, e₁⟩
    · rcases shift_cases h₂ with ⟨-, o₂, e₂⟩ | ⟨t₂, -⟩
      · rw [e₁] at h₁
        rw [e₂] at h₂
        exact h.sorted (by omega) h₁ h₂
      · omega
    · rcases shift_cases h₂ with ⟨t₂, -, -⟩ | ⟨-, e₂⟩
      · omega
      · rw [e₁] at h₁
        rw [e₂] at h₂
        exact h.sorted hx h₁ h₂

end Marking

namespace Sheet

/-- The marks of the rows of a sheet. -/
def marks (rows : List Row) : Marking := fun x y =>
  ((cellAt rows x y).instruction, (cellAt rows x y).source)

/-- The marks stay if each cell of the rows keeps its own. -/
theorem marks_congr {rows rows' : List Row}
    (h : ∀ x y, (cellAt rows' x y).instruction = (cellAt rows x y).instruction ∧
      (cellAt rows' x y).source = (cellAt rows x y).source) :
    marks rows' = marks rows := by
  funext x y
  rw [marks, marks, (h x y).1, (h x y).2]

theorem marks_put (rows : List Row) {y : Nat} (x : Nat) (i : Instruction) (n : Nat)
    (hy : y < rows.length) : marks (put rows x y i n) = (marks rows).put x y i n := by
  funext x' y'
  simp only [marks, Marking.put, cellAt_put x i n x' y' hy]
  split <;> rfl

theorem marks_putWired (rows : List Row) {y : Nat} (x : Nat) (i : Instruction) (n : Nat)
    (hy : y < rows.length) : marks (putWired rows x y i n) = (marks rows).put x y i n := by
  rw [← marks_put rows x i n hy]
  funext x' y'
  simp only [marks, cellAt_putWired x i n x' y' hy]

@[simp]
theorem marks_append_nil (rows : List Row) : marks (rows ++ [[]]) = marks rows := by
  funext x y
  simp only [marks, cellAt_append_nil]

@[simp]
theorem marks_wireRowsTo (rows : List Row) (ys : List Nat) (column : Nat) :
    marks (wireRowsTo rows ys column) = marks rows := by
  refine marks_congr fun x y => ?_
  rw [cellAt_wireRowsTo rows ys column x y]
  exact ⟨rfl, rfl⟩

@[simp]
theorem marks_tie (rows : List Row) (x top bottom : Nat) :
    marks (tie rows x top bottom) = marks rows := by
  refine marks_congr fun k y => ?_
  rw [cellAt_tie rows x top bottom k y]
  exact ⟨rfl, rfl⟩

@[simp]
theorem marks_tiePending (rows : List Row) (b : Block) : marks (tiePending rows b) = marks rows := by
  rcases tiePending_cases rows b with h | ⟨_, _, _, _, h⟩
  · rw [h]
  · rw [h, marks_tie, marks_wireRowsTo]

/-- An instruction on a new row at the end of the sheet. -/
theorem marks_put_append (rows : List Row) (x : Nat) (i : Instruction) (n : Nat) :
    marks (put (rows ++ [[]]) x rows.length i n) = (marks rows).put x rows.length i n := by
  rw [marks_put _ _ _ _ (by simp), marks_append_nil]

theorem marks_series {s : Sheet} (i : Instruction) (n : Nat) (h : s.block.out < s.rows.length) :
    marks (s.series i n).rows = (marks s.rows).put s.block.width s.block.out i n := by
  rw [Sheet.series, marks_putWired _ _ _ _ (by simpa using h), marks_tiePending]

theorem marks_dropBranch {s : Sheet} {x top : Nat} {anchors : List (Nat × Nat)} (i : Instruction)
    (n : Nat) (keep : Bool) (ha : s.anchors = (x, top) :: anchors) :
    marks (s.dropBranch i n keep).rows = (marks s.rows).put x s.rows.length i n := by
  rw [Sheet.dropBranch, ha, marks_put _ _ _ _ (by simp), marks_tie, marks_append_nil]

theorem marks_joinSeries {s : Sheet} {a : Block} {waiting : List Block}
    (hw : s.waiting = a :: waiting) (ha : a.out < s.rows.length) :
    marks s.joinSeries.rows = (marks s.rows).shift s.block.top (a.width + 1) := by
  rw [← marks_tiePending s.rows a, rows_joinSeries hw]
  funext x y
  simp only [marks, Marking.shift, cellAt_junction _ _ _ _
    (by simpa using ha : a.out < (shiftRows (tiePending s.rows a) s.block.top (a.width + 1)).length),
    cellAt_shiftRows]
  split
  · split <;> rfl
  · rfl

/-! ## Room for every block -/

/-- A block has room: from its width on, nothing is drawn on its output row. -/
structure HasRoom (rows : List Row) (b : Block) : Prop where
  top_le : b.top ≤ b.out
  out_lt : b.out < rows.length
  room : ∀ x, b.width ≤ x → (marks rows x b.out).2 = none

/-- A sheet on which a program is drawn so far. -/
structure Placed (s : Sheet) (program : Program) : Prop where
  holds : (marks s.rows).Holds program
  room : ∀ b ∈ s.block :: s.waiting, HasRoom s.rows b
  nested : (s.block :: s.waiting).Pairwise fun b a => a.out < b.top
  started : s.waiting = [] ∨ ∃ n, program.IsDrawn n

theorem marks_of_height_le {rows : List Row} {y : Nat} (x : Nat) (h : rows.length ≤ y) :
    marks rows x y = (none, none) := by
  rw [marks, cellAt_of_height_le h]

/-- Blocks keep their room when an instruction is put into another row. -/
theorem HasRoom.put {rows rows' : List Row} {b : Block} (h : HasRoom rows b) {x y : Nat}
    {i : Instruction} {n : Nat} (hm : marks rows' = (marks rows).put x y i n)
    (hlen : rows.length ≤ rows'.length) (hy : b.out ≠ y) : HasRoom rows' b where
  top_le := h.top_le
  out_lt := Nat.lt_of_lt_of_le h.out_lt hlen
  room := fun x' hx => by
    rw [hm, Marking.put, if_neg (fun e => hy e.2)]
    exact h.room x' hx

/-- The block itself keeps room behind an instruction that is put at its end. -/
theorem HasRoom.put_end {rows rows' : List Row} {b : Block} (h : HasRoom rows b)
    {i : Instruction} {n : Nat} (hm : marks rows' = (marks rows).put b.width b.out i n)
    (hlen : rows.length ≤ rows'.length) (ys : List Nat) :
    HasRoom rows' { b with width := b.width + 1, pending := ys } where
  top_le := h.top_le
  out_lt := Nat.lt_of_lt_of_le h.out_lt hlen
  room := fun x hx => by
    have hx : b.width + 1 ≤ x := hx
    rw [hm, Marking.put, if_neg (by omega)]
    exact h.room x (by omega)

variable {s : Sheet} {program : Program} {i : Instruction}

theorem Placed.block_room (h : Placed s program) : HasRoom s.rows s.block :=
  h.room _ List.mem_cons_self

theorem Placed.waiting_lt (h : Placed s program) {a : Block} (ha : a ∈ s.waiting) :
    a.out < s.block.top :=
  (List.pairwise_cons.1 h.nested).1 a ha

theorem Placed.started_of_drawn (hi : i.isDrawn program.openBranches = true) :
    ∃ n, Program.IsDrawn (program ++ [i]) n :=
  ⟨program.length, (Program.isDrawn_length i).2 hi⟩

/-- Nothing is marked on a sheet without cells. -/
theorem marks_of_isBare (h : s.isBare = true) (x y : Nat) : marks s.rows x y = (none, none) := by
  have hc : cellAt s.rows x y = {} :=
    cellAt_of_length_le (by rw [isBare_iff.1 h y]; exact Nat.zero_le x)
  rw [marks, hc]

/-- No block waits before something is drawn. -/
theorem Placed.waiting_of_isBare (h : Placed s program) (hbare : s.isBare = true) :
    s.waiting = [] := by
  rcases h.started with hw | ⟨n, hn⟩
  · exact hw
  · obtain ⟨x, y, he⟩ := h.holds.drawn hn
    rw [marks_of_isBare hbare] at he
    exact nomatch he

theorem Placed.start (h : Placed s program) (hi : i.isDrawn program.openBranches = true) :
    Placed (s.start i program.length) (program ++ [i]) := by
  unfold Sheet.start
  split
  · next hbare =>
    have hnone := marks_of_isBare hbare
    have hw := h.waiting_of_isBare hbare
    have hlen : 0 < s.rows.length := Nat.zero_lt_of_lt h.block_room.out_lt
    have hm := marks_put s.rows 0 i program.length hlen
    constructor
    · simp only [hm]
      exact h.holds.put hi fun x _ => by rw [hnone]
    · simp only [hw, List.mem_singleton]
      rintro b rfl
      refine ⟨Nat.le_refl _, by simpa using hlen, fun x hx => ?_⟩
      have hx : 1 ≤ x := hx
      rw [hm, Marking.put, if_neg (by omega), hnone]
    · simp [hw]
    · exact .inl hw
  · have hm := marks_put_append s.rows 0 i program.length
    have hlen : s.rows.length ≤ (put (s.rows ++ [[]]) 0 s.rows.length i program.length).length := by
      simp
    constructor
    · simp only [hm]
      exact h.holds.put hi fun x _ => by rw [marks_of_height_le x (Nat.le_refl _)]
    · intro b hb
      rcases List.mem_cons.1 hb with rfl | hb
      · refine ⟨Nat.le_refl _, by simp, fun x hx => ?_⟩
        have hx : 1 ≤ x := hx
        rw [hm, Marking.put, if_neg (by omega), marks_of_height_le x (Nat.le_refl _)]
      · have hr := h.room b hb
        exact hr.put hm hlen (Nat.ne_of_lt hr.out_lt)
    · refine List.pairwise_cons.2 ⟨fun a ha => ?_, h.nested⟩
      exact (h.room a ha).out_lt
    · exact .inr (Placed.started_of_drawn hi)

theorem Placed.parallel (h : Placed s program) (hi : i.isDrawn program.openBranches = true) :
    Placed (s.parallel i program.length) (program ++ [i]) := by
  have hm := marks_put_append s.rows 0 i program.length
  have hlen : s.rows.length ≤ (put (s.rows ++ [[]]) 0 s.rows.length i program.length).length := by
    simp
  have hroom : ∀ b ∈ s.block :: s.waiting,
      HasRoom (put (s.rows ++ [[]]) 0 s.rows.length i program.length) b := fun b hb =>
    (h.room b hb).put hm hlen (Nat.ne_of_lt (h.room b hb).out_lt)
  unfold Sheet.parallel
  constructor
  · simp only [hm]
    exact h.holds.put hi fun x _ => by rw [marks_of_height_le x (Nat.le_refl _)]
  · intro b hb
    rcases List.mem_cons.1 hb with rfl | hb
    · have hr := hroom s.block List.mem_cons_self
      exact ⟨hr.top_le, hr.out_lt, hr.room⟩
    · exact hroom b (List.mem_cons_of_mem _ hb)
  · exact List.pairwise_cons.2 (List.pairwise_cons.1 h.nested)
  · exact .inr (Placed.started_of_drawn hi)

theorem Placed.series (h : Placed s program) (hi : i.isDrawn program.openBranches = true) :
    Placed (s.series i program.length) (program ++ [i]) := by
  have hr := h.block_room
  have hm := marks_series i program.length hr.out_lt
  have hlen : s.rows.length ≤ (s.series i program.length).rows.length := by simp [Sheet.series]
  constructor
  · rw [hm]
    exact h.holds.put hi hr.room
  · intro b hb
    rcases List.mem_cons.1 hb with rfl | hb
    · exact hr.put_end hm hlen []
    · have hlt := h.waiting_lt hb
      have := hr.top_le
      exact (h.room b (List.mem_cons_of_mem _ hb)).put hm hlen (by omega)
  · exact List.pairwise_cons.2 (List.pairwise_cons.1 h.nested)
  · exact .inr (Placed.started_of_drawn hi)

theorem Placed.pushBranch (h : Placed s program) (hi : i.isDrawn program.openBranches = true) :
    Placed (s.pushBranch i program.length) (program ++ [i]) :=
  have hs := h.series hi
  ⟨hs.holds, hs.room, hs.nested, hs.started⟩

/-- What was started stays so. -/
theorem Placed.started_append (h : Placed s program) {a : Block} {waiting : List Block}
    (hw : s.waiting = a :: waiting) (i : Instruction) : ∃ n, Program.IsDrawn (program ++ [i]) n := by
  rcases h.started with h₀ | ⟨n, hn⟩
  · rw [h₀] at hw
    exact nomatch hw
  · exact ⟨n, (Program.isDrawn_append i hn.lt).2 hn⟩

/-- A program goes on on the same sheet if the next instruction is not drawn. -/
theorem Placed.skip (h : Placed s program) (hi : i.isDrawn program.openBranches = false) :
    Placed s (program ++ [i]) where
  holds := h.holds.skip hi
  room := h.room
  nested := h.nested
  started := h.started.imp_right fun ⟨n, hn⟩ => ⟨n, (Program.isDrawn_append i hn.lt).2 hn⟩

theorem Placed.joinParallel (h : Placed s program) (hi : i.isDrawn program.openBranches = false) :
    Placed s.joinParallel (program ++ [i]) := by
  cases hw : s.waiting with
  | nil =>
    rw [Sheet.joinParallel, hw]
    exact h.skip hi
  | cons a waiting =>
    have hroom : ∀ b ∈ a :: waiting, HasRoom (wireRowsTo s.rows (a.rows ++ s.block.rows)
        (max a.width s.block.width)) b := fun b hb => by
      have hr := h.room b (List.mem_cons_of_mem _ (hw ▸ hb))
      exact ⟨hr.top_le, by simpa using hr.out_lt, fun x hx => by
        rw [marks_wireRowsTo]; exact hr.room x hx⟩
    have hnested := (List.pairwise_cons.1 (hw ▸ h.nested)).2
    rw [Sheet.joinParallel, hw]
    constructor
    · simp only [marks_wireRowsTo]
      exact h.holds.skip hi
    · intro b hb
      rcases List.mem_cons.1 hb with rfl | hb
      · have hr := hroom a List.mem_cons_self
        exact ⟨hr.top_le, hr.out_lt, fun x hx =>
          hr.room x (Nat.le_trans (Nat.le_max_left _ _) hx)⟩
      · exact hroom b (List.mem_cons_of_mem _ hb)
    · exact List.pairwise_cons.2 (List.pairwise_cons.1 hnested)
    · exact .inr (h.started_append hw i)

theorem Placed.joinSeries (h : Placed s program) (hi : i.isDrawn program.openBranches = false) :
    Placed s.joinSeries (program ++ [i]) := by
  cases hw : s.waiting with
  | nil =>
    rw [Sheet.joinSeries, hw]
    exact h.skip hi
  | cons a waiting =>
    have hb := h.block_room
    have ha := h.room a (List.mem_cons_of_mem _ (hw ▸ List.mem_cons_self))
    have hab : a.out < s.block.top := h.waiting_lt (hw ▸ List.mem_cons_self)
    have hnested := (List.pairwise_cons.1 (hw ▸ h.nested)).2
    have hm := marks_joinSeries hw ha.out_lt
    have hlen : s.joinSeries.rows.length = s.rows.length := by
      rw [rows_joinSeries hw, length_junction, length_shiftRows, length_tiePending]
    have hblock := block_joinSeries hw
    have hwaiting := waiting_joinSeries hw
    constructor
    · rw [hm]
      exact (h.holds.skip hi).shift _ _
    · rw [hblock, hwaiting]
      intro b hmem
      rcases List.mem_cons.1 hmem with rfl | hmem
      · have hle := hb.top_le
        have hle' := ha.top_le
        refine ⟨by simp only; omega, by rw [hlen]; exact hb.out_lt, fun x hx => ?_⟩
        have hx : a.width + 1 + s.block.width ≤ x := hx
        rw [hm, Marking.shift, if_pos hle, if_neg (by omega)]
        exact hb.room _ (by omega)
      · -- the rows of the blocks that still wait lie above the rows that move
        have hr := h.room b (List.mem_cons_of_mem _ (hw ▸ List.mem_cons_of_mem _ hmem))
        have hlt := (List.pairwise_cons.1 hnested).1 b hmem
        have hle := ha.top_le
        refine ⟨hr.top_le, by rw [hlen]; exact hr.out_lt, fun x hx => ?_⟩
        rw [hm, Marking.shift, if_neg (by omega)]
        exact hr.room x hx
    · rw [hblock, hwaiting]
      exact List.pairwise_cons.2 (List.pairwise_cons.1 hnested)
    · exact .inr (h.started_append hw i)

theorem Placed.dropBranch (h : Placed s program) {x top : Nat} {anchors : List (Nat × Nat)}
    (ha : s.anchors = (x, top) :: anchors) (hi : i.isDrawn program.openBranches = true)
    (keep : Bool) : Placed (s.dropBranch i program.length keep) (program ++ [i]) := by
  have hm := marks_dropBranch i program.length keep ha
  have hlen : (s.dropBranch i program.length keep).rows.length = s.rows.length + 1 := by
    simp [Sheet.dropBranch, ha]
  have hblocks : (s.dropBranch i program.length keep).block =
        { s.block with width := x + 1, out := s.rows.length, pending := [] } ∧
      (s.dropBranch i program.length keep).waiting = s.waiting := by
    simp [Sheet.dropBranch, ha]
  constructor
  · rw [hm]
    exact h.holds.put hi fun x _ => by rw [marks_of_height_le x (Nat.le_refl _)]
  · rw [hblocks.1, hblocks.2]
    intro b hb
    rcases List.mem_cons.1 hb with rfl | hb
    · have hr := h.block_room
      have hle := hr.top_le
      have hlt := hr.out_lt
      refine ⟨by simp only; omega, by simp only; omega, fun x' hx => ?_⟩
      have hx : x + 1 ≤ x' := hx
      rw [hm, Marking.put, if_neg (by omega), marks_of_height_le x' (Nat.le_refl _)]
    · have hr := h.room b (List.mem_cons_of_mem _ hb)
      exact hr.put hm (by omega) (Nat.ne_of_lt hr.out_lt)
  · rw [hblocks.1, hblocks.2]
    exact List.pairwise_cons.2 (List.pairwise_cons.1 h.nested)
  · rw [hblocks.2]
    exact .inr (Placed.started_of_drawn hi)

/-- **One instruction.** A sheet stays well placed, whatever the instruction is. -/
theorem Placed.draw (h : Placed s program) (ha : s.anchors.length = program.openBranches)
    (i : Instruction) : Placed (s.draw i program.length) (program ++ [i]) := by
  unfold Sheet.draw
  -- whether a read or a pop is drawn hangs on the anchors
  have hdrop (keep : Bool) (hi : i.isDrawn program.openBranches = decide (0 < program.openBranches)) :
      Placed (s.dropBranch i program.length keep) (program ++ [i]) := by
    cases hs : s.anchors with
    | nil =>
      rw [Sheet.dropBranch, hs]
      exact h.skip (by rw [hi, ← ha, hs]; rfl)
    | cons anchor anchors =>
      exact h.dropBranch hs (by rw [hi, ← ha, hs]; simp) keep
  split
  · next hop => exact h.start (by simp [Instruction.isDrawn, hop])
  · next hop => exact h.parallel (by simp [Instruction.isDrawn, hop])
  · next hop => exact h.series (by simp [Instruction.isDrawn, hop])
  · next hop => exact h.series (by simp [Instruction.isDrawn, hop])
  · next hop => exact h.joinParallel (by simp [Instruction.isDrawn, hop])
  · next hop => exact h.joinSeries (by simp [Instruction.isDrawn, hop])
  · next hop => exact h.pushBranch (by simp [Instruction.isDrawn, hop])
  · next hop => exact hdrop true (by simp [Instruction.isDrawn, hop])
  · next hop => exact hdrop false (by simp [Instruction.isDrawn, hop])
  · next hop => exact h.skip (by simp [Instruction.isDrawn, hop])

end Sheet

namespace Program

open Sheet

/-- An anchor stands on the sheet for every open branch. -/
theorem length_anchors_sheet (program : Program) :
    (sheet program).anchors.length = program.openBranches := by
  induction program using List.reverseRecOn with
  | nil => rfl
  | append_singleton program i ih =>
    rw [sheet_append, openBranches_append, ← ih]
    unfold Sheet.draw
    split
    · next hop =>
      unfold Sheet.start
      split <;> simp [hop]
    · next hop => simp [Sheet.parallel, hop]
    · next hop => simp [Sheet.series, hop]
    · next hop => simp [Sheet.series, hop]
    · next hop =>
      unfold Sheet.joinParallel
      split <;> simp [hop]
    · next hop =>
      unfold Sheet.joinSeries
      split <;> simp [hop]
    · next hop => simp [Sheet.pushBranch, hop]
    · next hop =>
      unfold Sheet.dropBranch
      split <;> simp [hop]
    · next hop =>
      unfold Sheet.dropBranch
      split
      · next ha => simp [hop, ha]
      · next ha => simp [hop, ha]
    · next hop => simp [hop]

/-- **Every program is well placed.** -/
theorem placed_sheet (program : Program) : Placed (sheet program) program := by
  induction program using List.reverseRecOn with
  | nil =>
    have hm : marks (sheet []).rows = fun _ _ => (none, none) := by
      funext x y
      exact marks_of_isBare rfl x y
    refine ⟨hm ▸ Marking.holds_nil, fun b hb => ?_, List.pairwise_singleton _ _, .inl rfl⟩
    obtain rfl := List.mem_singleton.1 hb
    exact ⟨Nat.le_refl 0, Nat.zero_lt_one, fun x _ => by rw [hm]⟩
  | append_singleton program i ih =>
    rw [sheet_append]
    exact ih.draw (length_anchors_sheet program) i

/-- The cell of a drawn instruction, and no other one, has its index. -/
theorem exists_cell_of_isDrawn {program : Program} {n : Nat} (h : program.IsDrawn n) :
    ∃ x y c, program.layout.cell? x y = some c ∧ c.source = some n ∧ c.instruction = program[n]? ∧
      ∀ x' y' c', program.layout.cell? x' y' = some c' → c'.source = some n → x' = x ∧ y' = y := by
  have hp := placed_sheet program
  obtain ⟨x, y, hn⟩ := hp.holds.drawn h
  have hne : cellAt (sheet program).rows x y ≠ {} := by
    intro he
    rw [marks, he] at hn
    exact nomatch hn
  have hin := mem_toDiagram_of_ne hne
  refine ⟨x, y, (cellAt (sheet program).rows x y).placed x y, ?_, hn, (hp.holds.sound hn).2, ?_⟩
  · rw [layout_eq, cell?_toDiagram, if_pos hin]
  · intro x' y' c' hc' hn'
    rw [layout_eq, cell?_toDiagram] at hc'
    split at hc'
    · obtain rfl := Option.some.inj hc'
      exact hp.holds.unique (x := x') (y := y') hn' hn
    · exact nomatch hc'

theorem marks_of_cell? {program : Program} {x y : Nat} {c : GridCell}
    (h : program.layout.cell? x y = some c) :
    marks (sheet program).rows x y = (c.instruction, c.source) := by
  rw [marks, cellAt_of_cell? h]

/-- **Drawing loses, doubles and overwrites nothing.** The diagram of any program is a full rectangle
of cells, and each of them carries the column and the row where it stands. An instruction that is drawn
has exactly one cell, which holds it; no cell has the index of another one, and a cell without an index
holds no instruction. Along a row the indices increase. -/
theorem layout_places_each_once (program : Program) :
    program.layout.IsRectangular ∧
    (∀ x y, (program.layout.cell? x y).isSome = true ↔
      x < program.layout.width ∧ y < program.layout.height) ∧
    (∀ (x y : Nat) c, program.layout.cell? x y = some c → c.x = x ∧ c.y = y) ∧
    (∀ n i, program[n]? = some i → i.isDrawn (openBranches (program.take n)) = true →
      ∃ x y c, program.layout.cell? x y = some c ∧ c.source = some n ∧ c.instruction = some i ∧
        ∀ x' y' c', program.layout.cell? x' y' = some c' → c'.source = some n → x' = x ∧ y' = y) ∧
    (∀ n, (∀ i, program[n]? = some i → i.isDrawn (openBranches (program.take n)) = false) →
      ∀ x y c, program.layout.cell? x y = some c → c.source ≠ some n) ∧
    (∀ x y c, program.layout.cell? x y = some c → c.source = none → c.instruction = none) ∧
    (∀ x x' y c c' n n', x < x' → program.layout.cell? x y = some c →
      program.layout.cell? x' y = some c' → c.source = some n → c'.source = some n' → n < n') := by
  have hp := (placed_sheet program).holds
  refine ⟨layout_eq program ▸ isRectangular_toDiagram _, fun x y => ?_, fun x y c hc => ?_, fun n i hi hd => ?_,
    fun n hn x y c hc he => ?_, fun x y c hc he => ?_, fun x x' y c c' n n' hx hc hc' he he' => ?_⟩
  · rw [layout_eq, cell?_toDiagram]
    split
    · next h => exact ⟨fun _ => h, fun _ => rfl⟩
    · next h => exact ⟨fun hf => absurd hf Bool.false_ne_true, fun h' => absurd h' h⟩
  · rw [eq_placed_of_cell? hc]
    exact ⟨rfl, rfl⟩
  · rw [← hi]
    exact exists_cell_of_isDrawn ⟨i, hi, hd⟩
  · have hm := marks_of_cell? hc
    obtain ⟨⟨i, hi, hd⟩, -⟩ := hp.sound (x := x) (y := y) (n := n) (by rw [hm]; exact he)
    rw [hn i hi] at hd
    exact absurd hd Bool.false_ne_true
  · have hm := marks_of_cell? hc
    have hb := hp.blank (x := x) (y := y)
    rw [hm] at hb
    exact hb he
  · have hm := marks_of_cell? hc
    have hm' := marks_of_cell? hc'
    exact hp.sorted hx (by rw [hm]; exact he) (by rw [hm']; exact he')

end Program
end LadderLogic
