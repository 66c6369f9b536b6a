import LadderLogic.Proofs.Links

/-!
# Power in a picture

A picture is drawn in strokes. Most of them are the same whatever has power on it, and the others are
wire on the outlet of a cell. Wire is never blank, with power or without, so that all pictures of a
diagram are trimmed at the same places: each of them is one and the same list of strokes, drawn for
other live terminals (`render_eq_map_strokes`). And a cell has wire among its strokes exactly if it is
fed or has a stub to the right that no label and no junction takes the place of
(`wire_mem_strokes_iff`).

Main statement: two pictures of a diagram are of one length and differ in wire only, and wherever a
cell draws wire they show the power on its outlet.

Source: `GridFormatter.format` (section 2 of the specification).
-/

namespace LadderLogic

section Lists

variable {α β : Type}

theorem map_intercalate (f : α → β) (separator : List α) (pieces : List (List α)) :
    (separator.intercalate pieces).map f = (separator.map f).intercalate (pieces.map (List.map f)) := by
  induction pieces with
  | nil => rfl
  | cons piece rest ih =>
    cases rest with
    | nil => simp
    | cons next rest =>
      rw [List.intercalate_cons_cons, List.map_append, List.map_append, ih, List.map_cons, List.map_cons,
        List.map_cons, List.intercalate_cons_cons]

/-- What is not in the separator is in one of the pieces. -/
theorem mem_intercalate_iff {separator : List α} {pieces : List (List α)} {a : α}
    (h : a ∉ separator) : a ∈ separator.intercalate pieces ↔ a ∈ pieces.flatten := by
  induction pieces with
  | nil => rfl
  | cons piece rest ih =>
    cases rest with
    | nil => simp
    | cons next rest =>
      rw [List.intercalate_cons_cons, List.flatten_cons, List.mem_append, List.mem_append, List.mem_append,
        ih, or_iff_left h]

end Lists

namespace Picture

/-- A stroke of a picture: a code point that is always the same, or wire on a terminal. -/
inductive Stroke where
  | ink (c : CodePoint)
  | wire (t : Terminal Int)
  deriving DecidableEq

namespace Stroke

/-- The code point of a stroke, where `live` tells which terminals have power on them. -/
def drawn (live : Terminal Int → Bool) : Stroke → CodePoint
  | .ink c => c
  | .wire t => Picture.wire (live t)

/-- Whether a stroke leaves its place blank. -/
def isBlank : Stroke → Bool
  | .ink c => Text.isBlank c
  | .wire _ => false

/-- Wire on a terminal, or a blank where there is none. -/
def fill (hasWire : Bool) (t : Terminal Int) : Stroke := if hasWire then .wire t else .ink ' '

theorem isBlank_drawn (live : Terminal Int → Bool) (s : Stroke) :
    Text.isBlank (s.drawn live) = s.isBlank := by
  cases s with
  | ink c => rfl
  | wire t =>
    rw [drawn]
    cases live t <;> rfl

theorem drawn_fill (live : Terminal Int → Bool) (hasWire : Bool) (t : Terminal Int) :
    (fill hasWire t).drawn live = if hasWire then Picture.wire (live t) else .char ' ' := by
  cases hasWire <;> rfl

theorem fill_eq_wire_iff {hasWire : Bool} {t u : Terminal Int} :
    fill hasWire t = .wire u ↔ hasWire = true ∧ t = u := by
  cases hasWire <;> simp [fill]

theorem map_drawn_ink (live : Terminal Int → Bool) (text : Text) :
    (text.map ink).map (drawn live) = text := by
  rw [List.map_map]
  exact List.map_id text

end Stroke

/-! ## The strokes of a picture -/

/-- The strokes in the middle of a cell with the outlet `t`. -/
def bodyStrokes (c : Cell) (atRail : Bool) (t : Terminal Int) : List Stroke :=
  match c.instruction with
  | some i =>
    let around := labelWidth - (label i).length
    let fill := Stroke.fill (isFed c atRail) t
    List.replicate (around / 2 + around % 2) fill ++ (label i).map .ink ++
      List.replicate (around / 2) fill
  | none => List.replicate labelWidth (.fill (c.left || c.right) t)

/-- The stroke at the right of a cell. -/
def edgeStroke (c : Cell) (t : Terminal Int) : Stroke :=
  if c.up || c.down then .ink '+' else .fill c.right t

/-- The strokes of a cell. -/
def cellStrokes (c : Cell) (atRail : Bool) (t : Terminal Int) : List Stroke :=
  .fill (isFed c atRail) t :: (bodyStrokes c atRail t ++ [edgeStroke c t])

/-- The strokes of a cell in its place. -/
def placedStrokes (c : GridCell) : List Stroke := cellStrokes c.toCell (c.x == 0) (outlet c)

/-- The strokes of the line of a row. -/
def rowStrokes (row : List GridCell) : List Stroke :=
  List.rdropWhile Stroke.isBlank (.ink '|' :: row.flatMap placedStrokes)

/-- The strokes of the lines of a row. -/
def rowStrokeLines (row : List GridCell) : List (List Stroke) :=
  if row.any (·.down) then [rowStrokes row, (linkLine row).map .ink] else [rowStrokes row]

/-- The strokes of a picture. -/
def strokes (d : Diagram) : List Stroke :=
  [Stroke.ink '\n'].intercalate (d.rows.flatMap rowStrokeLines)

variable {c : Cell} {row : List GridCell}

theorem map_bodyStrokes (c : Cell) (atRail : Bool) (t : Terminal Int) (live : Terminal Int → Bool) :
    (bodyStrokes c atRail t).map (Stroke.drawn live) = body c atRail (live t) := by
  rw [bodyStrokes, body]
  cases c.instruction with
  | some i =>
    simp only [List.map_append, List.map_replicate, Stroke.map_drawn_ink, Stroke.drawn_fill, centred]
  | none => simp only [List.map_replicate, Stroke.drawn_fill]

theorem drawn_edgeStroke (c : Cell) (t : Terminal Int) (live : Terminal Int → Bool) :
    (edgeStroke c t).drawn live = rightEdge c (live t) := by
  unfold edgeStroke rightEdge
  split
  · rfl
  · exact Stroke.drawn_fill live c.right t

theorem map_cellStrokes (c : Cell) (atRail : Bool) (t : Terminal Int) (live : Terminal Int → Bool) :
    (cellStrokes c atRail t).map (Stroke.drawn live) = cellText c atRail (live t) := by
  rw [cellStrokes, List.map_cons, List.map_append, Stroke.drawn_fill, map_bodyStrokes, List.map_singleton,
    drawn_edgeStroke, cellText]

/-- Blanks at the end are the same in all pictures. -/
theorem map_rdropWhile (strokes : List Stroke) (live : Terminal Int → Bool) :
    (strokes.rdropWhile Stroke.isBlank).map (Stroke.drawn live) =
      Text.trimEnd (strokes.map (Stroke.drawn live)) := by
  have hblank : Text.isBlank ∘ Stroke.drawn live = Stroke.isBlank := funext (Stroke.isBlank_drawn live)
  rw [List.rdropWhile, Text.trimEnd, List.map_reverse, ← List.map_reverse (l := strokes),
    List.dropWhile_map, hblank]

theorem map_rowStrokes (row : List GridCell) (live : Terminal Int → Bool) :
    (rowStrokes row).map (Stroke.drawn live) = rowLine row live := by
  rw [rowStrokes, map_rdropWhile, rowLine, List.map_cons, List.map_flatMap]
  simp only [placedStrokes, map_cellStrokes]
  rfl

theorem map_rowStrokeLines (row : List GridCell) (live : Terminal Int → Bool) :
    (rowStrokeLines row).map (List.map (Stroke.drawn live)) = rowLines row live := by
  unfold rowStrokeLines rowLines
  split
  · rw [List.map_cons, List.map_singleton, map_rowStrokes, Stroke.map_drawn_ink]
  · rw [List.map_singleton, map_rowStrokes]

/-- A picture is its strokes, drawn for the live terminals. -/
theorem render_eq_map_strokes (d : Diagram) (live : Terminal Int → Bool) :
    render d live = (strokes d).map (Stroke.drawn live) := by
  rw [strokes, map_intercalate, List.map_flatMap]
  simp only [map_rowStrokeLines]
  rfl

/-! ## Cells that draw wire -/

/-- Whether wire is drawn in a cell: it is fed, or it has a stub to the right that is seen in its middle
or at its right edge. -/
def drawsWire (c : Cell) (atRail : Bool) : Bool :=
  isFed c atRail || (c.right && (c.instruction.isNone || !(c.up || c.down)))

/-- Wire in the middle of a cell comes from the left, or, where no label is in its way, from the right. -/
theorem of_wire_mem_bodyStrokes {atRail : Bool} {t u : Terminal Int}
    (h : .wire u ∈ bodyStrokes c atRail t) :
    (isFed c atRail = true ∨ c.right = true ∧ c.instruction.isNone = true) ∧ t = u := by
  rw [bodyStrokes] at h
  cases hi : c.instruction with
  | some i =>
    have hink : Stroke.wire u ∉ (label i).map .ink := by simp
    simp only [hi, List.mem_append, List.mem_replicate, hink, or_false, ← or_and_right] at h
    obtain ⟨hfed, ht⟩ := Stroke.fill_eq_wire_iff.1 h.2.symm
    exact ⟨.inl hfed, ht⟩
  | none =>
    simp only [hi, List.mem_replicate] at h
    obtain ⟨hstub, ht⟩ := Stroke.fill_eq_wire_iff.1 h.2.symm
    refine ⟨?_, ht⟩
    rcases Bool.or_eq_true_iff.1 hstub with hleft | hright
    · exact .inl (by rw [isFed, hleft, Bool.true_or])
    · exact .inr ⟨hright, rfl⟩

theorem edgeStroke_eq_wire_iff {t u : Terminal Int} :
    edgeStroke c t = .wire u ↔ (c.right && !(c.up || c.down)) = true ∧ t = u := by
  unfold edgeStroke
  split
  · next hup => simp [hup]
  · next hup => simp [Stroke.fill_eq_wire_iff, hup]

theorem wire_mem_cellStrokes_iff {atRail : Bool} {t u : Terminal Int} :
    .wire u ∈ cellStrokes c atRail t ↔ drawsWire c atRail = true ∧ t = u := by
  rw [cellStrokes, List.mem_cons, List.mem_append, List.mem_singleton, eq_comm, Stroke.fill_eq_wire_iff,
    eq_comm (b := edgeStroke c t), edgeStroke_eq_wire_iff, drawsWire]
  constructor
  · rintro (⟨hfed, ht⟩ | hbody | ⟨hedge, ht⟩)
    · simp [hfed, ht]
    · obtain ⟨hfed | ⟨hright, hnone⟩, ht⟩ := of_wire_mem_bodyStrokes hbody
      · simp [hfed, ht]
      · simp [hright, hnone, ht]
    · simp_all
  · rintro ⟨hdraws, rfl⟩
    rcases Bool.or_eq_true_iff.1 hdraws with hfed | hright
    · exact .inl ⟨hfed, rfl⟩
    · obtain ⟨hright, hnone | hopen⟩ := by
        simpa only [Bool.and_eq_true, Bool.or_eq_true] using hright
      · refine .inr (.inl ?_)
        rw [bodyStrokes, Option.isNone_iff_eq_none.1 hnone]
        simp [Stroke.fill, hright, labelWidth]
      · exact .inr (.inr ⟨by simp [hright, hopen], rfl⟩)

/-- Trimming leaves all strokes but blanks. -/
theorem wire_mem_rdropWhile_iff {strokes : List Stroke} {t : Terminal Int} :
    .wire t ∈ strokes.rdropWhile Stroke.isBlank ↔ .wire t ∈ strokes := by
  refine ⟨fun h => (List.rdropWhile_prefix Stroke.isBlank strokes).subset h, fun h => ?_⟩
  rw [← List.rdropWhile_append_rtakeWhile (p := Stroke.isBlank) (l := strokes), List.mem_append] at h
  refine h.resolve_right fun h => ?_
  cases List.mem_rtakeWhile_imp h

theorem wire_mem_rowStrokes_iff {t : Terminal Int} :
    .wire t ∈ rowStrokes row ↔ ∃ c ∈ row, drawsWire c.toCell (c.x == 0) = true ∧ outlet c = t := by
  rw [rowStrokes, wire_mem_rdropWhile_iff, List.mem_cons, or_iff_right (by simp), List.mem_flatMap]
  simp only [placedStrokes, wire_mem_cellStrokes_iff]

theorem wire_mem_rowStrokeLines_iff {t : Terminal Int} :
    .wire t ∈ (rowStrokeLines row).flatten ↔ .wire t ∈ rowStrokes row := by
  unfold rowStrokeLines
  split <;> simp

/-- The wire of a picture stands on the outlets of the cells that draw wire. -/
theorem wire_mem_strokes_iff {d : Diagram} {t : Terminal Int} :
    .wire t ∈ strokes d ↔
      ∃ row ∈ d.rows, ∃ c ∈ row, drawsWire c.toCell (c.x == 0) = true ∧ outlet c = t := by
  rw [strokes, mem_intercalate_iff (by simp), List.flatMap, List.flatten_flatten, List.mem_flatten]
  simp only [List.map_map, List.mem_map, Function.comp_apply, exists_exists_and_eq_and,
    wire_mem_rowStrokeLines_iff, wire_mem_rowStrokes_iff]

/-! ## Two pictures of a diagram -/

theorem wire_inj {a b : Bool} : wire a = wire b ↔ a = b := by
  cases a <;> cases b <;> decide

/-- Two texts differ in wire only: they are of one length, and at every place they have the same code
point, or one of them has dead wire and the other live wire there. -/
def SameDrawing (a b : Text) : Prop :=
  a.length = b.length ∧ ∀ n : Nat, a[n]? = b[n]? ∨
    (a[n]? = some (.char '-') ∧ b[n]? = some (.char '=')) ∨
      (a[n]? = some (.char '=') ∧ b[n]? = some (.char '-'))

theorem sameDrawing_map (strokes : List Stroke) (live live' : Terminal Int → Bool) :
    SameDrawing (strokes.map (Stroke.drawn live)) (strokes.map (Stroke.drawn live')) := by
  refine ⟨by rw [List.length_map, List.length_map], fun n => ?_⟩
  rw [List.getElem?_map, List.getElem?_map]
  cases strokes[n]? with
  | none => exact .inl rfl
  | some stroke =>
    cases stroke with
    | ink c => exact .inl rfl
    | wire t =>
      simp only [Option.map_some, Stroke.drawn]
      cases live t <;> cases live' t <;> decide

/-- **Power changes nothing but the wire of a picture.** Two pictures of a diagram, whatever its cells are
and whatever places they carry, and whatever has power on it in each of them, are of one length and
differ in wire only. They are the same exactly if the same cells that draw wire have power on their
outlets. -/
theorem sameDrawing_render (d : Diagram) (live live' : Terminal Int → Bool) :
    SameDrawing (render d live) (render d live') ∧
      (render d live = render d live' ↔ ∀ row ∈ d.rows, ∀ c ∈ row,
        drawsWire c.toCell (c.x == 0) = true → live (outlet c) = live' (outlet c)) := by
  rw [render_eq_map_strokes, render_eq_map_strokes]
  refine ⟨sameDrawing_map (strokes d) live live', List.map_inj_left.trans ⟨fun h row hrow c hc hdraws => ?_,
    fun h stroke hmem => ?_⟩⟩
  · exact wire_inj.1 (h _ (wire_mem_strokes_iff.2 ⟨row, hrow, c, hc, hdraws, rfl⟩))
  · cases stroke with
    | ink c => rfl
    | wire t =>
      obtain ⟨row, hrow, c, hc, hdraws, rfl⟩ := wire_mem_strokes_iff.1 hmem
      exact congrArg wire (h row hrow c hc hdraws)

end Picture
end LadderLogic
