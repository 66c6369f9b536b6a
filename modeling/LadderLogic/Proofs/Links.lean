import LadderLogic.Diagram.Picture
import LadderLogic.Proofs.Wiring
import Mathlib.Data.List.DropRight

/-!
# Links in a picture

Every cell of a picture has the same number of code points, whatever its label is. So the right edge of
a cell, and the link below it, stand in a column that hangs on the place of the cell alone. Trimming
takes blanks only, and never what stands in front of a junction or a link. A link goes down to a cell
that has a stub up, as the stubs of the diagram meet, and there the picture has a junction too.

Main statement: the lines of the picture of a program go with the rows of its diagram, and its links
stand between junctions.

Source: `GridFormatter.format` on what `layout` gives (sections 2 and 4.1 of the specification).
-/

namespace LadderLogic

namespace Text

/-- What trimming cuts off is blank. -/
theorem exists_trimEnd (text : Text) :
    ∃ blanks, text = trimEnd text ++ blanks ∧ ∀ c ∈ blanks, isBlank c = true := by
  refine ⟨(text.reverse.takeWhile isBlank).reverse, ?_, fun c hc => ?_⟩
  · rw [trimEnd, ← List.reverse_append, List.takeWhile_append_dropWhile, List.reverse_reverse]
  · exact List.mem_takeWhile_imp (List.mem_reverse.1 hc)

/-- Trimming leaves every code point in its place that is no blank. -/
theorem getElem?_trimEnd {text : Text} {k : Nat} {c : CodePoint} (hc : isBlank c = false) :
    (trimEnd text)[k]? = some c ↔ text[k]? = some c := by
  obtain ⟨blanks, htext, hblank⟩ := exists_trimEnd text
  have happend := congrArg (·[k]?) htext
  rcases Nat.lt_or_ge k (trimEnd text).length with hk | hk
  · rw [happend, List.getElem?_append_left hk]
  · rw [happend, List.getElem?_append_right hk, List.getElem?_eq_none hk]
    refine ⟨nofun, fun h => ?_⟩
    rw [hblank c (List.mem_of_getElem? h)] at hc
    cases hc

theorem mem_of_mem_trimEnd {text : Text} {c : CodePoint} (h : c ∈ trimEnd text) : c ∈ text :=
  (List.rdropWhile_prefix isBlank text).subset h

end Text

/-- In pieces of one length, put one behind the other, each place is found in its piece. -/
theorem getElem?_flatten_of_length {α : Type} {pieces : List (List α)} {n k : Nat}
    (h : ∀ piece ∈ pieces, piece.length = n) (hk : k < n) (x : Nat) :
    pieces.flatten[n * x + k]? = pieces[x]?.bind (·[k]?) := by
  induction pieces generalizing x with
  | nil => rfl
  | cons piece pieces ih =>
    obtain ⟨hpiece, hrest⟩ := List.forall_mem_cons.1 h
    rw [List.flatten_cons]
    cases x with
    | zero =>
      rw [Nat.mul_zero, Nat.zero_add, List.getElem?_append_left (by omega)]
      rfl
    | succ x =>
      have hplace : n * (x + 1) + k = piece.length + (n * x + k) := by
        rw [Nat.mul_succ, hpiece]
        omega
      rw [hplace, List.getElem?_append_right (Nat.le_add_right _ _), Nat.add_sub_cancel_left,
        ih hrest, List.getElem?_cons_succ]

namespace Picture

/-! ## Cells -/

variable {c : GridCell} {row : List GridCell} {live : Terminal Int → Bool} {x k : Nat}

theorem length_centred {label : Text} (h : label.length ≤ labelWidth) (fill : CodePoint) :
    (centred fill label).length = labelWidth := by
  simp only [centred, List.length_append, List.length_replicate]
  omega

theorem length_body (c : Cell) (atRail live : Bool) : (body c atRail live).length = labelWidth := by
  unfold body
  split
  · exact length_centred (List.length_take_le _ _) _
  · exact List.length_replicate

theorem length_cellText (c : Cell) (atRail live : Bool) : (cellText c atRail live).length = 9 := by
  rw [cellText, List.length_cons, List.length_append, length_body]
  rfl

/-- The right edge is the last code point of a cell. -/
theorem getElem?_cellText (c : Cell) (atRail live : Bool) :
    (cellText c atRail live)[8]? = some (rightEdge c live) := by
  have hlen : (body c atRail live).length = 7 := length_body c atRail live
  rw [cellText, List.getElem?_cons_succ, List.getElem?_append_right (Nat.le_of_eq hlen), hlen]
  rfl

theorem length_placedText (live : Terminal Int → Bool) (c : GridCell) :
    (placedText live c).length = 9 :=
  length_cellText _ _ _

theorem length_link (c : GridCell) : (link c).length = 9 := rfl

/-- A link is the last code point of its cell, and all others are blanks. -/
theorem getElem?_link (c : GridCell) (hk : k < 9) :
    (link c)[k]? = some (if k = 8 ∧ c.down = true then .char '|' else .char ' ') := by
  rcases Nat.lt_or_eq_of_le (Nat.le_of_lt_succ hk) with hk | rfl
  · have hblanks : (List.replicate 8 (CodePoint.char ' '))[k]? = some (.char ' ') := by
      rw [List.getElem?_replicate, if_pos hk]
    rw [link, List.getElem?_append_left (by simpa [labelWidth] using hk), if_neg (by omega)]
    exact hblanks
  · rw [link, List.getElem?_append_right (by simp [labelWidth])]
    simp [labelWidth]

/-! ## Lines of a row -/

/-- A cell with a tie has a junction at its right edge. -/
theorem getElem?_rowLine (hc : row[x]? = some c) (htie : (c.up || c.down) = true) :
    (rowLine row live)[9 * (x + 1)]? = some (.char '+') := by
  refine (Text.getElem?_trimEnd rfl).2 ?_
  have hedge : rightEdge c.toCell (live (outlet c)) = .char '+' := if_pos htie
  have hlen : ∀ piece ∈ row.map (placedText live), piece.length = 9 := by
    intro piece hp
    obtain ⟨c, -, rfl⟩ := List.mem_map.1 hp
    exact length_placedText live c
  rw [show 9 * (x + 1) = 9 * x + 8 + 1 by omega, List.getElem?_cons_succ, List.flatMap,
    getElem?_flatten_of_length hlen (by decide), List.getElem?_map, hc, Option.map_some,
    Option.bind_some, placedText, getElem?_cellText, hedge]

/-- What a line with links is before it is trimmed: a link behind each cell. -/
theorem getElem?_links (row : List GridCell) (hk : k < 9) (x : Nat) :
    (row.flatMap link)[9 * x + k]? =
      row[x]?.map fun c => if k = 8 ∧ c.down = true then .char '|' else .char ' ' := by
  have hlen : ∀ piece ∈ row.map link, piece.length = 9 := by
    intro piece hp
    obtain ⟨c, -, rfl⟩ := List.mem_map.1 hp
    exact length_link c
  rw [List.flatMap, getElem?_flatten_of_length hlen hk, List.getElem?_map]
  cases row[x]? with
  | none => rfl
  | some c => exact getElem?_link c hk

theorem getElem?_linkLine (hc : row[x]? = some c) (hdown : c.down = true) :
    (linkLine row)[9 * (x + 1)]? = some (.char '|') := by
  refine (Text.getElem?_trimEnd rfl).2 ?_
  rw [show 9 * (x + 1) = 9 * x + 8 + 1 by omega, List.getElem?_cons_succ,
    getElem?_links row (by decide), hc, Option.map_some, if_pos ⟨rfl, hdown⟩]

/-- Every link of a line stands behind a cell with a stub down. -/
theorem exists_of_getElem?_linkLine (h : (linkLine row)[k]? = some (.char '|')) :
    k = 0 ∨ ∃ x c, row[x]? = some c ∧ c.down = true ∧ k = 9 * (x + 1) := by
  cases k with
  | zero => exact .inl rfl
  | succ k =>
    rw [linkLine, Text.getElem?_trimEnd rfl, List.getElem?_cons_succ, ← Nat.div_add_mod k 9,
      getElem?_links row (Nat.mod_lt k (by decide)), Option.map_eq_some_iff] at h
    obtain ⟨c, hc, hchar⟩ := h
    split at hchar
    · next hlast => exact .inr ⟨k / 9, c, hc, hlast.2, by omega⟩
    · cases hchar

end Picture

/-! ## Line feeds -/

/-- No text of an instruction has a line feed in it. -/
def Instruction.IsOneLine (i : Instruction) : Prop :=
  CodePoint.char '\n' ∉ i.operation.name ∧ CodePoint.char '\n' ∉ i.value ∧
    ∀ text ∈ i.args, CodePoint.char '\n' ∉ text

instance (i : Instruction) : Decidable i.IsOneLine :=
  inferInstanceAs (Decidable (CodePoint.char '\n' ∉ i.operation.name ∧
    CodePoint.char '\n' ∉ i.value ∧ ∀ text ∈ i.args, CodePoint.char '\n' ∉ text))

theorem Instruction.IsOneLine.arg {i : Instruction} (h : i.IsOneLine) (k : Nat) {default : Text}
    (hd : CodePoint.char '\n' ∉ default) : CodePoint.char '\n' ∉ i.arg k default := by
  rw [Instruction.arg, List.getD_eq_getElem?_getD]
  cases ha : i.args[k]? with
  | none => exact hd
  | some text => exact h.2.2 text (List.mem_of_getElem? ha)

namespace Picture

variable {i : Instruction} {c : Cell} {row : List GridCell}

theorem lineFeed_notMem_fullLabel (h : i.IsOneLine) : CodePoint.char '\n' ∉ fullLabel i := by
  have hvalue := h.2.1
  have hname := h.1
  unfold fullLabel
  split
  · simp [hvalue]
  · simp [hvalue]
  · simp [hvalue, h.arg 1]
  · simp [hvalue]
  · simp [hvalue]
  · simp [hvalue]
  · next hop =>
    rw [hop] at hname
    simp [h.arg 0, h.arg 1, Operation.name] at hname ⊢
    exact hname
  · exact hname

theorem fill_ne_lineFeed (b live : Bool) :
    CodePoint.char '\n' ≠ if b then wire live else .char ' ' := by
  cases b <;> cases live <;> decide

theorem lineFeed_notMem_body (h : ∀ i ∈ c.instruction, i.IsOneLine) (atRail live : Bool) :
    CodePoint.char '\n' ∉ body c atRail live := by
  unfold body
  split
  · next i hi =>
    have hlabel : CodePoint.char '\n' ∉ label i := fun hmem =>
      lineFeed_notMem_fullLabel (h i hi) (List.mem_of_mem_take hmem)
    have hfill {n : Nat} := fun hmem : _ ∈ List.replicate n _ =>
      fill_ne_lineFeed (isFed c atRail) live (List.eq_of_mem_replicate hmem)
    simp only [centred, List.mem_append, not_or]
    exact ⟨⟨hfill, hlabel⟩, hfill⟩
  · exact fun hmem => fill_ne_lineFeed _ live (List.eq_of_mem_replicate hmem)

theorem lineFeed_notMem_cellText (h : ∀ i ∈ c.instruction, i.IsOneLine) (atRail live : Bool) :
    CodePoint.char '\n' ∉ cellText c atRail live := by
  have hedge : CodePoint.char '\n' ≠ rightEdge c live := by
    unfold rightEdge
    split
    · decide
    · exact fill_ne_lineFeed c.right live
  simp only [cellText, List.mem_cons, List.mem_append, List.not_mem_nil, or_false, not_or]
  exact ⟨fill_ne_lineFeed _ live, lineFeed_notMem_body h atRail live, hedge⟩

theorem lineFeed_notMem_rowLine (h : ∀ c ∈ row, ∀ i ∈ c.instruction, i.IsOneLine)
    (live : Terminal Int → Bool) : CodePoint.char '\n' ∉ rowLine row live := by
  intro hmem
  rcases List.mem_cons.1 (Text.mem_of_mem_trimEnd hmem) with he | hmem
  · cases he
  · obtain ⟨c, hc, hmem⟩ := List.mem_flatMap.1 hmem
    exact lineFeed_notMem_cellText (h c hc) _ _ hmem

theorem lineFeed_notMem_linkLine (row : List GridCell) : CodePoint.char '\n' ∉ linkLine row := by
  intro hmem
  rcases List.mem_cons.1 (Text.mem_of_mem_trimEnd hmem) with he | hmem
  · cases he
  · obtain ⟨c, -, hmem⟩ := List.mem_flatMap.1 hmem
    rcases List.mem_append.1 hmem with hmem | hmem
    · cases List.eq_of_mem_replicate hmem
    · rw [List.mem_singleton] at hmem
      split at hmem <;> cases hmem

theorem lines_ne_nil {d : Diagram} (hne : d.rows ≠ []) (live : Terminal Int → Bool) :
    lines d live ≠ [] := by
  obtain ⟨row, rest, hrows⟩ := List.exists_cons_of_ne_nil hne
  have hfirst : rowLines row live ≠ [] := by
    unfold rowLines
    split <;> exact List.cons_ne_nil _ _
  rw [lines, hrows, List.flatMap_cons]
  exact List.append_ne_nil_of_left_ne_nil hfirst _

/-- The lines of a picture are read back from it. -/
theorem splitOn_render {d : Diagram} (hne : d.rows ≠ [])
    (h : ∀ x y c, d.cell? x y = some c → ∀ i ∈ c.instruction, i.IsOneLine) (live : Terminal Int → Bool) :
    (render d live).splitOn (.char '\n') = lines d live := by
  refine List.splitOn_intercalate _ (fun line hline => ?_) (lines_ne_nil hne live)
  obtain ⟨row, hrow, hline⟩ := List.mem_flatMap.1 hline
  have hcells : ∀ c ∈ row, ∀ i ∈ c.instruction, i.IsOneLine := fun c hc => by
    obtain ⟨y, hy⟩ := List.mem_iff_getElem?.1 hrow
    obtain ⟨x, hx⟩ := List.mem_iff_getElem?.1 hc
    refine h x y c ?_
    rw [Diagram.cell?, hy, Option.bind_some, hx]
  have hfirst := lineFeed_notMem_rowLine hcells live
  unfold rowLines at hline
  split at hline
  · rcases List.mem_pair.1 hline with rfl | rfl
    · exact hfirst
    · exact lineFeed_notMem_linkLine _
  · rw [List.mem_singleton.1 hline]
    exact hfirst

end Picture

/-! ## Pictures of programs -/

/-- Whether a row of a diagram has links to the row below. -/
def Diagram.hasLinks (d : Diagram) (y : Nat) : Bool := (d.rows.getD y []).any (·.down)

theorem Diagram.cell?_eq_getD (d : Diagram) (x y : Nat) : d.cell? x y = (d.rows.getD y [])[x]? := by
  rw [cell?, List.getD_eq_getElem?_getD]
  cases d.rows[y]? with
  | none => rfl
  | some row => rfl

/-- A text whose lines go with the rows of a diagram: each row has a line, and a line with links behind
it exactly if it has links. At each cell with a stub down there is a junction in its row, a link, and a
junction in the row below, in one column; and no link stands elsewhere but at the rail. -/
structure Picture.LinksLineUp (d : Diagram) (text : Text) (row link : Nat → Text) : Prop where
  lines : text.splitOn (.char '\n') =
    (List.range d.height).flatMap fun y => row y :: if d.hasLinks y then [link y] else []
  junctions : ∀ x y c, d.cell? x y = some c → c.down = true → y + 1 < d.height ∧
    (row y)[9 * (x + 1)]? = some (.char '+') ∧ (link y)[9 * (x + 1)]? = some (.char '|') ∧
      (row (y + 1))[9 * (x + 1)]? = some (.char '+')
  links : ∀ y, d.hasLinks y = true → ∀ k, (link y)[k]? = some (.char '|') →
    k = 0 ∨ ∃ x c, d.cell? x y = some c ∧ c.down = true ∧ k = 9 * (x + 1)

namespace Picture

theorem lines_eq (d : Diagram) (live : Terminal Int → Bool) :
    lines d live = (List.range d.height).flatMap fun y =>
      rowLine (d.rows.getD y []) live ::
        if d.hasLinks y then [linkLine (d.rows.getD y [])] else [] := by
  rw [lines, List.flatMap, List.flatMap]
  congr 1
  refine List.ext_getElem (by simp [Diagram.height]) fun y hy _ => ?_
  have hlt : y < d.rows.length := by simpa using hy
  have hrow : d.rows.getD y [] = d.rows[y] := by simp [hlt]
  rw [List.getElem_map, List.getElem_map, List.getElem_range, Diagram.hasLinks, hrow, rowLines]
  split <;> rfl

/-- The picture of a diagram whose stubs down meet stubs up. -/
theorem linksLineUp_render {d : Diagram} (hne : d.rows ≠ [])
    (hline : ∀ x y c, d.cell? x y = some c → ∀ i ∈ c.instruction, i.IsOneLine)
    (hmeet : ∀ x y c, d.cell? x y = some c → c.down = true →
      ∃ c', d.cell? x (y + 1) = some c' ∧ c'.up = true) (live : Terminal Int → Bool) :
    LinksLineUp d (render d live)
      (fun y => rowLine (d.rows.getD y []) live) (fun y => linkLine (d.rows.getD y [])) where
  lines := (splitOn_render hne hline live).trans (lines_eq d live)
  junctions := fun x y c hc hdown => by
    obtain ⟨c', hc', hup⟩ := hmeet x y c hc hdown
    obtain ⟨row, hbelow, -⟩ := Option.bind_eq_some_iff.1 hc'
    rw [Diagram.cell?_eq_getD] at hc hc'
    refine ⟨(List.getElem?_eq_some_iff.1 hbelow).1, getElem?_rowLine hc ?_,
      getElem?_linkLine hc hdown, getElem?_rowLine hc' ?_⟩
    · rw [hdown, Bool.or_true]
    · rw [hup, Bool.true_or]
  links := fun y _ k hk => by
    rcases exists_of_getElem?_linkLine hk with hk | ⟨x, c, hc, hdown, hk⟩
    · exact .inl hk
    · exact .inr ⟨x, c, (d.cell?_eq_getD x y).trans hc, hdown, hk⟩

end Picture

namespace Program

variable {program : Program}

/-- A diagram holds instructions of its program only. -/
theorem mem_of_cell? {x y : Nat} {c : GridCell} (hc : program.layout.cell? x y = some c)
    {i : Instruction} (hi : i ∈ c.instruction) : i ∈ program := by
  have hp := (placed_sheet program).holds
  have hm := marks_of_cell? hc
  cases hn : c.source with
  | none =>
    have hblank := hp.blank (x := x) (y := y) (by rw [hm]; exact hn)
    rw [hm] at hblank
    cases hblank.symm.trans hi
  | some n =>
    have hsound := (hp.sound (x := x) (y := y) (n := n) (by rw [hm]; exact hn)).2
    rw [hm] at hsound
    exact List.mem_of_getElem? (hsound.symm.trans hi)

/-- **Links stand between junctions.** Let every branch of a program be read and popped only after the
blocks opened since its push are merged, let its diagram have a row at least, and let no text of the
program have a line feed in it. Then, whatever has power on it, the lines of the picture go with the rows
of the diagram, and its links stand between junctions. -/
theorem linksLineUp_layout (h : program.MergesBeforeReads) (hne : program.layout.rows ≠ [])
    (hline : ∀ i ∈ program, i.IsOneLine) (live : Terminal Int → Bool) :
    ∃ row link, Picture.LinksLineUp program.layout (Picture.render program.layout live) row link := by
  refine ⟨_, _, Picture.linksLineUp_render hne (fun x y c hc i hi => hline i (mem_of_cell? hc hi))
    (fun x y c hc hdown => ?_) live⟩
  rw [← cellAt_of_cell? hc, (tidy_sheet h).wired.down_eq] at hdown
  exact (stub_eq_true_iff Cell.up rfl).1 hdown

/-- An output that holds itself, and behind its branch two blocks in parallel, with labels that are cut
off. -/
theorem linksLineUp_layout_self_hold :
    let program := Listing.parse ("LD X0\nOR Y0\nANI X1\nMPS\nOUT Y0\nMPP\n" ++
      "LD= D0 K5\nLDI X12345678\nORB\nANB\nSET Y1")
    program.MergesBeforeReads ∧ program.layout.rows ≠ [] ∧ (∀ i ∈ program, i.IsOneLine) ∧
      ∃ row link, Picture.LinksLineUp program.layout
        (Picture.render program.layout fun t => t.x == 0) row link := by
  intro program
  have h : program.MergesBeforeReads := by decide
  have hne : program.layout.rows ≠ [] := by decide
  have hline : ∀ i ∈ program, i.IsOneLine := by decide
  exact ⟨h, hne, hline, linksLineUp_layout h hne hline _⟩

end Program
end LadderLogic
