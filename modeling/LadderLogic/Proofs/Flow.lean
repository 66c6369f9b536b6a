import LadderLogic.Proofs.Drawing
import LadderLogic.Proofs.Reachability

/-!
# Power, column by column

Power never goes to the left: it crosses from a column to the next one over stubs to the right, and
inside a column it spreads over the vertical ties. So the inlets that power reaches are found by
recursion over the columns (`Grid.Inlet`), where two rows are joined in a column if all cells between
them are tied (`Grid.Linked`). Main statement: on a sheet whose stubs meet (`Grid.Wired`) this is the
power of the diagram (`exists_power`).

Source: `energize` (section 4.3 of the specification).
-/

namespace LadderLogic

/-- An unbounded grid of cells. -/
abbrev Grid := Nat → Nat → Cell

namespace Grid

/-- Two rows are linked in a column: each cell from the upper to the lower one is tied down. -/
def Linked (g : Grid) (x y y' : Nat) : Prop :=
  ∀ k, min y y' ≤ k → k < max y y' → (g x k).down = true

/-- Whether power reaches the inlet of a cell. -/
def Inlet (g : Grid) (bits : Text → Bool) : Nat → Nat → Prop
  | 0, _ => True
  | x + 1, y => (g x y).right = true ∧
      ∃ y', g.Linked x y y' ∧ g.Inlet bits x y' ∧ (g x y').conducts bits = true

/-- Whether power reaches the outlet of a cell. -/
def Outlet (g : Grid) (bits : Text → Bool) (x y : Nat) : Prop :=
  ∃ y', g.Linked x y y' ∧ g.Inlet bits x y' ∧ (g x y').conducts bits = true

/-- A grid whose stubs meet, and none leaves it to the left or above. -/
structure Wired (g : Grid) : Prop where
  right_eq : ∀ x y, (g x y).right = (g (x + 1) y).left
  down_eq : ∀ x y, (g x y).down = (g x (y + 1)).up
  left_zero : ∀ y, (g 0 y).left = false
  up_zero : ∀ x, (g x 0).up = false

variable {g : Grid} {bits : Text → Bool} {x y y' y'' : Nat}

theorem Linked.refl (g : Grid) (x y : Nat) : g.Linked x y y := fun k h₁ h₂ => by omega

theorem Linked.symm (h : g.Linked x y y') : g.Linked x y' y := fun k h₁ h₂ =>
  h k (by omega) (by omega)

theorem Linked.trans (h : g.Linked x y y') (h' : g.Linked x y' y'') : g.Linked x y y'' := by
  intro k h₁ h₂
  by_cases hk : min y y' ≤ k ∧ k < max y y'
  · exact h k hk.1 hk.2
  · exact h' k (by omega) (by omega)

theorem Linked.of_down (h : (g x y).down = true) : g.Linked x y (y + 1) := by
  intro k h₁ h₂
  obtain rfl : k = y := by omega
  exact h

theorem inlet_zero (g : Grid) (bits : Text → Bool) (y : Nat) : g.Inlet bits 0 y := by
  rw [Inlet]
  trivial

theorem inlet_succ : g.Inlet bits (x + 1) y ↔ (g x y).right = true ∧ g.Outlet bits x y := by
  rw [Inlet, Outlet]

theorem Outlet.of_inlet (h : g.Inlet bits x y) (hc : (g x y).conducts bits = true) :
    g.Outlet bits x y := ⟨y, Linked.refl g x y, h, hc⟩

theorem outlet_congr (h : g.Linked x y y') : g.Outlet bits x y ↔ g.Outlet bits x y' :=
  ⟨fun ⟨z, hz, hi, hc⟩ => ⟨z, h.symm.trans hz, hi, hc⟩, fun ⟨z, hz, hi, hc⟩ => ⟨z, h.trans hz, hi, hc⟩⟩

/-- A cell without ties is linked to itself alone. -/
theorem Linked.eq_of_untied (hw : g.Wired) (hu : (g x y).up = false) (hd : (g x y).down = false)
    (h : g.Linked x y y') : y' = y := by
  rcases Nat.lt_trichotomy y y' with hlt | he | hlt
  · rw [h y (by omega) (by omega)] at hd
    cases hd
  · exact he.symm
  · -- the cell above would be tied down to this one
    obtain ⟨z, rfl⟩ : ∃ z, y = z + 1 := ⟨y - 1, by omega⟩
    rw [← hw.down_eq, h z (by omega) (by omega)] at hu
    cases hu

/-- Power leaves a cell without ties only if it came in there. -/
theorem outlet_of_untied (hw : g.Wired) (hu : (g x y).up = false) (hd : (g x y).down = false) :
    g.Outlet bits x y ↔ g.Inlet bits x y ∧ (g x y).conducts bits = true := by
  constructor
  · rintro ⟨y', hl, hi, hc⟩
    rw [hl.eq_of_untied hw hu hd] at hi hc
    exact ⟨hi, hc⟩
  · rintro ⟨hi, hc⟩
    exact .of_inlet hi hc

end Grid

/-! ## The power of a diagram -/

namespace Sheet

open Closure Diagram

variable {s : Sheet} {bits : Text → Bool} {x y : Nat}

/-- The sides of a terminal, read off the columns. -/
def Powered (s : Sheet) (bits : Text → Bool) (t : Terminal) : Prop :=
  match t.side with
  | .inlet => Grid.Inlet (cellAt s.rows) bits t.x t.y
  | .outlet => Grid.Outlet (cellAt s.rows) bits t.x t.y

theorem mem_successors_inlet (hx : x < s.toDiagram.width) (hy : y < s.toDiagram.height)
    {t : Terminal} : t ∈ s.toDiagram.successors bits ⟨x, y, .inlet⟩ ↔
      (cellAt s.rows x y).conducts bits = true ∧ t = ⟨x, y, .outlet⟩ :=
  mem_successors_of_inlet (by rw [cell?_toDiagram, if_pos ⟨hx, hy⟩])

/-- Power goes on from an outlet to the right, down and up. The stubs that meet say that the
neighbour is there, so that the borders of the diagram need not be looked at. -/
theorem mem_successors_outlet (hw : Grid.Wired (cellAt s.rows)) (hx : x < s.toDiagram.width)
    (hy : y < s.toDiagram.height) {t : Terminal} :
    t ∈ s.toDiagram.successors bits ⟨x, y, .outlet⟩ ↔
      ((cellAt s.rows x y).right = true ∧ t = ⟨x + 1, y, .inlet⟩) ∨
      ((cellAt s.rows x y).down = true ∧ t = ⟨x, y + 1, .outlet⟩) ∨
      ∃ z, y = z + 1 ∧ (cellAt s.rows x z).down = true ∧ t = ⟨x, z, .outlet⟩ := by
  have hright : (cellAt s.rows x y).right = true → x + 1 < s.toDiagram.width := fun h => by
    refine (mem_toDiagram_of_ne (y := y) fun he => ?_).1
    rw [hw.right_eq, he] at h
    cases h
  have hdown : (cellAt s.rows x y).down = true → y + 1 < s.toDiagram.height := fun h => by
    refine (mem_toDiagram_of_ne (x := x) fun he => ?_).2
    rw [hw.down_eq, he] at h
    cases h
  have hup : (cellAt s.rows x y).up = true ↔ ∃ z, y = z + 1 ∧ (cellAt s.rows x z).down = true := by
    constructor
    · intro h
      cases y with
      | zero => rw [hw.up_zero] at h; cases h
      | succ z => exact ⟨z, rfl, by rw [hw.down_eq]; exact h⟩
    · rintro ⟨z, rfl, h⟩
      rw [← hw.down_eq]
      exact h
  rw [mem_successors_of_outlet (by rw [cell?_toDiagram, if_pos ⟨hx, hy⟩])]
  constructor
  · rintro (⟨hr, -, rfl⟩ | ⟨hd, -, rfl⟩ | ⟨hu, -, rfl⟩)
    · exact .inl ⟨hr, rfl⟩
    · exact .inr (.inl ⟨hd, rfl⟩)
    · obtain ⟨z, rfl, hd⟩ := hup.1 hu
      exact .inr (.inr ⟨z, rfl, hd, rfl⟩)
  · rintro (⟨hr, rfl⟩ | ⟨hd, rfl⟩ | ⟨z, rfl, hd, rfl⟩)
    · exact .inl ⟨hr, hright hr, rfl⟩
    · exact .inr (.inl ⟨hd, hdown hd, rfl⟩)
    · exact .inr (.inr ⟨hup.2 ⟨z, rfl, hd⟩, Nat.succ_pos z, rfl⟩)

/-- What the rules of the diagram reach is powered. -/
theorem powered_of_reaches (hw : Grid.Wired (cellAt s.rows)) (hpos : 0 < s.toDiagram.width)
    {t : Terminal}
    (h : Reaches (s.toDiagram.successors bits) s.toDiagram.terminals s.toDiagram.rail t) :
    s.Powered bits t := by
  induction h with
  | seed _ hs =>
    obtain ⟨y, -, rfl⟩ := List.mem_map.1 hs
    exact Grid.inlet_zero (cellAt s.rows) bits y
  | @step a b ha _ hb ih =>
    obtain ⟨x, y, side⟩ := a
    obtain ⟨hx, hy⟩ := (mem_terminals hpos).1 ha.mem_domain
    cases side with
    | inlet =>
      obtain ⟨hc, rfl⟩ := (mem_successors_inlet hx hy).1 hb
      exact Grid.Outlet.of_inlet ih hc
    | outlet =>
      rcases (mem_successors_outlet hw hx hy).1 hb with ⟨hr, rfl⟩ | ⟨hd, rfl⟩ | ⟨z, rfl, hd, rfl⟩
      · exact Grid.inlet_succ.2 ⟨hr, ih⟩
      · exact (Grid.outlet_congr (.of_down hd)).1 ih
      · exact (Grid.outlet_congr (.of_down hd)).2 ih

/-- Power that is at an outlet reaches every outlet that is linked to it. -/
theorem reaches_of_linked (hw : Grid.Wired (cellAt s.rows)) (hpos : 0 < s.toDiagram.width)
    {y' : Nat} (hl : Grid.Linked (cellAt s.rows) x y y')
    (h : Reaches (s.toDiagram.successors bits) s.toDiagram.terminals s.toDiagram.rail
      ⟨x, y', .outlet⟩) :
    Reaches (s.toDiagram.successors bits) s.toDiagram.terminals s.toDiagram.rail
      ⟨x, y, .outlet⟩ := by
  have hx : x < s.toDiagram.width := ((mem_terminals hpos).1 h.mem_domain).1
  -- one row nearer at each step
  induction hn : (y - y') + (y' - y) generalizing y' with
  | zero =>
    obtain rfl : y = y' := by omega
    exact h
  | succ n ih =>
    have hy' : y' < s.toDiagram.height := ((mem_terminals hpos).1 h.mem_domain).2
    rcases Nat.lt_or_ge y y' with hlt | hge
    · obtain ⟨z, rfl⟩ : ∃ z, y' = z + 1 := ⟨y' - 1, by omega⟩
      have hz : z < s.toDiagram.height := by omega
      have hd : (cellAt s.rows x z).down = true := hl z (by omega) (by omega)
      have hl' : Grid.Linked (cellAt s.rows) x y z := fun k h₁ h₂ => hl k (by omega) (by omega)
      refine ih hl' ?_ (by omega)
      exact .step h ((mem_terminals hpos).2 ⟨hx, hz⟩)
        ((mem_successors_outlet hw hx hy').2 (.inr (.inr ⟨z, rfl, hd, rfl⟩)))
    · have hd : (cellAt s.rows x y').down = true := hl y' (by omega) (by omega)
      have hin : y' + 1 < s.toDiagram.height := by
        refine (mem_toDiagram_of_ne (x := x) fun he => ?_).2
        rw [hw.down_eq, he] at hd
        cases hd
      have hl' : Grid.Linked (cellAt s.rows) x y (y' + 1) := fun k h₁ h₂ =>
        hl k (by omega) (by omega)
      refine ih hl' ?_ (by omega)
      exact .step h ((mem_terminals hpos).2 ⟨hx, hin⟩)
        ((mem_successors_outlet hw hx hy').2 (.inr (.inl ⟨hd, rfl⟩)))

/-- Rows that are linked to one of the diagram lie in it. -/
theorem lt_height_of_linked (hw : Grid.Wired (cellAt s.rows)) {y' : Nat}
    (hl : Grid.Linked (cellAt s.rows) x y y') (hy : y < s.toDiagram.height) :
    y' < s.toDiagram.height := by
  rcases Nat.lt_or_ge y y' with hlt | hge
  · obtain ⟨z, rfl⟩ : ∃ z, y' = z + 1 := ⟨y' - 1, by omega⟩
    have hd := hl z (by omega) (by omega)
    refine (mem_toDiagram_of_ne (x := x) fun he => ?_).2
    rw [hw.down_eq, he] at hd
    cases hd
  · omega

theorem reaches_inlet (hw : Grid.Wired (cellAt s.rows)) (hpos : 0 < s.toDiagram.width)
    (hx : x < s.toDiagram.width) (hy : y < s.toDiagram.height)
    (h : Grid.Inlet (cellAt s.rows) bits x y) :
    Reaches (s.toDiagram.successors bits) s.toDiagram.terminals s.toDiagram.rail
      ⟨x, y, .inlet⟩ := by
  induction x generalizing y with
  | zero =>
    exact .seed ((mem_terminals hpos).2 ⟨hx, hy⟩)
      (List.mem_map.2 ⟨y, List.mem_range.2 hy, rfl⟩)
  | succ x ih =>
    obtain ⟨hr, y', hl, hi, hc⟩ := h
    have hx' : x < s.toDiagram.width := by omega
    have hy' := lt_height_of_linked hw hl hy
    have hout := Reaches.step (ih hx' hy' hi) ((mem_terminals hpos).2 ⟨hx', hy'⟩)
      ((mem_successors_inlet hx' hy').2 ⟨hc, rfl⟩)
    exact .step (reaches_of_linked hw hpos hl hout) ((mem_terminals hpos).2 ⟨hx, hy⟩)
      ((mem_successors_outlet hw hx' hy).2 (.inl ⟨hr, rfl⟩))

/-- **Power of a diagram, column by column.** Power can be followed in the diagram of a sheet whose
stubs meet, and it reaches the inlets that the recursion over the columns finds. -/
theorem exists_power (hw : Grid.Wired (cellAt s.rows)) (hbare : s.isBare = false)
    (bits : Text → Bool) :
    ∃ live, s.toDiagram.power bits = .ok live ∧
      ∀ x y, x < s.toDiagram.width → y < s.toDiagram.height →
        (⟨x, y, .inlet⟩ ∈ live ↔ Grid.Inlet (cellAt s.rows) bits x y) := by
  have hpos : 0 < s.toDiagram.width := by
    rw [width_toDiagram hbare]
    refine Nat.pos_of_ne_zero fun h0 => Bool.eq_false_iff.1 hbare (isBare_iff.2 fun y => ?_)
    have := length_rowAt_le_longest s.rows y
    exact List.eq_nil_of_length_eq_zero (by omega)
  obtain ⟨live, hlive, hmem⟩ := Diagram.exists_power (isRectangular_toDiagram s) hpos bits
  refine ⟨live, hlive, fun x y hx hy => ?_⟩
  rw [hmem, Diagram.visits, mem_reach]
  exact ⟨powered_of_reaches hw hpos, reaches_inlet hw hpos hx hy⟩

end Sheet
end LadderLogic
