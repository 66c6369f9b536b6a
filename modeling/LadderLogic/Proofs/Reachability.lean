import LadderLogic.Diagram.Power
import Mathlib.Data.List.Nodup
import Mathlib.Data.List.TakeWhile
import Mathlib.Order.Bounds.Defs

/-!
# Power is reachability

Power is followed by a loop over a queue of terminals, which passes over those that it has seen. A
terminal may stand in the queue many times, and ties lead up and down, but each visit takes a terminal
from the finite set of those that are still unseen, so that the loop ends (`Closure.run_spread`). What
it visits is what the rules of `Closure.Reaches` reach (`Closure.mem_reach`), and in a full rectangle
of cells these rules never lead outside (`mem_terminals_of_mem_successors`).

Main statements: power reaches the least set of terminals that holds the rail and is closed under the
ways in which power spreads (`Diagram.Spreads`). A set that is closed for some bits is closed for any
bits with which fewer contacts let power through. So power grows with the contacts that let it through,
and hangs on nothing but the bits that contacts test.

Source: `energize` (section 4.3 of the specification).
-/

namespace LadderLogic

namespace Closure

variable {α : Type}

/-- The loop over a queue, where some points are `seen`: a point at the front that was seen is passed
over, and any other one is visited, which puts its successors at the end of the queue. The loop ends
after the `visits`, in this order. -/
inductive Run (next : α → List α) : List α → List α → List α → Prop where
  | done {seen : List α} : Run next seen [] []
  | skip {seen queue visits : List α} {a : α} : a ∈ seen → Run next seen queue visits →
      Run next seen (a :: queue) visits
  | visit {seen queue visits : List α} {a : α} : a ∉ seen →
      Run next (a :: seen) (queue ++ next a) visits → Run next seen (a :: queue) (a :: visits)

variable [DecidableEq α] {next : α → List α} {seen unseen queue visits : List α}

/-- The loop passes over the points in front of the first one that is unseen. -/
theorem Run.of_dropWhile (hqueue : ∀ a ∈ queue, a ∈ unseen ∨ a ∈ seen)
    (h : Run next seen (queue.dropWhile (! unseen.contains ·)) visits) :
    Run next seen queue visits := by
  induction queue with
  | nil => exact h
  | cons a queue ih =>
    by_cases ha : a ∈ unseen
    · simpa [ha] using h
    · have hseen : a ∈ seen := (hqueue a List.mem_cons_self).resolve_left ha
      refine .skip hseen (ih (fun b hb => hqueue b (List.mem_cons_of_mem a hb)) ?_)
      simpa [List.dropWhile_cons, ha] using h

/-- **The loop ends**, and `spread` lists what it visits: it is never short of steps, as each visit
takes a point from those that are unseen. -/
theorem run_spread {n : Nat} (hn : unseen.length ≤ n) (hnodup : unseen.Nodup)
    (hdisjoint : ∀ a ∈ unseen, a ∉ seen) (hqueue : ∀ a ∈ queue, a ∈ unseen ∨ a ∈ seen)
    (hnext : ∀ a ∈ unseen, ∀ b ∈ next a, b ∈ unseen ∨ b ∈ seen) :
    Run next seen queue (spread next n unseen queue) := by
  induction n generalizing seen unseen queue with
  | zero =>
    obtain rfl := List.length_eq_zero_iff.1 (Nat.le_zero.1 hn)
    refine Run.of_dropWhile hqueue ?_
    have hnil : queue.dropWhile (! ([] : List α).contains ·) = [] :=
      List.dropWhile_eq_nil_iff.2 fun a _ => rfl
    rw [hnil]
    exact .done
  | succ n ih =>
    refine Run.of_dropWhile hqueue ?_
    rw [spread]
    split
    · next hq =>
      rw [hq]
      exact .done
    · next a rest hq =>
      have ha : a ∈ unseen := by
        have h := List.head_dropWhile_not (! unseen.contains ·) (l := queue) (by rw [hq]; simp)
        simp only [hq, List.head_cons] at h
        simpa using h
      -- what was unseen is unseen still, or it is the point that is visited
      have hcover {b : α} (hb : b ∈ unseen ∨ b ∈ seen) : b ∈ unseen.erase a ∨ b ∈ a :: seen := by
        by_cases hba : b = a
        · exact .inr (hba ▸ List.mem_cons_self)
        · exact hb.imp (List.mem_erase_of_ne hba).2 (List.mem_cons_of_mem a)
      rw [hq]
      refine .visit (hdisjoint a ha) (ih ?_ (hnodup.erase a) (fun b hb => ?_) (fun b hb => ?_) ?_)
      · rw [List.length_erase_of_mem ha]
        omega
      · obtain ⟨hba, hb⟩ := hnodup.mem_erase_iff.1 hb
        exact List.not_mem_cons_of_ne_of_not_mem hba (hdisjoint b hb)
      · rcases List.mem_append.1 hb with hb | hb
        · have hsuffix := List.dropWhile_suffix (l := queue) (! unseen.contains ·)
          rw [hq] at hsuffix
          exact hcover (hqueue b (hsuffix.subset (List.mem_cons_of_mem a hb)))
        · exact hcover (hnext a ha b hb)
      · exact fun b hb c hc => hcover (hnext b (List.mem_of_mem_erase hb) c hc)

/-- The closure of seeds inside a domain that its successors do not leave, as the visits of a loop. -/
theorem run_reach {domain seeds : List α} (hnodup : domain.Nodup) (hseeds : ∀ a ∈ seeds, a ∈ domain)
    (hnext : ∀ a ∈ domain, ∀ b ∈ next a, b ∈ domain) :
    Run next [] seeds (reach next domain seeds) :=
  run_spread (Nat.le_refl _) hnodup (fun _ _ => List.not_mem_nil)
    (fun a ha => .inl (hseeds a ha)) fun a ha b hb => .inl (hnext a ha b hb)

end Closure

namespace Diagram

open Closure

variable {d : Diagram} {bits : Text → Bool} {x y : Nat} {c : GridCell} {t u : Terminal}

/-! ## Terminals -/

theorem mem_terminals (hw : 0 < d.width) : t ∈ d.terminals ↔ t.x < d.width ∧ t.y < d.height := by
  obtain ⟨x, y, side⟩ := t
  simp only [terminals, List.mem_flatMap, List.mem_range, List.mem_cons,
    List.not_mem_nil, or_false, Terminal.mk.injEq, Nat.max_eq_right hw]
  constructor
  · rintro ⟨y', hy, x', hx, ⟨rfl, rfl, -⟩ | ⟨rfl, rfl, -⟩⟩ <;> exact ⟨hx, hy⟩
  · rintro ⟨hx, hy⟩
    cases side with
    | inlet => exact ⟨y, hy, x, hx, .inl ⟨rfl, rfl, rfl⟩⟩
    | outlet => exact ⟨y, hy, x, hx, .inr ⟨rfl, rfl, rfl⟩⟩

theorem nodup_terminals (d : Diagram) : d.terminals.Nodup := by
  refine List.nodup_flatMap.2 ⟨fun y _ => List.nodup_flatMap.2 ⟨fun x _ => by simp, ?_⟩, ?_⟩
  · -- terminals of two columns
    refine List.nodup_range.imp fun {x x'} hne t ht ht' => hne ?_
    have hx : t.x = x := by
      rcases List.mem_pair.1 ht with rfl | rfl <;> rfl
    have hx' : t.x = x' := by
      rcases List.mem_pair.1 ht' with rfl | rfl <;> rfl
    exact hx.symm.trans hx'
  · -- terminals of two rows
    have hrow {y : Nat} {t : Terminal} (ht : t ∈ (List.range (max 1 d.width)).flatMap fun x =>
        ([⟨x, y, .inlet⟩, ⟨x, y, .outlet⟩] : List Terminal)) : t.y = y := by
      obtain ⟨x, -, ht⟩ := List.mem_flatMap.1 ht
      rcases List.mem_pair.1 ht with rfl | rfl <;> rfl
    exact List.nodup_range.imp fun {y y'} hne t ht ht' => hne ((hrow ht).symm.trans (hrow ht'))

theorem mem_rail : t ∈ d.rail ↔ ∃ y < d.height, t = ⟨0, y, .inlet⟩ := by
  simp only [rail, List.mem_map, List.mem_range, eq_comm]

/-- Every place inside a full rectangle has a cell. -/
theorem IsRectangular.exists_cell? (hr : d.IsRectangular) (hx : x < d.width) (hy : y < d.height) :
    ∃ c, d.cell? x y = some c := by
  have hlen : d.rows[y].length = d.width := hr _ (List.getElem_mem hy)
  refine ⟨(d.rows[y])[x], ?_⟩
  rw [cell?, List.getElem?_eq_getElem hy, Option.bind_some, List.getElem?_eq_getElem]

/-! ## Successors -/

theorem mem_successors_of_inlet (hc : d.cell? x y = some c) :
    t ∈ d.successors bits ⟨x, y, .inlet⟩ ↔ c.conducts bits = true ∧ t = ⟨x, y, .outlet⟩ := by
  simp only [successors, hc]
  split
  · next h => simp [h]
  · next h => simp [h]

theorem mem_successors_of_outlet (hc : d.cell? x y = some c) :
    t ∈ d.successors bits ⟨x, y, .outlet⟩ ↔
      (c.right = true ∧ x + 1 < d.width ∧ t = ⟨x + 1, y, .inlet⟩) ∨
      (c.down = true ∧ y + 1 < d.height ∧ t = ⟨x, y + 1, .outlet⟩) ∨
      (c.up = true ∧ 0 < y ∧ t = ⟨x, y - 1, .outlet⟩) := by
  have hguard {b : Bool} {p : Prop} [Decidable p] {u : Terminal} :
      t ∈ (if (b && p) = true then [u] else []) ↔ b = true ∧ p ∧ t = u := by
    by_cases h : b = true ∧ p
    · simp [h.1, h.2]
    · rw [if_neg (by simpa using h)]
      exact ⟨fun ht => absurd ht List.not_mem_nil, fun ht => absurd ⟨ht.1, ht.2.1⟩ h⟩
  simp only [successors, hc, List.mem_append, hguard, or_assoc]

/-- Power never leads outside of a diagram. -/
theorem mem_terminals_of_mem_successors (hr : d.IsRectangular) (hw : 0 < d.width)
    (ht : t ∈ d.terminals) (hu : u ∈ d.successors bits t) : u ∈ d.terminals := by
  obtain ⟨x, y, side⟩ := t
  obtain ⟨hx, hy⟩ := (mem_terminals hw).1 ht
  obtain ⟨c, hc⟩ := hr.exists_cell? hx hy
  rw [mem_terminals hw]
  cases side with
  | inlet =>
    obtain ⟨-, rfl⟩ := (mem_successors_of_inlet hc).1 hu
    exact ⟨hx, hy⟩
  | outlet =>
    rcases (mem_successors_of_outlet hc).1 hu with ⟨-, hlt, rfl⟩ | ⟨-, hlt, rfl⟩ | ⟨-, hlt, rfl⟩
    · exact ⟨hlt, hy⟩
    · exact ⟨hx, hlt⟩
    · exact ⟨hx, Nat.lt_of_le_of_lt (Nat.sub_le y 1) hy⟩

/-! ## Power -/

theorem run_visits (hr : d.IsRectangular) (hw : 0 < d.width) (bits : Text → Bool) :
    Run (d.successors bits) [] d.rail (d.visits bits) := by
  refine run_reach d.nodup_terminals (fun t ht => ?_) fun t ht u hu =>
    mem_terminals_of_mem_successors hr hw ht hu
  obtain ⟨y, hy, rfl⟩ := mem_rail.1 ht
  exact (mem_terminals hw).2 ⟨hw, hy⟩

theorem exists_cell?_of_mem_visits (hr : d.IsRectangular) (hw : 0 < d.width)
    (ht : t ∈ d.visits bits) : ∃ c, d.cell? t.x t.y = some c := by
  obtain ⟨hx, hy⟩ := (mem_terminals hw).1 ((mem_reach _ _ _ _).1 ht).mem_domain
  exact hr.exists_cell? hx hy

theorem power_eq (hr : d.IsRectangular) (hw : 0 < d.width) (bits : Text → Bool) :
    d.power bits = .ok (d.terminals.filter (d.visits bits).contains) := by
  have hall : ((d.visits bits).all fun t => (d.cell? t.x t.y).isSome) = true := by
    refine List.all_eq_true.2 fun t ht => ?_
    obtain ⟨c, hc⟩ := exists_cell?_of_mem_visits hr hw ht
    rw [hc]
    rfl
  rw [power, if_pos hall]

/-- In a full rectangle power can be followed, and what it reaches is what is visited. -/
theorem exists_power (hr : d.IsRectangular) (hw : 0 < d.width) (bits : Text → Bool) :
    ∃ live, d.power bits = .ok live ∧ ∀ t, t ∈ live ↔ t ∈ d.visits bits := by
  refine ⟨_, power_eq hr hw bits, fun t => ?_⟩
  rw [List.mem_filter, List.contains_iff_mem]
  exact and_iff_right_of_imp fun ht => ((mem_reach _ _ _ _).1 ht).mem_domain

/-- A set of terminals that holds the rail and all terminals that power spreads to from it. -/
structure Spreads (d : Diagram) (bits : Text → Bool) (live : Set Terminal) : Prop where
  rail : ∀ y < d.height, ⟨0, y, .inlet⟩ ∈ live
  through : ∀ x y c, d.cell? x y = some c → c.conducts bits = true →
    ⟨x, y, .inlet⟩ ∈ live → ⟨x, y, .outlet⟩ ∈ live
  right : ∀ x y c, d.cell? x y = some c → c.right = true → x + 1 < d.width →
    ⟨x, y, .outlet⟩ ∈ live → ⟨x + 1, y, .inlet⟩ ∈ live
  down : ∀ x y c, d.cell? x y = some c → c.down = true → y + 1 < d.height →
    ⟨x, y, .outlet⟩ ∈ live → ⟨x, y + 1, .outlet⟩ ∈ live
  up : ∀ x y c, d.cell? x y = some c → c.up = true → 0 < y →
    ⟨x, y, .outlet⟩ ∈ live → ⟨x, y - 1, .outlet⟩ ∈ live

/-- A closed set holds the successors of its terminals. -/
theorem Spreads.mem_of_mem_successors {live : Set Terminal} (h : d.Spreads bits live)
    (ht : t ∈ live) (hu : u ∈ d.successors bits t) : u ∈ live := by
  obtain ⟨x, y, side⟩ := t
  cases hc : d.cell? x y with
  | none =>
    simp only [successors, hc] at hu
    cases hu
  | some c =>
    cases side with
    | inlet =>
      obtain ⟨hcond, rfl⟩ := (mem_successors_of_inlet hc).1 hu
      exact h.through x y c hc hcond ht
    | outlet =>
      rcases (mem_successors_of_outlet hc).1 hu with ⟨hs, hlt, rfl⟩ | ⟨hs, hlt, rfl⟩ | ⟨hs, hlt, rfl⟩
      · exact h.right x y c hc hs hlt ht
      · exact h.down x y c hc hs hlt ht
      · exact h.up x y c hc hs hlt ht

/-- What is visited is closed. -/
theorem spreads_visits (hr : d.IsRectangular) (hw : 0 < d.width) (bits : Text → Bool) :
    d.Spreads bits {t | t ∈ d.visits bits} := by
  have hstep {t u : Terminal} (ht : t ∈ d.visits bits) (hu : u ∈ d.successors bits t) :
      u ∈ d.visits bits := by
    have ht := (mem_reach _ _ _ _).1 ht
    exact (mem_reach _ _ _ _).2
      (.step ht (mem_terminals_of_mem_successors hr hw ht.mem_domain hu) hu)
  exact {
    rail := fun y hy => (mem_reach _ _ _ _).2
      (.seed ((mem_terminals hw).2 ⟨hw, hy⟩) (mem_rail.2 ⟨y, hy, rfl⟩))
    through := fun x y c hc hcond ht => hstep ht ((mem_successors_of_inlet hc).2 ⟨hcond, rfl⟩)
    right := fun x y c hc hs hlt ht =>
      hstep ht ((mem_successors_of_outlet hc).2 (.inl ⟨hs, hlt, rfl⟩))
    down := fun x y c hc hs hlt ht =>
      hstep ht ((mem_successors_of_outlet hc).2 (.inr (.inl ⟨hs, hlt, rfl⟩)))
    up := fun x y c hc hs hlt ht =>
      hstep ht ((mem_successors_of_outlet hc).2 (.inr (.inr ⟨hs, hlt, rfl⟩))) }

/-- A closed set holds all that is reached from the rail. -/
theorem Spreads.mem_of_reaches {live : Set Terminal} (h : d.Spreads bits live)
    (ht : Reaches (d.successors bits) d.terminals d.rail t) : t ∈ live := by
  induction ht with
  | seed _ hs =>
    obtain ⟨y, hy, rfl⟩ := mem_rail.1 hs
    exact h.rail y hy
  | step _ _ hu ih => exact h.mem_of_mem_successors ih hu

/-- **Power is reachability.** In a full rectangle with a column at least, the loop that follows power
from the rail ends and looks at cells of the diagram only. The terminals that it visits are returned,
and they are the least set that holds the inlets at the rail and is closed under the ways in which
power spreads. -/
theorem isLeast_power (hr : d.IsRectangular) (hw : 0 < d.width) (bits : Text → Bool) :
    Run (d.successors bits) [] d.rail (d.visits bits) ∧
    (∀ t ∈ d.visits bits, ∃ c, d.cell? t.x t.y = some c) ∧
    ∃ live, d.power bits = .ok live ∧ (∀ t, t ∈ live ↔ t ∈ d.visits bits) ∧
      IsLeast {closed | d.Spreads bits closed} {t | t ∈ live} := by
  obtain ⟨live, hlive, hmem⟩ := exists_power hr hw bits
  have hset : {t | t ∈ live} = {t | t ∈ d.visits bits} := Set.ext hmem
  refine ⟨run_visits hr hw bits, fun t ht => exists_cell?_of_mem_visits hr hw ht, live, hlive, hmem,
    ?_, fun closed hclosed t ht => ?_⟩
  · rw [hset]
    exact spreads_visits hr hw bits
  · exact Spreads.mem_of_reaches hclosed ((mem_reach _ _ _ _).1 ((hmem t).1 ht))

/-- Two rows tied at both of their columns, so that power can go round, and an open contact. -/
theorem isLeast_power_tied_rows :
    let contact : Instruction :=
      { id := 1, operation := .known (.contact .start .on), value := "X0", args := ["X0"] }
    let d : Diagram := .ofRows [[{ instruction := contact, right := true, down := true },
        { left := true, down := true }],
      [{ up := true, right := true }, { left := true, up := true }]]
    let live : List Terminal := [⟨0, 0, .inlet⟩, ⟨0, 0, .outlet⟩, ⟨1, 0, .inlet⟩, ⟨1, 0, .outlet⟩,
      ⟨0, 1, .inlet⟩, ⟨0, 1, .outlet⟩, ⟨1, 1, .inlet⟩, ⟨1, 1, .outlet⟩]
    d.IsRectangular ∧ 0 < d.width ∧ d.power (fun _ => false) = .ok live ∧
      IsLeast {closed | d.Spreads (fun _ => false) closed} {t | t ∈ live} := by
  intro contact d live
  have hr : d.IsRectangular := by
    unfold Diagram.IsRectangular
    decide
  have hlive : d.power (fun _ => false) = .ok live := by decide
  obtain ⟨-, -, live', hlive', -, hleast⟩ := isLeast_power hr (by decide) fun _ => false
  obtain rfl : live' = live := Except.ok.inj (hlive'.symm.trans hlive)
  exact ⟨hr, by decide, hlive, hleast⟩

/-! ## Contacts -/

/-- The names under which the contacts of a diagram make a test. -/
def tested (d : Diagram) (test : Test) : List Text :=
  d.rows.flatten.filterMap fun c =>
    match c.instruction with
    | none => none
    | some i =>
      match i.operation with
      | .known (.contact _ t) => if t = test then some i.value else none
      | _ => none

theorem mem_tested {i : Instruction} {position : Position} {test : Test}
    (hc : d.cell? x y = some c) (hi : c.instruction = some i)
    (hop : i.operation = .known (.contact position test)) : i.value ∈ d.tested test := by
  obtain ⟨row, hrow, hc⟩ := Option.bind_eq_some_iff.1 hc
  refine List.mem_filterMap.2 ⟨c, ?_, by simp [hi, hop]⟩
  exact List.mem_flatten.2 ⟨row, List.mem_of_getElem? hrow, List.mem_of_getElem? hc⟩

/-- Every bit that a contact tests for on stays on from `bits` to `bits'`, and every bit that a contact
tests for off stays off. -/
structure Opens (d : Diagram) (bits bits' : Text → Bool) : Prop where
  on : ∀ name ∈ d.tested .on, bits name = true → bits' name = true
  off : ∀ name ∈ d.tested .off, bits name = false → bits' name = false

variable {bits' : Text → Bool}

theorem opens_of_eq (h : ∀ name ∈ d.tested .on ++ d.tested .off, bits name = bits' name) :
    d.Opens bits bits' where
  on := fun name hn hb => by rw [← h name (List.mem_append_left _ hn), hb]
  off := fun name hn hb => by rw [← h name (List.mem_append_right _ hn), hb]

theorem Opens.conducts (h : d.Opens bits bits') (hc : d.cell? x y = some c)
    (hb : c.conducts bits = true) : c.conducts bits' = true := by
  cases hi : c.instruction with
  | none => simp only [Cell.conducts, hi]
  | some i =>
    simp only [Cell.conducts, hi] at hb ⊢
    split at hb
    · next hop => exact h.on i.value (mem_tested hc hi hop) hb
    · next hop =>
      rw [Bool.not_eq_true'] at hb ⊢
      exact h.off i.value (mem_tested hc hi hop) hb
    · rfl

/-- A set that is closed although more contacts let power through. -/
theorem Spreads.of_opens {live : Set Terminal} (hs : d.Spreads bits' live)
    (h : d.Opens bits bits') : d.Spreads bits live :=
  { hs with through := fun x y c hc hb => hs.through x y c hc (h.conducts hc hb) }

theorem Opens.visits_subset (h : d.Opens bits bits') (hr : d.IsRectangular) (hw : 0 < d.width) :
    d.visits bits ⊆ d.visits bits' := fun _ ht =>
  ((spreads_visits hr hw bits').of_opens h).mem_of_reaches ((mem_reach _ _ _ _).1 ht)

/-- **Power grows with the contacts that let it through.** In a full rectangle with a column at least,
let every bit that a contact tests for on stay on, and every bit that a contact tests for off stay off.
Then power reaches all that it reached before. In particular, what it reaches hangs on those bits alone
that contacts test for on or off. -/
theorem power_mono (hr : d.IsRectangular) (hw : 0 < d.width) :
    (∀ bits bits', d.Opens bits bits' →
      ∃ live live', d.power bits = .ok live ∧ d.power bits' = .ok live' ∧ live ⊆ live') ∧
    ∀ bits bits', (∀ name ∈ d.tested .on ++ d.tested .off, bits name = bits' name) →
      d.power bits = d.power bits' := by
  refine ⟨fun bits bits' h => ?_, fun bits bits' heq => ?_⟩
  · obtain ⟨live, hlive, hmem⟩ := exists_power hr hw bits
    obtain ⟨live', hlive', hmem'⟩ := exists_power hr hw bits'
    refine ⟨live, live', hlive, hlive', fun t ht => ?_⟩
    exact (hmem' t).2 (h.visits_subset hr hw ((hmem t).1 ht))
  · have hle := (opens_of_eq heq).visits_subset hr hw
    have hge := (opens_of_eq fun name hn => (heq name hn).symm).visits_subset hr hw
    rw [power_eq hr hw, power_eq hr hw]
    congr 1
    refine List.filter_congr fun t _ => ?_
    rw [Bool.eq_iff_iff, List.contains_iff_mem, List.contains_iff_mem]
    exact ⟨fun ht => hle ht, fun ht => hge ht⟩

/-- Two rows tied at both of their columns, with a contact for on and one for off. As long as `X1` is on
power comes through with `X0` only, and no contact tests the bit `Y0`. -/
theorem power_mono_tied_rows :
    let contact (test : Test) (name : Text) : Option Instruction :=
      some { id := 1, operation := .known (.contact .start test), value := name, args := [name] }
    let d : Diagram := .ofRows [[{ instruction := contact .on "X0", right := true, down := true },
        { left := true, down := true }],
      [{ instruction := contact .off "X1", up := true, right := true }, { left := true, up := true }]]
    let bits (names : List Text) (name : Text) : Bool := names.contains name
    d.IsRectangular ∧ 0 < d.width ∧ d.Opens (bits ["X1"]) (bits ["X0", "X1"]) ∧
      (∃ live live', d.power (bits ["X1"]) = .ok live ∧ d.power (bits ["X0", "X1"]) = .ok live' ∧
        live ⊆ live') ∧
      d.power (bits ["X1"]) = d.power (bits ["Y0", "X1"]) := by
  intro contact d bits
  have hr : d.IsRectangular := by
    unfold Diagram.IsRectangular
    decide
  have hw : 0 < d.width := by decide
  have hopens : d.Opens (bits ["X1"]) (bits ["X0", "X1"]) := ⟨by decide, by decide⟩
  obtain ⟨hmono, hcongr⟩ := power_mono hr hw
  exact ⟨hr, hw, hopens, hmono _ _ hopens, hcongr _ _ (by decide)⟩

end Diagram
end LadderLogic
