/-!
# Closure of a finite set

What can be reached from some seeds inside a finite domain, where `next` lists the successors of a
point. `Reaches` says it by rules and `reach` computes it: each step takes one point of the queue that
is still unseen, so that the domain bounds the number of steps. Main statement: both agree
(`mem_reach`).

Source: the breadth-first search of `energize` (section 4.3 of the specification).
-/

namespace LadderLogic
namespace Closure

variable {α : Type}

/-- A point of the domain that is a seed, or the successor of a point that is reached. -/
inductive Reaches (next : α → List α) (domain seeds : List α) : α → Prop where
  | seed {a : α} : a ∈ domain → a ∈ seeds → Reaches next domain seeds a
  | step {a b : α} : Reaches next domain seeds a → b ∈ domain → b ∈ next a →
      Reaches next domain seeds b

theorem Reaches.mem_domain {next : α → List α} {domain seeds : List α} {a : α}
    (h : Reaches next domain seeds a) : a ∈ domain := by
  cases h with
  | seed h _ => exact h
  | step _ h _ => exact h

variable [DecidableEq α]

/-- Takes at most `n` unseen points off the queue, and adds the successors of each to its end. -/
def spread (next : α → List α) : Nat → List α → List α → List α
  | 0, _, _ => []
  | n + 1, unseen, queue =>
    match queue.dropWhile (! unseen.contains ·) with
    | [] => []
    | a :: rest => a :: spread next n (unseen.erase a) (rest ++ next a)

/-- The points of the domain that are reached from the seeds. -/
def reach (next : α → List α) (domain seeds : List α) : List α :=
  spread next domain.length domain seeds

/-- Points of the queue that are not unseen can be left out. -/
theorem mem_dropWhile {unseen queue : List α} {a : α} (h : a ∈ unseen) :
    a ∈ queue.dropWhile (! unseen.contains ·) ↔ a ∈ queue := by
  induction queue with
  | nil => rfl
  | cons b queue ih =>
    by_cases hb : b ∈ unseen
    · simp [hb]
    · have hne : a ≠ b := fun e => hb (e ▸ h)
      simpa [List.dropWhile_cons, hb, hne] using ih

/-- What is reached once a point was taken off the queue is reached before. -/
theorem Reaches.of_erase {next : α → List α} {unseen queue rest : List α} {b a : α}
    (hb : b ∈ unseen) (hq : b ∈ queue) (hr : ∀ c ∈ rest, c ∈ queue)
    (h : Reaches next (unseen.erase b) (rest ++ next b) a) : Reaches next unseen queue a := by
  induction h with
  | seed hd hs =>
    rcases List.mem_append.1 hs with hs | hs
    · exact .seed (List.mem_of_mem_erase hd) (hr _ hs)
    · exact .step (.seed hb hq) (List.mem_of_mem_erase hd) hs
  | step _ hd hs ih => exact .step ih (List.mem_of_mem_erase hd) hs

/-- What is reached before a point was taken off the queue is that point, or reached after. -/
theorem Reaches.erase {next : α → List α} {unseen queue rest : List α} {b a : α}
    (hr : ∀ c ∈ unseen, c ∈ queue → c = b ∨ c ∈ rest)
    (h : Reaches next unseen queue a) :
    a = b ∨ Reaches next (unseen.erase b) (rest ++ next b) a := by
  induction h with
  | @seed c hd hs =>
    by_cases hc : c = b
    · exact .inl hc
    · exact .inr (.seed ((List.mem_erase_of_ne hc).2 hd)
        (List.mem_append_left _ ((hr c hd hs).resolve_left hc)))
  | @step c d _ hd hs ih =>
    by_cases he : d = b
    · exact .inl he
    · have hd := (List.mem_erase_of_ne he).2 hd
      rcases ih with rfl | ih
      · exact .inr (.seed hd (List.mem_append_right _ hs))
      · exact .inr (.step ih hd hs)

theorem mem_spread (next : α → List α) {n : Nat} {unseen queue : List α}
    (hn : unseen.length ≤ n) (a : α) :
    a ∈ spread next n unseen queue ↔ Reaches next unseen queue a := by
  induction n generalizing unseen queue with
  | zero =>
    obtain rfl := List.length_eq_zero_iff.1 (Nat.le_zero.1 hn)
    exact ⟨fun h => by simp [spread] at h, fun h => absurd h.mem_domain (by simp)⟩
  | succ n ih =>
    rw [spread]
    split
    · rename_i hq
      have none (c : α) (hd : c ∈ unseen) (hs : c ∈ queue) : False :=
        List.not_mem_nil (hq ▸ (mem_dropWhile hd).2 hs)
      refine ⟨fun h => absurd h List.not_mem_nil, fun h => False.elim ?_⟩
      clear ih
      induction h with
      | seed hd hs => exact none _ hd hs
      | step _ _ _ h => exact h
    · rename_i b rest hq
      have hne : queue.dropWhile (! unseen.contains ·) ≠ [] := by rw [hq]; exact List.cons_ne_nil _ _
      have hb : b ∈ unseen := by
        have h := List.head_dropWhile_not (! unseen.contains ·) hne
        simp only [hq, List.head_cons] at h
        simpa using h
      have hqb : b ∈ queue := (mem_dropWhile hb).1 (hq ▸ List.mem_cons_self)
      have hlen : (unseen.erase b).length ≤ n := by
        rw [List.length_erase_of_mem hb]; omega
      rw [List.mem_cons, ih hlen]
      constructor
      · rintro (rfl | h)
        · exact .seed hb hqb
        · refine h.of_erase hb hqb fun c hc => ?_
          exact (List.dropWhile_suffix _).subset (hq ▸ List.mem_cons_of_mem _ hc)
      · refine fun h => h.erase fun c hc hcq => ?_
        exact List.mem_cons.1 (hq ▸ (mem_dropWhile hc).2 hcq)

/-- **The computed closure is what the rules reach.** -/
theorem mem_reach (next : α → List α) (domain seeds : List α) (a : α) :
    a ∈ reach next domain seeds ↔ Reaches next domain seeds a :=
  mem_spread next (Nat.le_refl _) a

end Closure
end LadderLogic
