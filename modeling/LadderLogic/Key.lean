import LadderLogic.Json.Argument

/-!
# Keys of tables

An entry of a table usually stands under a name. A key may also be null, a truth or a number; such a
key is never a name, not even one that is written like it. Truths count as 0 and 1 and numbers of one
value are one key, and an entry keeps the key under which it was put first. Arrays and objects are no
keys.

Main statement: what is put under a key is found under every key that is one with it, and under no
other (`find?_put`).

Source: the keys of the maps of `SimulationState` (section 3 of the specification).
-/

namespace LadderLogic

/-- A key that is no name. -/
inductive Plain where
  | null
  | truth (b : Bool)
  | int (n : Int)
  | real (x : Binary64)
  deriving DecidableEq, Repr

namespace Plain

/-- The key that a value is. -/
def ofJson? : Json → Option Plain
  | .null => some .null
  | .bool b => some (.truth b)
  | .int n => some (.int n)
  | .real x => some (.real x)
  | _ => none

/-- The value that a key is. -/
def toJson : Plain → Json
  | .null => .null
  | .truth b => .bool b
  | .int n => .int n
  | .real x => .real x

/-- The integer of a key. -/
def integer? : Plain → Option Int
  | .null => none
  | .truth b => some (if b then 1 else 0)
  | .int n => some n
  | .real x => x.integer?

/-- Whether two keys are one. -/
def same (a b : Plain) : Bool :=
  match a.integer?, b.integer? with
  | some m, some n => m == n
  | none, none => a == b
  | _, _ => false

@[simp]
theorem same_self (k : Plain) : k.same k = true := by
  unfold same
  cases k.integer? with
  | some n => exact beq_self_eq_true n
  | none => exact beq_self_eq_true k

/-- Keys that are one are the same as the same keys. -/
theorem same_congr {a b : Plain} (h : a.same b = true) (c : Plain) : a.same c = b.same c := by
  unfold same at h ⊢
  cases ha : a.integer? with
  | some m =>
    cases hb : b.integer? with
    | some n =>
      obtain rfl : m = n := by simpa [ha, hb] using h
      cases c.integer? <;> rfl
    | none => simp [ha, hb] at h
  | none =>
    cases hb : b.integer? with
    | some n => simp [ha, hb] at h
    | none =>
      obtain rfl : a = b := by simpa [ha, hb] using h
      rfl

end Plain

/-- A key of a table. -/
inductive Key where
  | name (s : Text)
  | other (k : Plain)
  deriving DecidableEq, Repr

namespace Key

/-- Whether two keys are one. -/
def same : Key → Key → Bool
  | .name s, .name t => s == t
  | .other a, .other b => a.same b
  | _, _ => false

@[simp]
theorem key_same_self (k : Key) : k.same k = true := by
  cases k with
  | name s => exact beq_self_eq_true s
  | other k => exact Plain.same_self k

end Key

namespace Json

/-- The key that a value is. -/
def key (v : Json) : Except ConversionError Key :=
  match v, Plain.ofJson? v with
  | .str s, _ => .ok (.name s)
  | _, some k => .ok (.other k)
  | v, none => .error (.notKey v.kind)

end Json

/-- Entries under keys that are no names, in the order in which they came. -/
abbrev Keyed (α : Type) := List (Plain × α)

namespace Keyed

variable {α : Type}

/-- The entry under a key. -/
def find? (entries : Keyed α) (k : Plain) : Option α :=
  match entries with
  | [] => none
  | (first, a) :: rest => if first.same k then some a else find? rest k

/-- Puts an entry under a key. -/
def put (entries : Keyed α) (k : Plain) (a : α) : Keyed α :=
  match entries with
  | [] => [(k, a)]
  | (first, b) :: rest => if first.same k then (first, a) :: rest else (first, b) :: put rest k a

/-- Puts several entries. -/
def putAll (entries updates : Keyed α) : Keyed α :=
  updates.foldl (fun entries update => entries.put update.1 update.2) entries

/-- The entries with their values changed. -/
def map {β : Type} (f : α → β) (entries : Keyed α) : Keyed β := List.map (fun e => (e.1, f e.2)) entries

/-- What is found once an entry was put under a key. -/
theorem find?_put (entries : Keyed α) (k : Plain) (a : α) (k' : Plain) :
    (entries.put k a).find? k' = if k.same k' then some a else entries.find? k' := by
  induction entries with
  | nil => rfl
  | cons entry rest ih =>
    rcases entry with ⟨first, b⟩
    rw [put]
    by_cases hk : first.same k = true
    · rw [if_pos hk, find?, find?, Plain.same_congr hk]
      split <;> rfl
    · rw [if_neg hk, find?, ih, find?]
      by_cases hfirst : first.same k' = true
      · have hne : k.same k' ≠ true := fun hsame => hk (by
          rw [Plain.same_congr hfirst, ← Plain.same_congr hsame, Plain.same_self])
        rw [if_pos hfirst, if_pos hfirst, if_neg hne]
      · rw [if_neg hfirst, if_neg hfirst]

/-- What is found once some entries were laid over others, the first of them last. -/
theorem find?_foldr_put (entries updates : Keyed α) (k : Plain) :
    (updates.foldr (fun update entries => put entries update.1 update.2) entries).find? k =
      (updates.find? k).or (entries.find? k) := by
  induction updates with
  | nil => rfl
  | cons update rest ih =>
    rcases update with ⟨first, a⟩
    rw [List.foldr_cons, find?_put, ih, find?]
    split <;> rfl

theorem find?_map {β : Type} (f : α → β) (entries : Keyed α) (k : Plain) :
    (entries.map f).find? k = (entries.find? k).map f := by
  induction entries with
  | nil => rfl
  | cons entry rest ih =>
    rcases entry with ⟨first, a⟩
    rw [find?, apply_ite (Option.map f), ← ih]
    rfl

theorem map_put {β : Type} (f : α → β) (entries : Keyed α) (k : Plain) (a : α) :
    (entries.put k a).map f = (entries.map f).put k (f a) := by
  induction entries with
  | nil => rfl
  | cons entry rest ih =>
    rcases entry with ⟨first, b⟩
    simp only [put, map, List.map_cons] at ih ⊢
    split
    · rfl
    · rw [List.map_cons, ih]

theorem map_foldr_put {β : Type} (f : α → β) (entries updates : Keyed α) :
    Keyed.map f (updates.foldr (fun update entries => put entries update.1 update.2) entries) =
      (updates.map f).foldr (fun update entries => put entries update.1 update.2) (entries.map f) := by
  induction updates with
  | nil => rfl
  | cons update rest ih =>
    rw [List.foldr_cons, map_put, ih]
    rfl

end Keyed
end LadderLogic
