import LadderLogic.Key
import Std.Data.ExtTreeMap

/-!
# Banks of devices

The devices of one kind make up a bank: values under names, and beside them the values under keys that
are no names. In the course of a scan a bank is kept three times (`Ledger`): as the scan has found it,
as a bank of what was written since, and as it is to be handed out when the scan is done. A write goes
to the second and to the third; a read looks into the second and then into the first, and never into
the third. So reads and what is handed out agree only if no write leaves one of the two out, and every
ledger carries the proof that none has (`inStep`).

Source: the batched writes of `ScanContext` (section 2 of the specification): `pending` and `base` are
what its views chain together, and `updated` is its evolver.
-/

namespace LadderLogic

/-- A finite table of values under names. -/
abbrev Table (α : Type) := Std.ExtTreeMap Text α

theorem Table.map_union {α β : Type} (f : α → β) (t updates : Table α) :
    (t ∪ updates).map (fun _ a => f a) = t.map (fun _ a => f a) ∪ updates.map fun _ a => f a := by
  refine Std.ExtTreeMap.ext_getElem? fun name => ?_
  simp only [Std.ExtTreeMap.getElem?_map, Std.ExtTreeMap.getElem?_union, Option.map_or]

/-- The devices of one kind: values under names, and values under keys that are no names. -/
structure Bank (α : Type) where
  names : Table α := ∅
  strays : Keyed α := []
  deriving DecidableEq

namespace Bank

variable {α β : Type}

/-- The value under a key. -/
def get? (b : Bank α) : Key → Option α
  | .name s => b.names[s]?
  | .other k => b.strays.find? k

/-- Puts a value under a key. -/
def put (b : Bank α) (k : Key) (a : α) : Bank α :=
  match k with
  | .name s => { b with names := b.names.insert s a }
  | .other k => { b with strays := b.strays.put k a }

/-- Lays one bank over another. -/
def layOver (updates b : Bank α) : Bank α where
  names := b.names ∪ updates.names
  strays := updates.strays.foldr (fun update entries => entries.put update.1 update.2) b.strays

/-- The bank with its values changed. -/
def map (f : α → β) (b : Bank α) : Bank β where
  names := b.names.map fun _ a => f a
  strays := b.strays.map f

@[simp]
theorem get?_empty (k : Key) : ({} : Bank α).get? k = none := by
  cases k with
  | name s => exact Std.ExtTreeMap.getElem?_empty
  | other k => rfl

/-- What stands under a key once a value was put under another. -/
theorem get?_put (b : Bank α) (k : Key) (a : α) (k' : Key) :
    (b.put k a).get? k' = if k.same k' then some a else b.get? k' := by
  cases k with
  | name s =>
    cases k' with
    | name t => simp [put, get?, Std.ExtTreeMap.getElem?_insert, Key.same]
    | other k' => rfl
  | other k =>
    cases k' with
    | name t => rfl
    | other k' => exact b.strays.find?_put k a k'

theorem get?_layOver (updates b : Bank α) (k : Key) :
    (updates.layOver b).get? k = (updates.get? k).or (b.get? k) := by
  cases k with
  | name s => exact Std.ExtTreeMap.getElem?_union
  | other k => exact b.strays.find?_foldr_put updates.strays k

theorem get?_map (f : α → β) (b : Bank α) (k : Key) : (b.map f).get? k = (b.get? k).map f := by
  cases k with
  | name s => exact Std.ExtTreeMap.getElem?_map
  | other k => exact b.strays.find?_map f k

@[simp]
theorem map_empty (f : α → β) : ({} : Bank α).map f = {} := by
  have hnames : (∅ : Table α).map (fun _ a => f a) = ∅ :=
    Std.ExtTreeMap.ext_getElem? fun _ => by simp
  rw [map, hnames]
  rfl

theorem map_put (f : α → β) (b : Bank α) (k : Key) (a : α) :
    (b.put k a).map f = (b.map f).put k (f a) := by
  cases k with
  | name s =>
    have hnames : (b.names.insert s a).map (fun _ a => f a) = (b.names.map fun _ a => f a).insert s (f a) := by
      refine Std.ExtTreeMap.ext_getElem? fun t => ?_
      simp only [Std.ExtTreeMap.getElem?_map, Std.ExtTreeMap.getElem?_insert]
      split <;> rfl
    simp only [put, map, hnames]
  | other k => simp only [put, map, Keyed.map_put]

theorem map_layOver (f : α → β) (updates b : Bank α) :
    (updates.layOver b).map f = (updates.map f).layOver (b.map f) := by
  simp only [layOver, map, Table.map_union, Keyed.map_foldr_put]

end Bank

/-- A bank in the course of a scan: as it was found, what has been written since, and as it is to be
handed out. -/
structure Ledger (α : Type) where
  base : Bank α
  pending : Bank α := {}
  updated : Bank α
  inStep : ∀ k, updated.get? k = (pending.get? k).or (base.get? k)
  deriving DecidableEq

namespace Ledger

variable {α β : Type}

/-- The ledger of a bank that nothing was written to. -/
def opened (b : Bank α) : Ledger α where
  base := b
  updated := b
  inStep k := by rw [Bank.get?_empty, Option.none_or]

/-- What is read under a key: what was written there, or else what was found there. -/
def read? (l : Ledger α) (k : Key) : Option α := (l.pending.get? k).or (l.base.get? k)

/-- The whole bank as it is read. -/
def view (l : Ledger α) : Bank α := l.pending.layOver l.base

/-- Writes a value under a key, for reads and for what is handed out. -/
def write (l : Ledger α) (k : Key) (a : α) : Ledger α where
  base := l.base
  pending := l.pending.put k a
  updated := l.updated.put k a
  inStep k' := by
    rw [Bank.get?_put, Bank.get?_put, l.inStep]
    split <;> rfl

/-- The ledger with its values changed. -/
def map (f : α → β) (l : Ledger α) : Ledger β where
  base := l.base.map f
  pending := l.pending.map f
  updated := l.updated.map f
  inStep k := by rw [Bank.get?_map, Bank.get?_map, Bank.get?_map, l.inStep, Option.map_or]

/-- A read finds what is handed out. -/
theorem read?_eq (l : Ledger α) (k : Key) : l.read? k = l.updated.get? k := (l.inStep k).symm

theorem get?_view (l : Ledger α) (k : Key) : l.view.get? k = l.read? k := Bank.get?_layOver _ _ k

theorem read?_map (f : α → β) (l : Ledger α) (k : Key) : (l.map f).read? k = (l.read? k).map f := by
  rw [read?_eq, read?_eq]
  exact Bank.get?_map f l.updated k

theorem view_map (f : α → β) (l : Ledger α) : (l.map f).view = l.view.map f :=
  (Bank.map_layOver f l.pending l.base).symm

theorem map_opened (f : α → β) (b : Bank α) : (opened b).map f = opened (b.map f) := by
  simp only [map, opened, Bank.map_empty]

theorem map_write (f : α → β) (l : Ledger α) (k : Key) (a : α) :
    (l.write k a).map f = (l.map f).write k (f a) := by
  simp only [map, write, Bank.map_put]

end Ledger
end LadderLogic
