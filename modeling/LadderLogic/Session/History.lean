import LadderLogic.State

/-!
# Snapshot histories

A history retains the states of past scans. The numbers of the scans stand in a queue, the oldest first,
and beside it the states stand in a table under these numbers. What is found is looked up in the table,
and how many there are is the length of the queue. A state that is new goes into both, and with a limit
the oldest go out of both until there are no more than that many.

Nothing here says that the queue and the table have the same numbers, or that a state stands under its
own. A number in the queue without a state in the table is a fault where the state is asked for.

Source: `History` (section 2 of the specification).
-/

namespace LadderLogic

/-- The states that are retained, under the numbers of their scans. -/
abbrev Snapshots := Std.ExtTreeMap Int State

/-- Retained states: the numbers of their scans from the oldest to the newest, and the states under
them. -/
structure History where
  limit : Option Nat
  ids : List Int
  snapshots : Snapshots
  deriving DecidableEq

namespace History

/-- Why a history refuses. -/
inductive Fault where
  /-- The limit is below 1. -/
  | badLimit
  /-- The new state's scan is not after the newest. -/
  | notIncreasing (scan newest : Int)
  /-- There is no state under this number. -/
  | notRetained (scan : Int)
  deriving DecidableEq, Repr

/-- The wording of a fault. -/
def Fault.message : Fault → Text
  | .badLimit => "history_limit must be >= 1 or None"
  | .notIncreasing scan newest =>
    s!"scan_id must be strictly increasing; got {scan} after {newest}"
  | .notRetained scan => .ofInt scan

/-- Checks a limit. -/
def checkLimit : Option Int → Except Fault (Option Nat)
  | none => .ok none
  | some n => if n < 1 then .error .badLimit else .ok (some n.toNat)

/-- The history with one state. -/
def start (limit : Option Nat) (s : State) : History where
  limit := limit
  ids := [s.scans]
  snapshots := (∅ : Snapshots).insert s.scans s

/-- The number of retained states. -/
def size (h : History) : Nat := h.ids.length

/-- The retained state of a scan. -/
def find (h : History) (scan : Int) : Except Fault State :=
  match h.snapshots[scan]? with
  | some s => .ok s
  | none => .error (.notRetained scan)

/-- The last `n` retained states, from older to newer. -/
def latest (h : History) (n : Int) : Except Fault (List State) :=
  (h.ids.drop (h.ids.length - n.toNat)).mapM h.find

/-- Lets the oldest go until no more than `limit` are left. -/
def evict (limit : Nat) (ids : List Int) (snapshots : Snapshots) :
    Except Fault (List Int × Snapshots) :=
  match ids with
  | [] => .ok ([], snapshots)
  | oldest :: rest =>
    if limit < (oldest :: rest).length then
      if oldest ∈ snapshots then evict limit rest (snapshots.erase oldest)
      else .error (.notRetained oldest)
    else .ok (oldest :: rest, snapshots)

/-- Retains a state, and lets the oldest go that are over the limit. -/
def retain (h : History) (s : State) : Except Fault History :=
  let ids := h.ids ++ [s.scans]
  let snapshots := h.snapshots.insert s.scans s
  match h.limit with
  | none => .ok { h with ids, snapshots }
  | some n => (evict n ids snapshots).map fun kept => { h with ids := kept.1, snapshots := kept.2 }

/-- Retains a state whose scan is after the newest. -/
def append (h : History) (s : State) : Except Fault History :=
  match h.ids.getLast? with
  | none => h.retain s
  | some newest =>
    if s.scans ≤ newest then .error (.notIncreasing s.scans newest) else h.retain s

/-- The history that starts over from a state. -/
def reset (h : History) (s : State) : History := start h.limit s

end History
end LadderLogic
