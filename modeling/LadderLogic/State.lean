import LadderLogic.Bank

/-!
# States

The memory of the simulated controller between two scans. Each kind of device has a table of its own,
so that a bit and a register of one name never meet. Two states are equal as soon as their tables
have the same entries. Entries under keys that are no names stand apart (`Strays`): a program of
instructions never meets them.

Source: `SimulationState` with `initial`, `bit`, `register`, `with_io`, `with_data` and `next_scan`
(section 3 of the specification).
-/

namespace LadderLogic

namespace Table

/-- The table of the truths of some fields. -/
def ofTruths (fields : Json.Fields) : Table Bool :=
  .ofList (fields.map fun (name, v) => (name, v.truth))

/-- The integers of some fields. The first field that holds none decides the error. -/
def integers : Json.Fields → Except Json.ConversionError (List (Text × Int))
  | [] => .ok []
  | (name, v) :: rest =>
    match v.toInt with
    | .error e => .error e
    | .ok n => (integers rest).map ((name, n) :: ·)

/-- The table of the integers of some fields. -/
def ofIntegers (fields : Json.Fields) : Except Json.ConversionError (Table Int) :=
  (integers fields).map fun entries => .ofList entries

end Table

/-- The entries of a state under keys that are no names. -/
@[ext]
structure Strays (β : Type := Bool) (ν : Type := Int) where
  bits : Keyed β := []
  registers : Keyed ν := []
  timers : Keyed ν := []
  counters : Keyed ν := []
  edges : Keyed β := []
  deriving DecidableEq, Repr

/-- A state: bits (inputs, outputs, relays and the done bits of timers and counters), data registers,
elapsed milliseconds of timers, counts of counters, the enables that edge-triggered operations
remember, the branch stack left over from the last scan with its top first, the number of scans and
the milliseconds that they took together. Truths are of type `β` and numbers of type `ν`. -/
structure State (β : Type := Bool) (ν : Type := Int) where
  bits : Table β := ∅
  registers : Table ν := ∅
  timers : Table ν := ∅
  counters : Table ν := ∅
  edges : Table β := ∅
  branches : List β := []
  scans : Int := 0
  elapsed : Int := 0
  strays : Strays β ν := {}
  deriving DecidableEq

namespace State

/-! ## Banks -/

section Banks

variable {β ν : Type} (s : State β ν)

/-- The bits under all keys. -/
def bitBank : Bank β := ⟨s.bits, s.strays.bits⟩

/-- The registers under all keys. -/
def registerBank : Bank ν := ⟨s.registers, s.strays.registers⟩

/-- The timers under all keys. -/
def timerBank : Bank ν := ⟨s.timers, s.strays.timers⟩

/-- The counters under all keys. -/
def counterBank : Bank ν := ⟨s.counters, s.strays.counters⟩

/-- The remembered enables under all keys. -/
def edgeBank : Bank β := ⟨s.edges, s.strays.edges⟩

/-- The state with other banks. -/
def withBanks (bits : Bank β) (registers timers counters : Bank ν) (edges : Bank β) : State β ν :=
  { s with
    bits := bits.names
    registers := registers.names
    timers := timers.names
    counters := counters.names
    edges := edges.names
    strays := ⟨bits.strays, registers.strays, timers.strays, counters.strays, edges.strays⟩ }

theorem eq_of_banks {s t : State β ν} (hbits : s.bitBank = t.bitBank)
    (hregisters : s.registerBank = t.registerBank) (htimers : s.timerBank = t.timerBank)
    (hcounters : s.counterBank = t.counterBank) (hedges : s.edgeBank = t.edgeBank)
    (hbranches : s.branches = t.branches) (hscans : s.scans = t.scans)
    (helapsed : s.elapsed = t.elapsed) : s = t := by
  rcases s with ⟨_, _, _, _, _, _, _, _, _⟩
  rcases t with ⟨_, _, _, _, _, _, _, _, _⟩
  simp_all [bitBank, registerBank, timerBank, counterBank, edgeBank, Strays.ext_iff]

/-- The state with some bits set anew. -/
def withBits (updates : Table β) : State β ν := { s with bits := s.bits ∪ updates }

/-- The state with some registers set anew. -/
def withRegisters (updates : Table ν) : State β ν := { s with registers := s.registers ∪ updates }

/-- The state one scan later. -/
def nextScan (dt : Int) : State β ν := { s with scans := s.scans + 1, elapsed := s.elapsed + dt }

/-- The state with its values changed. -/
def map {β' ν' : Type} (f : β → β') (g : ν → ν') : State β' ν' where
  bits := s.bits.map fun _ => f
  registers := s.registers.map fun _ => g
  timers := s.timers.map fun _ => g
  counters := s.counters.map fun _ => g
  edges := s.edges.map fun _ => f
  branches := s.branches.map f
  scans := s.scans
  elapsed := s.elapsed
  strays :=
    ⟨s.strays.bits.map f, s.strays.registers.map g, s.strays.timers.map g, s.strays.counters.map g,
      s.strays.edges.map f⟩

end Banks

/-! ## Values -/

/-- The value of a bit. A bit without an entry is off. -/
def bit (s : State) (name : Text) : Bool := s.bits.getD name false

/-- The value of a register. A register without an entry holds 0. -/
def register (s : State) (name : Text) : Int := s.registers.getD name 0

/-- The value of the bit under a key. -/
def bitAt (s : State) : Key → Bool
  | .name name => s.bit name
  | .other k => (s.strays.bits.find? k).getD false

/-- The value of the register under a key. -/
def registerAt (s : State) : Key → Int
  | .name name => s.register name
  | .other k => (s.strays.registers.find? k).getD 0

/-- The state with some bits set anew under keys that are no names. -/
def withStrayBits (s : State) (updates : Keyed Bool) : State :=
  { s with strays := { s.strays with bits := s.strays.bits.putAll updates } }

theorem bitAt_eq_getD (s : State) (k : Key) : s.bitAt k = (s.bitBank.get? k).getD false := by
  cases k with
  | name name => exact Std.ExtTreeMap.getD_eq_getD_getElem?
  | other k => rfl

theorem registerAt_eq_getD (s : State) (k : Key) : s.registerAt k = (s.registerBank.get? k).getD 0 := by
  cases k with
  | name name => exact Std.ExtTreeMap.getD_eq_getD_getElem?
  | other k => rfl

end State
end LadderLogic
