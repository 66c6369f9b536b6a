import LadderLogic.Request

/-!
# Memories

A state as it comes from outside: the values in its tables may be of any kind, and each is understood
only when it is read. What is written to bits, registers and enables has the right kind. A memory is a
state with values of any kind, and is scanned as one.

Every state is a memory (`State.toMemory`), and it is known of a memory whether it is a state, and which
one (`toState?_eq_some_iff`). A state and its memory are read alike, and a scan in progress answers every
request as the scan of its memory does (`perform_toMemory`).

Source: `SimulationState` and `ScanContext` (sections 2 and 3 of the specification), whose maps hold
whatever was put into them.
-/

namespace LadderLogic

/-! ## Values of one kind -/

section Traverse

variable {α β : Type} (f : α → Option β)

/-- The table of what the values are, if each of them is something. -/
def Table.traverse? (t : Table α) : Option (Table β) :=
  let found := t.filterMap fun _ a => f a
  if found.size = t.size then some found else none

/-- The bank of what the values are, if each of them is something. -/
def Bank.traverse? (b : Bank α) : Option (Bank β) := do
  return { names := ← Table.traverse? f b.names, strays := ← b.strays.mapM fun e => (f e.2).map (e.1, ·) }

variable {f} {g : β → α}

theorem Table.traverse?_eq_some_iff (h : ∀ a b, f a = some b ↔ a = g b) {t : Table α} {u : Table β} :
    Table.traverse? f t = some u ↔ t = u.map fun _ => g := by
  simp only [traverse?, Option.ite_none_right_eq_some, Option.some.injEq,
    Std.ExtTreeMap.size_filterMap_eq_size_iff]
  constructor
  · rintro ⟨hall, rfl⟩
    refine Std.ExtTreeMap.ext_getElem? fun name => ?_
    rw [Std.ExtTreeMap.getElem?_map, Std.ExtTreeMap.getElem?_filterMap']
    by_cases hname : name ∈ t
    · obtain ⟨b, hb⟩ := Option.isSome_iff_exists.1 (hall name hname)
      rw [Std.ExtTreeMap.getElem?_eq_some_getElem hname, Option.bind_some, hb, (h _ b).1 hb,
        Option.map_some]
    · rw [Std.ExtTreeMap.getElem?_eq_none hname]
      rfl
  · rintro rfl
    have hback (b : β) : f (g b) = some b := (h (g b) b).2 rfl
    refine ⟨fun name hname => ?_, Std.ExtTreeMap.ext_getElem? fun name => ?_⟩
    · rw [Std.ExtTreeMap.getElem_map, hback, Option.isSome_some]
    · rw [Std.ExtTreeMap.getElem?_filterMap', Std.ExtTreeMap.getElem?_map]
      cases u[name]? with
      | none => rfl
      | some b => exact hback b

theorem mapM_eq_some_iff (h : ∀ a b, f a = some b ↔ a = g b) {l : List α} {l' : List β} :
    l.mapM f = some l' ↔ l = l'.map g := by
  induction l generalizing l' with
  | nil => cases l' <;> simp
  | cons a l ih => cases l' <;> simp [Option.bind_eq_some_iff, ih, h]

theorem Bank.traverse?_eq_some_iff (h : ∀ a b, f a = some b ↔ a = g b) {b : Bank α} {c : Bank β} :
    b.traverse? f = some c ↔ b = c.map g := by
  have hentry (e : Plain × α) (e' : Plain × β) :
      (f e.2).map (e.1, ·) = some e' ↔ e = (e'.1, g e'.2) := by
    rcases e with ⟨k, a⟩
    rcases e' with ⟨k', b⟩
    simp only [Option.map_eq_some_iff, h, Prod.mk.injEq]
    constructor
    · rintro ⟨_, ha, hk, hb⟩
      exact ⟨hk, hb ▸ ha⟩
    · rintro ⟨hk, ha⟩
      exact ⟨b, ha, hk, rfl⟩
  rcases b with ⟨names, strays⟩
  rcases c with ⟨names', strays'⟩
  simp only [traverse?, map, bind, Option.bind_eq_some_iff, pure, Table.traverse?_eq_some_iff h,
    mapM_eq_some_iff hentry]
  simp [Keyed.map]

end Traverse

/-! ## Memories and states -/

/-- A state whose tables may hold any values. -/
abbrev Memory := State Json Json

/-- The memory that a state is. -/
def State.toMemory (s : State) : Memory := s.map .bool .int

namespace Json

/-- The truth that a value is. -/
def truth? : Json → Option Bool
  | .bool b => some b
  | _ => none

/-- The integer that a value is. -/
def int? : Json → Option Int
  | .int n => some n
  | _ => none

theorem truth?_eq_some_iff (v : Json) (b : Bool) : v.truth? = some b ↔ v = .bool b := by
  cases v <;> simp [truth?]

theorem int?_eq_some_iff (v : Json) (n : Int) : v.int? = some n ↔ v = .int n := by
  cases v <;> simp [int?]

end Json

namespace Memory

/-- The state that a memory is. -/
def toState? (m : Memory) : Option State := do
  let s : State := { branches := ← m.branches.mapM Json.truth?, scans := m.scans, elapsed := m.elapsed }
  return s.withBanks (← m.bitBank.traverse? Json.truth?) (← m.registerBank.traverse? Json.int?)
    (← m.timerBank.traverse? Json.int?) (← m.counterBank.traverse? Json.int?)
    (← m.edgeBank.traverse? Json.truth?)

/-- A memory is a state if it is the memory of that state. -/
theorem toState?_eq_some_iff {m : Memory} {s : State} : m.toState? = some s ↔ m = s.toMemory := by
  simp only [toState?, bind, Option.bind_eq_some_iff, pure, Option.some.injEq,
    mapM_eq_some_iff Json.truth?_eq_some_iff, Bank.traverse?_eq_some_iff Json.truth?_eq_some_iff,
    Bank.traverse?_eq_some_iff Json.int?_eq_some_iff]
  constructor
  · rintro ⟨branches, hbranches, bits, hbits, registers, hregisters, timers, htimers, counters, hcounters,
      edges, hedges, rfl⟩
    exact State.eq_of_banks hbits hregisters htimers hcounters hedges hbranches rfl rfl
  · rintro rfl
    exact ⟨s.branches, rfl, s.bitBank, rfl, s.registerBank, rfl, s.timerBank, rfl, s.counterBank, rfl,
      s.edgeBank, rfl, rfl⟩

/-- The truth of a bit. -/
def truthAt (m : Memory) (k : Key) : Bool := ((m.bitBank.get? k).map Json.truth).getD false

/-- The integer of a register. -/
def integerAt (m : Memory) (k : Key) : Except Json.ConversionError Int :=
  ((m.registerBank.get? k).map Json.toInt).getD (.ok 0)

/-- The memory with some bits set anew. -/
def withTruths (m : Memory) (updates : Table Bool) : Memory := m.withBits (updates.map fun _ => .bool)

/-- The memory with some registers set anew. -/
def withIntegers (m : Memory) (updates : Table Int) : Memory := m.withRegisters (updates.map fun _ => .int)

end Memory

theorem State.truthAt_toMemory (s : State) (k : Key) : s.toMemory.truthAt k = s.bitAt k := by
  have hbank : s.toMemory.bitBank = s.bitBank.map .bool := rfl
  rw [Memory.truthAt, hbank, Bank.get?_map, bitAt_eq_getD]
  cases s.bitBank.get? k <;> rfl

theorem State.integerAt_toMemory (s : State) (k : Key) :
    s.toMemory.integerAt k = .ok (s.registerAt k) := by
  have hbank : s.toMemory.registerBank = s.registerBank.map .int := rfl
  rw [Memory.integerAt, hbank, Bank.get?_map, registerAt_eq_getD]
  cases s.registerBank.get? k <;> rfl

theorem State.toMemory_withBits (s : State) (updates : Table Bool) :
    (s.withBits updates).toMemory = s.toMemory.withTruths updates := by
  simp only [toMemory, map, withBits, Memory.withTruths, Table.map_union]

theorem State.toMemory_withRegisters (s : State) (updates : Table Int) :
    (s.withRegisters updates).toMemory = s.toMemory.withIntegers updates := by
  simp only [toMemory, map, withRegisters, Memory.withIntegers, Table.map_union]

/-! ## Scans -/

/-- Values of any kind. -/
def Values.raw : Values Json Json Json where
  truth found := (found.map Json.truth).getD false
  ofBool := .bool
  ofInt := .int
  span := Json.span

/-- A request for other values. -/
def Scan.Request.map {ν ν' : Type} (g : ν → ν') : Request ν → Request ν'
  | .push b => .push b
  | .pop => .pop
  | .peek => .peek
  | .bit k => .bit k
  | .setBit k b => .setBit k b
  | .register k => .register k
  | .registers => .registers
  | .setRegister k n => .setRegister k n
  | .timer k => .timer k
  | .setTimer k n => .setTimer k (g n)
  | .counter k => .counter k
  | .setCounter k n => .setCounter k (g n)
  | .rise k enable => .rise k enable
  | .clearEdge k => .clearEdge k
  | .pushBranch b => .pushBranch b
  | .commit => .commit

/-- An answer with other values. -/
def Scan.Answer.map {β ν β' ν' : Type} (f : β → β') (g : ν → ν') : Answer β ν → Answer β' ν'
  | .done => .done
  | .truth b => .truth b
  | .number n => .number (g n)
  | .bank b => .bank (b.map g)
  | .state s => .state (s.map f g)

namespace Scan

/-- The scan of the memory that a state is. -/
def toMemory (s : Scan) : Scan Json Json Json := s.map .bool .int .int

theorem toMemory_start (s : State) (dt : Int) : (start s dt).toMemory = start s.toMemory (.int dt) := by
  simp only [toMemory, map, start, Ledger.map_opened]
  rfl

theorem number_toMemory (l : Ledger Int) (k : Key) :
    ((l.map Json.int).read? k).getD (Values.raw.ofInt 0) =
      .int ((l.read? k).getD (Values.plain.ofInt 0)) := by
  rw [Ledger.read?_map]
  exact Option.getD_map Json.int 0 (l.read? k)

theorem truth_toMemory (l : Ledger Bool) (k : Key) :
    Values.raw.truth ((l.map Json.bool).read? k) = Values.plain.truth (l.read? k) := by
  rw [Ledger.read?_map]
  cases l.read? k <;> rfl

/-- A scan in progress answers as the scan of its memory does. -/
theorem perform_toMemory (s : Scan) (r : Request) :
    s.toMemory.perform .raw (r.map .int) =
      ((s.perform .plain r).1.map (.map .bool .int), (s.perform .plain r).2.toMemory) := by
  cases r with
  | push | pop | peek | pushBranch | commit => rfl
  | bit | register | registers | timer | counter =>
    simp only [perform, Request.map, toMemory, map, truth_toMemory, number_toMemory, Ledger.view_map]
    rfl
  | rise =>
    simp only [perform, Request.map, toMemory, map, truth_toMemory, setEdgeAt, Ledger.map_write]
    rfl
  | setBit | setRegister | setTimer | setCounter | clearEdge =>
    simp only [perform, Request.map, toMemory, map, setBitAt, setRegisterAt, setTimerAt, setCounterAt,
      setEdgeAt, Ledger.map_write]
    rfl

/-- So do the scans after any requests. -/
theorem performAll_toMemory (s : State) (dt : Int) (requests : List Request) :
    (start s.toMemory (.int dt)).performAll .raw (requests.map (.map .int)) =
      ((start s dt).performAll .plain requests).toMemory := by
  rw [← toMemory_start]
  generalize start s dt = u
  induction requests generalizing u with
  | nil => rfl
  | cons r requests ih =>
    have hfirst : (u.toMemory.perform .raw (r.map .int)).2 = (u.perform .plain r).2.toMemory :=
      congrArg Prod.snd (perform_toMemory u r)
    have hrest := ih (u.perform .plain r).2
    rw [← hfirst] at hrest
    exact hrest

end Scan
end LadderLogic
