import LadderLogic.Draft.Scan
import LadderLogic.Proofs.Edits
import LadderLogic.Proofs.Steps

/-!
# Pulse moves put into a running program

A program is edited while it runs, and the state is carried on from scan to scan. What a pulse move
remembers hangs on its id, and a new draft has an id above all that are there at the time. As long as no
draft with that id was taken out before, a new pulse move finds nothing remembered. If one was, and it
was a pulse move when it was last run, the new one takes over what that one has remembered
(`pulsed_of_inserted`): it does not move if the old one was enabled last
(`inserted_pulse_takes_over`).

Source: `insert_instruction`, and the pulse moves of `step` (sections 3 and 4.2 of the specification).
-/

namespace LadderLogic

open Instruction (pulseKey pulseName)

namespace Draft

/-! ## One draft -/

/-- Whether a draft is a pulse move with an id. -/
def isPulseOf (id : Int) (d : Draft) : Bool :=
  match d.operation with
  | .ok (.known (.coil .movePulse)) => d.id = id
  | _ => false

variable {d : Draft} {id : Int} {s u v w : Scan}

theorem isPulseOf_iff :
    d.isPulseOf id = true ↔ d.operation = .ok (.known (.coil .movePulse)) ∧ d.id = id := by
  unfold isPulseOf
  split
  · next ho => simp [ho]
  · next ho =>
    constructor
    · intro h
      cases h
    · rintro ⟨hp, -⟩
      exact absurd hp ho

theorem isPulseOf_new (id : Int) (value : Json) (args : List Json) :
    isPulseOf id ⟨id, .str (Opcode.coil .movePulse).name, value, args⟩ = true :=
  isPulseOf_iff.2 ⟨rfl, rfl⟩

theorem getElem?_edges_insert {edges : Table Bool} {name key : Text} (h : name ≠ key) (b : Bool) :
    (edges.insert name b)[key]? = edges[key]? := by
  simp [Std.ExtTreeMap.getElem?_insert, h]

/-- Output coils remember enables of counters only. -/
theorem edges_out {name key : Text} {preset : Except Json.ConversionError Int}
    (hkey : Family.ofName key ≠ .counter) (h : s.out name preset = .ok v) :
    v.state.edges[key]? = s.state.edges[key]? := by
  unfold Scan.out at h
  split at h
  · rcases Scan.outTimer_cases h with ⟨-, rfl⟩ | ⟨-, p, -, rfl⟩ <;> rfl
  · next hf =>
    have hne : name ≠ key := fun he => hkey (he ▸ hf)
    rcases Scan.outCounter_cases h with ⟨-, rfl⟩ | ⟨-, p, count, counted, -, rfl, rfl, rfl⟩
    · exact getElem?_edges_insert hne s.peek
    · split <;> exact getElem?_edges_insert hne s.peek
  · obtain rfl := Except.ok.inj h
    rfl

/-- Reset coils clear enables of counters only. -/
theorem edges_reset {name key : Text} (hkey : Family.ofName key ≠ .counter) :
    (s.reset name).state.edges[key]? = s.state.edges[key]? := by
  unfold Scan.reset
  split
  · rfl
  · next hf =>
    have hne : name ≠ key := fun he => hkey (he ▸ hf)
    exact getElem?_edges_insert hne false
  · rfl
  · rfl

/-- What a move does, if it does not fail. -/
theorem move_cases (h : d.move s = .ok v) :
    if 2 ≤ d.args.length then
      ∃ n k, operand s (d.arg 0 .null) = .ok n ∧ (d.arg 1 .null).key = .ok k ∧ v = s.setRegisterAt k n
    else v = s := by
  rw [move] at h
  rw [arg, arg]
  generalize d.args = args at h ⊢
  rcases args with _ | ⟨source, _ | ⟨target, rest⟩⟩
  · exact (Except.ok.inj h).symm
  · exact (Except.ok.inj h).symm
  · have htwo : 2 ≤ (source :: target :: rest).length := Nat.le_add_left 2 rest.length
    rw [if_pos htwo]
    cases hn : operand s source with
    | error e =>
      simp only [hn, bind, Except.bind] at h
      cases h
    | ok n =>
      cases hk : target.key with
      | error e =>
        simp only [hn, hk, bind, Except.bind] at h
        cases h
      | ok k =>
        simp only [hn, hk, bind, Except.bind] at h
        exact ⟨n, k, hn, hk, (Except.ok.inj h).symm⟩

theorem edges_setRegisterAt (s : Scan) (k : Key) (n : Int) :
    (s.setRegisterAt k n).state.edges = s.state.edges := by
  cases k <;> rfl

theorem edges_move (h : d.move s = .ok v) : v.state.edges = s.state.edges := by
  have hmove := move_cases h
  split at hmove
  · obtain ⟨n, k, -, -, rfl⟩ := hmove
    exact edges_setRegisterAt s k n
  · rw [hmove]

/-- A scan after a pulse move: the enable is remembered, and if the pulse move has fired, the register
that its second operand names has been set to the value of its first one. -/
def Pulsed (d : Draft) (u : Scan) (fires : Prop) (v : Scan) : Prop :=
  let seen := u.setEdge (pulseName d.id) u.peek
  (fires → ∃ n k, operand u (d.arg 0 .null) = .ok n ∧ (d.arg 1 .null).key = .ok k ∧
    v = seen.setRegisterAt k n) ∧
  (¬fires → v = seen)

theorem Pulsed.getElem?_edges {fires : Prop} (h : d.Pulsed u fires v) :
    v.state.edges[pulseName d.id]? = some u.peek := by
  by_cases hf : fires
  · obtain ⟨n, k, -, -, rfl⟩ := h.1 hf
    rw [edges_setRegisterAt]
    exact Std.ExtTreeMap.getElem?_insert_self
  · rw [h.2 hf]
    exact Std.ExtTreeMap.getElem?_insert_self

/-- A pulse move fires if it has two operands and its enable rises. -/
theorem pulsed_of_movePulse (h : d.movePulse u = .ok v) :
    d.Pulsed u (2 ≤ d.args.length ∧ u.peek = true ∧ u.edge (pulseName d.id) = false) v := by
  unfold movePulse at h
  cases hkey : pulseKey d.id with
  | error fault =>
    rw [hkey] at h
    cases h
  | ok key =>
    obtain rfl : key = pulseName d.id := Instruction.pulseKey_eq_ok hkey
    rw [hkey] at h
    replace h : (if u.rises (pulseName d.id) u.peek then
        d.move (u.setEdge (pulseName d.id) u.peek) else .ok (u.setEdge (pulseName d.id) u.peek)) =
      .ok v := h
    split at h
    · next hr =>
      have hmove := move_cases h
      refine ⟨fun hf => ?_, fun hf => ?_⟩
      · rw [if_pos hf.1] at hmove
        exact hmove
      · rw [if_neg fun hlen => hf ⟨hlen, Scan.rises_iff.1 hr⟩] at hmove
        exact hmove
    · next hr => exact ⟨fun hf => absurd (Scan.rises_iff.2 hf.2) hr, fun _ => (Except.ok.inj h).symm⟩

theorem pulsed_of_exec (hd : d.isPulseOf id = true) (h : d.exec u = .ok v) :
    d.Pulsed u (2 ≤ d.args.length ∧ u.peek = true ∧ u.edge (pulseName id) = false) v := by
  obtain ⟨ho, rfl⟩ := isPulseOf_iff.1 hd
  unfold exec at h
  rw [ho] at h
  exact pulsed_of_movePulse h

theorem pulseName_inj {id id' : Int} (h : pulseName id = pulseName id') : id = id' :=
  Text.ofInt_inj (List.append_cancel_left h)

/-- A coil that is no pulse move with an id leaves what is remembered for that id. -/
theorem edges_coil {c : Coil} (hc : c = .movePulse → d.id ≠ id) (h : d.coil s c = .ok v) :
    v.state.edges[pulseName id]? = s.state.edges[pulseName id]? := by
  have hkey : Family.ofName (pulseName id) ≠ .counter := by
    intro hf
    cases (Family.ofName_pulse id).symm.trans hf
  cases c with
  | out =>
    unfold coil at h
    cases hname : d.value.name with
    | error e =>
      rw [hname] at h
      cases h
    | ok name =>
      rw [hname] at h
      exact edges_out hkey h
  | set =>
    simp only [coil] at h
    split at h
    · obtain ⟨k, -, rfl⟩ := exists_of_map_eq_ok h
      cases k <;> rfl
    · rw [Except.ok.inj h]
  | reset =>
    simp only [coil] at h
    split at h
    · obtain ⟨name, -, rfl⟩ := exists_of_map_eq_ok h
      exact edges_reset hkey
    · rw [Except.ok.inj h]
  | move =>
    simp only [coil] at h
    split at h
    · rw [edges_move h]
    · rw [Except.ok.inj h]
  | movePulse =>
    obtain ⟨hfires, hrests⟩ := pulsed_of_movePulse h
    have hother : (s.setEdge (pulseName d.id) s.peek).state.edges[pulseName id]? =
        s.state.edges[pulseName id]? :=
      getElem?_edges_insert (fun he => hc rfl (pulseName_inj he)) s.peek
    by_cases hf : 2 ≤ d.args.length ∧ s.peek = true ∧ s.edge (pulseName d.id) = false
    · obtain ⟨n, k, -, -, rfl⟩ := hfires hf
      rw [edges_setRegisterAt]
      exact hother
    · rw [hrests hf]
      exact hother

/-- A draft that is no pulse move with an id leaves what is remembered for that id. -/
theorem edges_exec (hd : d.isPulseOf id = false) (h : d.exec s = .ok v) :
    v.state.edges[pulseName id]? = s.state.edges[pulseName id]? := by
  unfold exec at h
  cases ho : d.operation with
  | error e =>
    rw [ho] at h
    cases h
  | ok operation =>
    rw [ho] at h
    rcases operation with (⟨position, t⟩ | join | b | c) | name
    · obtain ⟨logic, rfl⟩ := Scan.exists_logic_of_contact h
      rfl
    · obtain rfl := Except.ok.inj h
      cases join <;> rfl
    · obtain rfl := Except.ok.inj h
      cases b <;> rfl
    · refine edges_coil ?_ h
      rintro rfl hid
      exact Bool.eq_false_iff.1 hd (isPulseOf_iff.2 ⟨ho, hid⟩)
    · rw [Except.ok.inj h]

/-! ## Runs -/

theorem exists_exec_of_run {rest : List Draft} (h : run s (d :: rest) = .ok w) :
    ∃ v, d.exec s = .ok v ∧ run v rest = .ok w := by
  rw [run] at h
  cases hd : d.exec s with
  | error e =>
    rw [hd] at h
    cases h
  | ok v =>
    rw [hd] at h
    exact ⟨v, rfl, h⟩

theorem exists_run_of_append {before rest : List Draft} (h : run s (before ++ rest) = .ok w) :
    ∃ u, run s before = .ok u ∧ run u rest = .ok w := by
  induction before generalizing s with
  | nil => exact ⟨s, rfl, h⟩
  | cons d before ih =>
    obtain ⟨t, ht, hw⟩ := exists_exec_of_run h
    rw [run, ht]
    exact ih hw

theorem edges_run {drafts : List Draft} (hd : ∀ d ∈ drafts, d.isPulseOf id = false)
    (h : run s drafts = .ok v) : v.state.edges[pulseName id]? = s.state.edges[pulseName id]? := by
  induction drafts generalizing s with
  | nil => rw [Except.ok.inj h]
  | cons d rest ih =>
    obtain ⟨hfirst, hrest⟩ := List.forall_mem_cons.1 hd
    obtain ⟨t, ht, hv⟩ := exists_exec_of_run h
    rw [ih hrest hv, edges_exec hfirst ht]

/-- The enable of the pulse move with an id in a run, if the run comes to one: the top of the logic stack
there. -/
def enable? (id : Int) (s : Scan) : List Draft → Option Bool
  | [] => none
  | d :: rest =>
    if d.isPulseOf id then some s.peek
    else
      match d.exec s with
      | .ok next => enable? id next rest
      | .error _ => none

theorem enable?_eq_none (s : Scan) {drafts : List Draft} (h : ∀ d ∈ drafts, d.isPulseOf id = false) :
    enable? id s drafts = none := by
  induction drafts generalizing s with
  | nil => rfl
  | cons d rest ih =>
    obtain ⟨hd, hrest⟩ := List.forall_mem_cons.1 h
    rw [enable?, hd]
    cases d.exec s with
    | error e => rfl
    | ok next => exact ih next hrest

theorem isPulseOf_eq_false {drafts : List Draft} (h : id ∉ drafts.map Draft.id) :
    ∀ d ∈ drafts, d.isPulseOf id = false := by
  intro d hd
  refine Bool.eq_false_iff.2 fun hp => ?_
  obtain ⟨-, rfl⟩ := isPulseOf_iff.1 hp
  exact h (List.mem_map_of_mem hd)

/-- A run of drafts with distinct ids remembers the enable of the pulse move with an id, and leaves what
was remembered if there is none. -/
theorem edges_run_eq {drafts : List Draft} (hids : (drafts.map Draft.id).Nodup)
    (h : run s drafts = .ok v) :
    v.state.edges[pulseName id]? = (enable? id s drafts).or s.state.edges[pulseName id]? := by
  induction drafts generalizing s with
  | nil =>
    rw [Except.ok.inj h]
    rfl
  | cons d rest ih =>
    obtain ⟨hnew, hids⟩ := List.nodup_cons.1 hids
    obtain ⟨u, hu, hv⟩ := exists_exec_of_run h
    rw [enable?]
    by_cases hd : d.isPulseOf id = true
    · have hseen := (pulsed_of_exec hd hu).getElem?_edges
      obtain ⟨-, rfl⟩ := isPulseOf_iff.1 hd
      rw [if_pos hd, Option.some_or, ← hseen]
      exact edges_run (isPulseOf_eq_false hnew) hv
    · rw [if_neg hd, hu, ← edges_exec (Bool.eq_false_iff.2 hd) hu]
      exact ih hids hv

theorem scan_cases {drafts : List Draft} {s next : State} {dt : Int}
    (h : scan drafts s dt = .ok next) :
    (drafts = [] ∧ next = s) ∨ ∃ w, run (Scan.start s dt) drafts = .ok w ∧ w.commit = next := by
  unfold scan at h
  split at h
  · next hempty => exact .inl ⟨List.isEmpty_iff.1 hempty, (Except.ok.inj h).symm⟩
  · exact .inr (exists_of_map_eq_ok h)

theorem edges_scan {drafts : List Draft} (hids : (drafts.map Draft.id).Nodup) {s next : State} {dt : Int}
    (h : scan drafts s dt = .ok next) :
    next.edges[pulseName id]? = (enable? id (Scan.start s dt) drafts).or s.edges[pulseName id]? := by
  rcases scan_cases h with ⟨rfl, rfl⟩ | ⟨w, hw, rfl⟩
  · rfl
  · exact edges_run_eq hids hw

/-- In a scan of drafts with distinct ids, a pulse move fires if it has two operands, its enable is on,
and the enable remembered for its id is off. -/
theorem exists_pulsed {before rest : List Draft} {s next : State} {dt : Int}
    (hids : ((before ++ d :: rest).map Draft.id).Nodup) (hd : d.isPulseOf id = true)
    (h : scan (before ++ d :: rest) s dt = .ok next) :
    ∃ u v, run (Scan.start s dt) before = .ok u ∧ d.exec u = .ok v ∧
      d.Pulsed u (2 ≤ d.args.length ∧ u.peek = true ∧ s.edges[pulseName id]? ≠ some true) v := by
  rcases scan_cases h with ⟨hnil, -⟩ | ⟨w, hw, -⟩
  · cases (List.append_eq_nil_iff.1 hnil).2
  obtain ⟨u, hu, hrest⟩ := exists_run_of_append hw
  obtain ⟨v, hv, -⟩ := exists_exec_of_run hrest
  have hpulsed := pulsed_of_exec hd hv
  obtain ⟨-, rfl⟩ := isPulseOf_iff.1 hd
  rw [List.map_append, List.map_cons, List.nodup_middle, List.nodup_cons, List.mem_append] at hids
  have hsame : u.state.edges[pulseName d.id]? = s.edges[pulseName d.id]? :=
    edges_run (isPulseOf_eq_false fun hb => hids.1 (.inl hb)) hu
  have hoff : u.edge (pulseName d.id) = false ↔ s.edges[pulseName d.id]? ≠ some true := by
    rw [Scan.edge_eq, Std.ExtTreeMap.getD_eq_getD_getElem?, hsame]
    rcases s.edges[pulseName d.id]? with _ | _ | _ <;> simp
  rw [hoff] at hpulsed
  exact ⟨u, v, hu, hv, hpulsed⟩

end Draft

/-! ## Editing and scanning -/

/-- A program that is edited while it runs, and the state that its scans carry on. -/
structure Workbench where
  drafts : List Draft
  state : State

namespace Workbench

open Draft (Edit editAll)

/-- What is done at a workbench: an edit, or a scan after some bits and registers are set anew. -/
inductive Step where
  | edit (e : Edit)
  | scan (bits : Table Bool) (registers : Table Int) (dt : Int)

/-- The state with some bits and registers set anew. -/
def inputs (b : Workbench) (bits : Table Bool) (registers : Table Int) : State :=
  (b.state.withBits bits).withRegisters registers

/-- The workbench after a step. An edit that is refused changes nothing. -/
def take (b : Workbench) : Step → Except Json.ConversionError Workbench
  | .edit e => .ok { b with drafts := e.applied b.drafts }
  | .scan bits registers dt =>
    (Draft.scan b.drafts (b.inputs bits registers) dt).map fun state => { b with state }

/-- The first `n` steps lead from each workbench to the next one, and no scan among them fails. -/
def Lead (steps : Nat → Step) (benches : Nat → Workbench) (n : Nat) : Prop :=
  ∀ k < n, (benches k).take (steps k) = .ok (benches (k + 1))

/-- The workbench after `k` steps, where a scan that fails changes nothing. -/
def after (steps : Nat → Step) (b : Workbench) : Nat → Workbench
  | 0 => b
  | k + 1 => ((after steps b k).take (steps k)).toOption.getD (after steps b k)

/-- The enable of the pulse move with an id in a step, if the step comes to one. -/
def enable? (id : Int) (b : Workbench) : Step → Option Bool
  | .edit _ => none
  | .scan bits registers dt => Draft.enable? id (Scan.start (b.inputs bits registers) dt) b.drafts

/-- The enable of the pulse move with an id in the last of the first steps that came to one. -/
def lastEnable (id : Int) (steps : Nat → Step) (benches : Nat → Workbench) : Nat → Option Bool
  | 0 => none
  | k + 1 => ((benches k).enable? id (steps k)).or (lastEnable id steps benches k)

variable {b next : Workbench} {step : Step} {steps : Nat → Step} {benches : Nat → Workbench}
  {n : Nat}

theorem lead_after (h : ∀ k < n, ((after steps b k).take (steps k)).isOk = true) :
    Lead steps (after steps b) n := by
  intro k hk
  have hok := h k hk
  rw [after]
  cases hs : (after steps b k).take (steps k) with
  | error e =>
    rw [hs] at hok
    cases hok
  | ok next => rfl

/-- One step keeps ids distinct, and remembers the enable of a pulse move that it comes to. -/
theorem take_cases (hids : (b.drafts.map Draft.id).Nodup) (h : b.take step = .ok next) (id : Int) :
    (next.drafts.map Draft.id).Nodup ∧
      next.state.edges[pulseName id]? = (b.enable? id step).or b.state.edges[pulseName id]? := by
  cases step with
  | edit e =>
    obtain rfl := Except.ok.inj h
    exact ⟨Draft.nodup_applied hids e, rfl⟩
  | scan bits registers dt =>
    obtain ⟨state, hstate, rfl⟩ := exists_of_map_eq_ok h
    exact ⟨hids, Draft.edges_scan hids hstate⟩

/-- After some steps that have begun with nothing remembered, the last enable of a pulse move with an id
is remembered for that id. -/
theorem edges_eq_lastEnable (h : Lead steps benches n)
    (hids : ((benches 0).drafts.map Draft.id).Nodup) (hedges : (benches 0).state.edges = ∅)
    (id : Int) :
    ((benches n).drafts.map Draft.id).Nodup ∧
      (benches n).state.edges[pulseName id]? = lastEnable id steps benches n := by
  induction n with
  | zero =>
    refine ⟨hids, ?_⟩
    rw [hedges, Std.ExtTreeMap.getElem?_empty]
    rfl
  | succ n ih =>
    obtain ⟨hdistinct, hlast⟩ := ih fun k hk => h k (Nat.lt_succ_of_lt hk)
    obtain ⟨hnext, hedge⟩ := take_cases hdistinct (h n (Nat.lt_succ_self n)) id
    rw [hlast] at hedge
    exact ⟨hnext, hedge⟩

/-- Nothing has come to a pulse move with an id that no draft had. -/
theorem lastEnable_eq_none {id : Int} (h : ∀ k < n, id ∉ (benches k).drafts.map Draft.id) :
    lastEnable id steps benches n = none := by
  induction n with
  | zero => rfl
  | succ n ih =>
    have hnone : (benches n).enable? id (steps n) = none := by
      cases steps n with
      | edit e => rfl
      | scan bits registers dt =>
        exact Draft.enable?_eq_none _ (Draft.isPulseOf_eq_false (h n (Nat.lt_succ_self n)))
    rw [lastEnable, hnone, Option.none_or, ih fun k hk => h k (Nat.lt_succ_of_lt hk)]

/-- **Pulse moves that are put in.** Let a program with distinct ids be edited and scanned in any order,
with inputs and times as they come, from a state in which nothing is remembered, and let no scan fail.
If a pulse move is put in then, its id is that of no other draft, and what is remembered for it is the
enable of the pulse move with that id in the last scan that came to one. That is nothing if no draft has
had the id before. After further edits, the next scan that does not fail comes to the pulse move. It
moves if it has two operands and its enable is on, unless that last enable was on too. -/
theorem pulsed_of_inserted (h : Lead steps benches n)
    (hids : ((benches 0).drafts.map Draft.id).Nodup) (hedges : (benches 0).state.edges = ∅)
    {index value args : Json} {drafts : List Draft}
    (hinsert : Draft.insert (benches n).drafts index (.str (Opcode.coil .movePulse).name) value args =
      .ok drafts) :
    ∃ id, id ∉ (benches n).drafts.map Draft.id ∧
      (∃ before d rest, drafts = before ++ d :: rest ∧ (benches n).drafts = before ++ rest ∧
        d.isPulseOf id = true) ∧
      (benches n).state.edges[pulseName id]? = lastEnable id steps benches n ∧
      ((∀ k < n, id ∉ (benches k).drafts.map Draft.id) →
        (benches n).state.edges[pulseName id]? = none) ∧
      ∀ edits bits registers dt next,
        Draft.scan (editAll drafts edits) ((benches n).inputs bits registers) dt = .ok next →
        ∀ before d rest, editAll drafts edits = before ++ d :: rest → d.isPulseOf id = true →
          ∃ u v, Draft.run (Scan.start ((benches n).inputs bits registers) dt) before = .ok u ∧
            d.exec u = .ok v ∧
            d.Pulsed u (2 ≤ d.args.length ∧ u.peek = true ∧
              lastEnable id steps benches n ≠ some true) v := by
  obtain ⟨m, operands, -, hm, rfl⟩ := Draft.insert_cases hinsert
  obtain ⟨hdistinct, hlast⟩ := edges_eq_lastEnable h hids hedges (Draft.nextId (benches n).drafts)
  refine ⟨Draft.nextId (benches n).drafts, Draft.nextId_notMem _, ?_, hlast, fun hnew => ?_, ?_⟩
  · refine ⟨(benches n).drafts.take (m + 1).toNat, _, (benches n).drafts.drop (m + 1).toNat,
      ?_, (List.take_append_drop _ _).symm, Draft.isPulseOf_new _ value operands⟩
    rw [Draft.insertIdx_eq_append hm]
  · rw [hlast, lastEnable_eq_none hnew]
  · intro edits bits registers dt next hscan before d rest hsplit hd
    have hnodup := Draft.nodup_editAll
      (Draft.nodup_insertIdx hdistinct hm (.str (Opcode.coil .movePulse).name) value operands) edits
    rw [hsplit] at hscan hnodup
    rw [← hlast]
    exact Draft.exists_pulsed hnodup hd hscan

/-- A pulse move is run and taken out while another draft keeps the largest id. The pulse move that is
put in then has a new id. A contact is put in front of it, and it moves at once. -/
theorem pulsed_of_inserted_fresh :
    let steps : Nat → Step := fun k =>
      if k = 0 then .scan ((∅ : Table Bool).insert "X0" true) ∅ 100 else .edit (.delete (.int 1))
    let benches := after steps ⟨(Listing.parse "LD X0\nMOVP K7 D0\nOUT Y0").map .ofInstruction, {}⟩
    let inserted := Draft.insert (benches 2).drafts (.int 0) (.str (Opcode.coil .movePulse).name)
      (.str "K9") (.arr [.str "K9", .str "D1"])
    let edits : List Edit := [.insertSeries (.int 0), .delete (.int 9)]
    let bits := (∅ : Table Bool).insert "X?" true
    Lead steps benches 2 ∧ ((benches 0).drafts.map Draft.id).Nodup ∧ (benches 0).state.edges = ∅ ∧
      ∃ drafts next, inserted = .ok drafts ∧ (editAll drafts edits).map Draft.id = [1, 5, 4, 3] ∧
        Draft.scan (editAll drafts edits) ((benches 2).inputs bits ∅) 100 = .ok next ∧
        next.register "D1" = 9 ∧
        ∃ id, (benches 2).state.edges[pulseName id]? = lastEnable id steps benches 2 ∧
          ∀ before d rest, editAll drafts edits = before ++ d :: rest → d.isPulseOf id = true →
            ∃ u v, Draft.run (Scan.start ((benches 2).inputs bits ∅) 100) before = .ok u ∧
              d.exec u = .ok v ∧
              d.Pulsed u (2 ≤ d.args.length ∧ u.peek = true ∧
                lastEnable id steps benches 2 ≠ some true) v := by
  intro steps benches inserted edits bits
  have hlead : Lead steps benches 2 := lead_after (by decide)
  have hids : ((benches 0).drafts.map Draft.id).Nodup := by decide
  have hok : (inserted.toOption.any fun drafts =>
      (editAll drafts edits).map Draft.id = [1, 5, 4, 3] &&
        (Draft.scan (editAll drafts edits) ((benches 2).inputs bits ∅) 100).toOption.any fun next =>
          next.register "D1" = 9) = true := by decide
  refine ⟨hlead, hids, rfl, ?_⟩
  cases hinsert : inserted with
  | error e =>
    rw [hinsert] at hok
    cases hok
  | ok drafts =>
    rw [hinsert] at hok
    obtain ⟨hedited, hscan⟩ := Bool.and_eq_true_iff.1 hok
    cases hnext : Draft.scan (editAll drafts edits) ((benches 2).inputs bits ∅) 100 with
    | error e =>
      rw [hnext] at hscan
      cases hscan
    | ok next =>
      rw [hnext] at hscan
      obtain ⟨id, -, -, hentry, -, hpulsed⟩ := pulsed_of_inserted hlead hids rfl hinsert
      exact ⟨drafts, next, rfl, of_decide_eq_true hedited, hnext, of_decide_eq_true hscan, id, hentry,
        hpulsed edits bits ∅ 100 next hnext⟩

/-- A pulse move that is enabled is run and taken out. It had the largest id, so that the pulse move which
is put in then has the same id. It takes over what is remembered, and although its enable is on and it
has two operands, it does not move. -/
theorem inserted_pulse_takes_over :
    let steps : Nat → Step := fun k =>
      if k = 0 then .scan ((∅ : Table Bool).insert "X0" true) ∅ 100
      else if k = 1 then .edit (.delete (.int 1))
      else if k = 2 then .edit (.insert (.int 0) (.str (Opcode.coil .movePulse).name) (.str "K9")
        (.arr [.str "K9", .str "D1"]))
      else .scan ∅ ∅ 100
    let benches := after steps ⟨(Listing.parse "LD X0\nMOVP K7 D0").map .ofInstruction, {}⟩
    Lead steps benches 4 ∧ ((benches 0).drafts.map Draft.id).Nodup ∧ (benches 0).state.edges = ∅ ∧
      (benches 3).drafts.map (fun d => (d.id, d.isPulseOf 2, d.args.length)) =
        [(1, false, 1), (2, true, 2)] ∧
      (benches 3).state.edges.getD (pulseName 2) false = true ∧
      (benches 3).enable? 2 (steps 3) = some true ∧
      (benches 4).state.registers.contains "D1" = false := by
  intro steps benches
  exact ⟨lead_after (by decide), by decide, rfl, by decide, by decide, by decide, by decide⟩

end Workbench
end LadderLogic
