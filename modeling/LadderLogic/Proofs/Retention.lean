import LadderLogic.Proofs.Footprint
import LadderLogic.Session.Basic
import Mathlib.Data.List.Chain
import Mathlib.Data.List.Nodup

/-!
# What a session retains

Whatever is asked of a session, and whether it is refused or not, its history stays in step with its
state: the retained scans follow one another without a gap up to the scan of the current state, and
there are no more of them than the limit allows. A drawing that is kept is that of the program.

A history keeps the numbers of the scans and the states apart. That both have the same numbers, and each
state stands under its own (`History.InStep`), is kept by the two operations that change them: a state
goes into both, and the oldest goes out of both (`InStep.insert`, `InStep.erase`). So what is let go is
always found, and a scan is the only operation that extends the history: the others start it over, or
leave it and the state alone.

Source: `LadderRunner` and `History` (sections 2 and 7 of the specification).
-/

namespace LadderLogic

namespace History

/-! ## Queue and table -/

/-- A queue of scans and a table of states are in step: the scans are consecutive, there is exactly one
state for each of them and none else, and each state stands under its own scan. -/
structure InStep (ids : List Int) (snapshots : Snapshots) : Prop where
  consecutive : ids.IsChain fun older newer => newer = older + 1
  mem_iff (id : Int) : id ∈ ids ↔ id ∈ snapshots
  size_eq : snapshots.size = ids.length
  scans_eq {id : Int} {s : State} : snapshots[id]? = some s → s.scans = id

variable {h : History} {s : State} {ids rest : List Int} {oldest : Int} {snapshots : Snapshots}

theorem nodup_of_consecutive (hc : ids.IsChain fun older newer => newer = older + 1) : ids.Nodup := by
  have hlt : ids.IsChain (· < ·) := hc.imp fun older newer he => by omega
  exact hlt.pairwise.imp Int.ne_of_lt

/-- A state goes into both. -/
theorem InStep.insert (hi : InStep ids snapshots) (hs : ∀ newest ∈ ids.getLast?, s.scans = newest + 1) :
    InStep (ids ++ [s.scans]) (snapshots.insert s.scans s) := by
  have hchain : (ids ++ [s.scans]).IsChain fun older newer => newer = older + 1 :=
    hi.consecutive.append (.singleton s.scans) fun newest hn id hid => by
      obtain rfl := Option.some.inj hid
      exact hs newest hn
  have hnew : s.scans ∉ snapshots := by
    have hnodup := List.nodup_append.1 (nodup_of_consecutive hchain)
    rw [← hi.mem_iff]
    exact fun hmem => hnodup.2.2 _ hmem _ (List.mem_singleton_self _) rfl
  refine ⟨hchain, fun id => ?_, ?_, fun {id t} ht => ?_⟩
  · rw [List.mem_append, List.mem_singleton, Std.ExtTreeMap.mem_insert, hi.mem_iff, or_comm,
      Std.LawfulEqCmp.compare_eq_iff_eq, eq_comm]
  · rw [Std.ExtTreeMap.size_insert, if_neg (by simpa using hnew), hi.size_eq, List.length_append,
      List.length_singleton]
  · rw [Std.ExtTreeMap.getElem?_insert] at ht
    split at ht
    · next he =>
      obtain rfl := Option.some.inj ht
      exact Std.LawfulEqCmp.compare_eq_iff_eq.1 he
    · exact hi.scans_eq ht

/-- The oldest goes out of both. -/
theorem InStep.erase (hi : InStep (oldest :: rest) snapshots) : InStep rest (snapshots.erase oldest) := by
  have hnodup := List.nodup_cons.1 (nodup_of_consecutive hi.consecutive)
  have hmem : oldest ∈ snapshots := (hi.mem_iff oldest).1 List.mem_cons_self
  refine ⟨hi.consecutive.tail, fun id => ?_, ?_, fun {id t} ht => ?_⟩
  · rw [Std.ExtTreeMap.mem_erase, ← hi.mem_iff, List.mem_cons, ne_eq,
      Std.LawfulEqCmp.compare_eq_iff_eq]
    constructor
    · exact fun hid => ⟨fun he => hnodup.1 (he ▸ hid), .inr hid⟩
    · rintro ⟨hne, hid⟩
      exact hid.resolve_left (Ne.symm hne)
  · have hsize := hi.size_eq
    rw [Std.ExtTreeMap.size_erase, if_pos (by simpa using hmem)]
    rw [List.length_cons] at hsize
    omega
  · rw [Std.ExtTreeMap.getElem?_erase] at ht
    split at ht
    · cases ht
    · exact hi.scans_eq ht

/-- What is let go is found, and what is left is still there. -/
theorem InStep.evict (hi : InStep ids snapshots) (limit : Nat) :
    ∃ kept, History.evict limit ids snapshots = .ok (ids.drop (ids.length - limit), kept) ∧
      InStep (ids.drop (ids.length - limit)) kept ∧
      ∀ id ∈ ids.drop (ids.length - limit), kept[id]? = snapshots[id]? := by
  induction ids generalizing snapshots with
  | nil =>
    rw [List.drop_nil]
    exact ⟨snapshots, rfl, hi, fun _ _ => rfl⟩
  | cons oldest rest ih =>
    rw [History.evict]
    by_cases hlimit : limit < (oldest :: rest).length
    · have hdrop : (oldest :: rest).drop ((oldest :: rest).length - limit) =
          rest.drop (rest.length - limit) := by
        rw [List.length_cons] at hlimit ⊢
        rw [Nat.succ_sub (Nat.lt_succ_iff.1 hlimit), List.drop_succ_cons]
      have hnodup := List.nodup_cons.1 (nodup_of_consecutive hi.consecutive)
      obtain ⟨kept, hevict, hkept, hsame⟩ := ih hi.erase
      rw [if_pos hlimit, if_pos ((hi.mem_iff oldest).1 List.mem_cons_self), hdrop]
      refine ⟨kept, hevict, hkept, fun id hid => ?_⟩
      have hne : oldest ≠ id := fun he => hnodup.1 (he ▸ List.mem_of_mem_drop hid)
      rw [hsame id hid, Std.ExtTreeMap.getElem?_erase,
        if_neg (mt Std.LawfulEqCmp.compare_eq_iff_eq.1 hne)]
    · have hzero : (oldest :: rest).length - limit = 0 := by omega
      rw [if_neg hlimit, hzero]
      exact ⟨snapshots, rfl, hi, fun _ _ => rfl⟩

/-! ## Histories -/

/-- The queue and the table of a history are in step, and there is one state at least and no more of them
than its limit. -/
structure Sound (h : History) : Prop where
  inStep : InStep h.ids h.snapshots
  nonempty : h.ids ≠ []
  within : ∀ n, h.limit = some n → h.size ≤ n

/-- The state of the newest scan that is retained. -/
def newest? (h : History) : Option State := h.ids.getLast?.bind fun id => h.snapshots[id]?

theorem newest?_start (limit : Option Nat) (s : State) : (start limit s).newest? = some s :=
  Std.ExtTreeMap.getElem?_insert_self

theorem sound_start {limit : Option Nat} (hlimit : ∀ n, limit = some n → 1 ≤ n) (s : State) :
    (start limit s).Sound := by
  have hempty : InStep [] ∅ := ⟨.nil, by simp, rfl, by simp⟩
  exact ⟨hempty.insert (s := s) fun _ hn => (by cases hn), List.cons_ne_nil _ _, hlimit⟩

section Sound

variable (hh : h.Sound)

include hh

theorem Sound.size_pos : 1 ≤ h.size := List.length_pos_iff.2 hh.nonempty

theorem Sound.reset (s : State) : (h.reset s).Sound :=
  sound_start (fun n hn => hh.size_pos.trans (hh.within n hn)) s

/-- A sound history takes the state of the next scan. -/
theorem Sound.append {newest : Int} (hn : h.ids.getLast? = some newest) (hs : s.scans = newest + 1) :
    ∃ h', h.append s = .ok h' ∧ h'.Sound ∧ h'.limit = h.limit ∧
      h'.ids.getLast? = some s.scans ∧ h'.newest? = some s := by
  have hnot : ¬s.scans ≤ newest := by omega
  have hin : InStep (h.ids ++ [s.scans]) (h.snapshots.insert s.scans s) :=
    hh.inStep.insert fun id hid => by
      obtain rfl := Option.some.inj (hn.symm.trans hid)
      exact hs
  have hself : (h.snapshots.insert s.scans s)[s.scans]? = some s := Std.ExtTreeMap.getElem?_insert_self
  simp only [History.append, hn, if_neg hnot, retain]
  cases hl : h.limit with
  | none =>
    refine ⟨_, rfl, ⟨hin, by simp, fun n he => by cases he⟩, rfl, by simp, ?_⟩
    simp [newest?]
  | some n =>
    -- the limit is one at least, so the state itself is not let go
    obtain ⟨kept, hevict, hkept, hsame⟩ := hin.evict n
    have hpos : 1 ≤ n := hh.size_pos.trans (hh.within n hl)
    have hlast : ((h.ids ++ [s.scans]).drop ((h.ids ++ [s.scans]).length - n)).getLast? =
        some s.scans := by
      rw [List.getLast?_drop, if_neg (by simp only [List.length_append, List.length_singleton]; omega)]
      exact List.getLast?_concat
    dsimp only
    rw [hevict]
    refine ⟨⟨some n, _, kept⟩, rfl, ⟨hkept, fun hnil => ?_, fun m he => ?_⟩, rfl, hlast, ?_⟩
    · cases (congrArg List.getLast? hnil).symm.trans hlast
    · obtain rfl := Option.some.inj he
      simp only [size, List.length_drop]
      omega
    · rw [newest?, hlast, Option.bind_some, hsame _ (List.mem_of_getLast? hlast), hself]

/-- There is exactly one state of a retained scan, and that is the one found under its number. -/
theorem Sound.exists_find {id : Int} (hid : id ∈ h.ids) :
    ∃ t, h.snapshots[id]? = some t ∧ h.find id = .ok t ∧ t.scans = id := by
  obtain ⟨t, ht⟩ := Option.isSome_iff_exists.1
    (Std.ExtTreeMap.isSome_getElem?_iff_mem.2 ((hh.inStep.mem_iff id).1 hid))
  exact ⟨t, ht, by rw [find, ht], hh.inStep.scans_eq ht⟩

/-- No state is found under the number of a scan that is not retained. -/
theorem Sound.find_eq_error {id : Int} (hid : id ∉ h.ids) :
    h.snapshots[id]? = none ∧ h.find id = .error (.notRetained id) := by
  have hnone : h.snapshots[id]? = none :=
    Std.ExtTreeMap.getElem?_eq_none (mt (hh.inStep.mem_iff id).2 hid)
  exact ⟨hnone, by rw [find, hnone]⟩

/-- The last states can be asked for, and are those of the last scans. -/
theorem Sound.exists_latest (n : Int) :
    ∃ states, h.latest n = .ok states ∧
      states.map State.scans = h.ids.drop (h.ids.length - n.toNat) := by
  have hsub : ∀ id ∈ h.ids.drop (h.ids.length - n.toNat), id ∈ h.ids := fun _ => List.mem_of_mem_drop
  rw [latest]
  generalize h.ids.drop (h.ids.length - n.toNat) = ids at hsub ⊢
  induction ids with
  | nil => exact ⟨[], rfl, rfl⟩
  | cons id ids ih =>
    obtain ⟨hid, hids⟩ := List.forall_mem_cons.1 hsub
    obtain ⟨t, -, hfind, hscans⟩ := hh.exists_find hid
    obtain ⟨states, hstates, hmap⟩ := ih hids
    refine ⟨t :: states, ?_, by rw [List.map_cons, hscans, hmap]⟩
    rw [List.mapM_cons, hfind, hstates]
    rfl

end Sound

end History

/-- A scan is counted, unless the program is empty. -/
theorem Program.scans_scan {program : Program} {s next : State} {dt : Int}
    (h : program.scan s dt = .ok next) : next.scans = s.scans ∨ next.scans = s.scans + 1 := by
  rcases scan_cases h with ⟨-, rfl⟩ | ⟨-, ws, branches, -, rfl⟩
  · exact .inl rfl
  · exact .inr (congrArg (· + 1) (State.writeAll_others s ws).1)

namespace Session

/-! ## Requests -/

/-- What can be asked of a session. -/
inductive Request where
  | step
  | run (cycles : Int)
  | runFor (time : Json)
  | runUntil (holds : State → Bool) (cycles : Int)
  | enter (bits registers : Json.Fields)
  | toggle (key : Key)
  | load (program : Program) (restart : Bool)
  | reset (state : State)
  | setTimeMode (mode : TimeMode) (step : Json)
  | draw

/-- What a request is answered with. -/
inductive Answer where
  | done
  | bit (b : Bool)
  | state (s : State)
  deriving DecidableEq

/-- An operation whose result becomes an answer. -/
def answered {α : Type} (f : α → Answer) (r : Except Fault α × Session) :
    Except Fault Answer × Session :=
  (r.1.map f, r.2)

/-- Does what is asked. -/
def perform (s : Session) : Request → Except Fault Answer × Session
  | .step => answered .state s.step
  | .run cycles => answered .state (s.run cycles)
  | .runFor time => answered .state (s.runForTime time)
  | .runUntil holds cycles => answered .state (s.runUntil holds cycles)
  | .enter bits registers => answered (fun _ => .done) (s.enter bits registers)
  | .toggle key => (.ok (.bit (s.toggleAt key).1), (s.toggleAt key).2)
  | .load program restart => (.ok .done, s.load program restart)
  | .reset state => (.ok .done, s.reset state)
  | .setTimeMode mode step => answered (fun _ => .done) (s.setTimeModeIn mode step)
  | .draw => (.ok .done, s.draw)

/-- The session after some requests, whatever they were answered with. -/
def performAll (s : Session) (requests : List Request) : Session :=
  requests.foldl (fun s r => (s.perform r).2) s

/-! ## The invariant -/

/-- The history of a session is sound, has the given limit and ends with the scan of the current state,
and a drawing that is kept is that of the program. -/
structure Sound (limit : Option Nat) (s : Session) : Prop where
  history : s.history.Sound
  limit : s.history.limit = limit
  newest : s.history.ids.getLast? = some s.state.scans
  drawing : ∀ d ∈ s.drawing, d = s.program.layout

/-- An operation leaves a sound session, and it is not the history that refuses. -/
def Kept {α : Type} (limit : Option Nat) (r : Except Fault α × Session) : Prop :=
  Sound limit r.2 ∧ ∀ fault, r.1 ≠ .error (.history fault)

/-- The part of a session that the invariant is about. -/
structure Same (s t : Session) : Prop where
  program : t.program = s.program
  drawing : t.drawing = s.drawing
  state : t.state = s.state
  history : t.history = s.history

variable {limit : Option Nat} {s t : Session}

theorem Kept.answered {α : Type} {r : Except Fault α × Session} (h : Kept limit r) (f : α → Answer) :
    Kept limit (answered f r) := by
  refine ⟨h.1, fun fault he => ?_⟩
  obtain ⟨result, s⟩ := r
  cases result with
  | error cause => exact h.2 fault (congrArg Except.error (Except.error.inj he))
  | ok a => cases he

section Operations

variable (h : Sound limit s)

include h

theorem Sound.of_same (hst : Same s t) : Sound limit t := by
  refine ⟨?_, ?_, ?_, ?_⟩
  · rw [hst.history]
    exact h.history
  · rw [hst.history]
    exact h.limit
  · rw [hst.history, hst.state]
    exact h.newest
  · rw [hst.drawing, hst.program]
    exact h.drawing

theorem Sound.kept_ok {α : Type} (a : α) : Kept limit (.ok a, s) := ⟨h, fun _ he => by cases he⟩

theorem Sound.reset (state : State) : Sound limit (s.reset state) :=
  ⟨h.history.reset state, h.limit, rfl, h.drawing⟩

theorem Sound.load (program : Program) (restart : Bool) : Sound limit (s.load program restart) := by
  have hs : Sound limit { s with program, drawing := none } :=
    ⟨h.history, h.limit, h.newest, fun _ hd => by cases hd⟩
  unfold Session.load
  split
  · exact hs.reset {}
  · exact hs

theorem Sound.draw : Sound limit s.draw := by
  refine ⟨h.history, h.limit, h.newest, fun d hd => ?_⟩
  cases hd
  cases hs : s.drawing with
  | none => rfl
  | some d => exact h.drawing d hs

/-- A state is accepted if its scan is the current one or the next. -/
theorem Sound.accept {next : State}
    (hnext : next.scans = s.state.scans ∨ next.scans = s.state.scans + 1) :
    Kept limit (s.accept next) := by
  unfold Session.accept
  split
  · next he =>
    have hs : Sound limit { s with state := next } :=
      ⟨h.history, h.limit, h.newest.trans (congrArg some he.symm), h.drawing⟩
    exact hs.kept_ok next
  · next hne =>
    obtain ⟨history, ha, hsound, hlimit, hlast, -⟩ :=
      h.history.append h.newest (hnext.resolve_left hne)
    have hs : Sound limit { s with state := next, history } :=
      ⟨hsound, hlimit.trans h.limit, hlast, h.drawing⟩
    rw [ha]
    exact hs.kept_ok next

omit h in
/-- Finding the time of a scan takes a reading from the clock at most. -/
theorem same_scanTime (s : Session) :
    Same s s.scanTime.2 ∧ ∀ fault, s.scanTime.1 ≠ .error (.history fault) := by
  unfold scanTime
  split
  · exact ⟨⟨rfl, rfl, rfl, rfl⟩, fun _ he => by cases he⟩
  · exact ⟨⟨rfl, rfl, rfl, rfl⟩, fun _ he => by cases he⟩
  · split
    · exact ⟨⟨rfl, rfl, rfl, rfl⟩, fun _ he => by cases he⟩
    · dsimp only
      split <;> exact ⟨⟨rfl, rfl, rfl, rfl⟩, fun _ he => by cases he⟩

/-- A scan keeps the invariant, also one that fails. -/
theorem Sound.step : Kept limit s.step := by
  have hemptied : Sound limit { s with queuedBits := ∅, queuedRegisters := ∅, queuedStrays := [] } :=
    h.of_same ⟨rfl, rfl, rfl, rfl⟩
  obtain ⟨hsame, hfault⟩ :=
    same_scanTime { s with queuedBits := ∅, queuedRegisters := ∅, queuedStrays := [] }
  unfold Session.step
  dsimp only
  split
  · next fault timed ht =>
    rw [ht] at hsame hfault
    refine ⟨hemptied.of_same hsame, fun cause he => hfault cause ?_⟩
    exact congrArg Except.error (Except.error.inj he)
  · next dt timed ht =>
    rw [ht] at hsame
    have htimed : Sound limit timed := hemptied.of_same hsame
    split
    · exact ⟨htimed, fun _ he => by cases he⟩
    · next next hscan =>
      split
      · exact ⟨htimed, fun _ he => by cases he⟩
      · have hinputs : s.inputs.scans = timed.state.scans :=
          (congrArg State.scans hsame.state).symm
        have hscans := Program.scans_scan hscan
        rw [hinputs] at hscans
        exact htimed.accept hscans

theorem Sound.runCycles (n : Nat) : Kept limit (s.runCycles n) := by
  induction n generalizing s with
  | zero => exact h.kept_ok s.state
  | succ n ih =>
    have hstep := h.step
    unfold Session.runCycles
    split
    · next he => exact he ▸ hstep
    · next he =>
      rw [he] at hstep
      exact ih hstep.1

theorem Sound.runToward (reached : Int → Bool) (fuel : Nat) :
    Kept limit (s.runToward reached fuel) := by
  induction fuel generalizing s with
  | zero => exact h.kept_ok s.state
  | succ fuel ih =>
    have hstep := h.step
    unfold Session.runToward
    split
    · exact h.kept_ok s.state
    · split
      · next he => exact he ▸ hstep
      · next he =>
        rw [he] at hstep
        split
        · exact hstep.1.kept_ok _
        · exact ih hstep.1

theorem Sound.runUntilWithin (holds : State → Bool) (n : Nat) :
    Kept limit (s.runUntilWithin holds n) := by
  induction n generalizing s with
  | zero => exact h.kept_ok s.state
  | succ n ih =>
    have hstep := h.step
    unfold Session.runUntilWithin
    split
    · next he => exact he ▸ hstep
    · next he =>
      rw [he] at hstep
      split
      · exact hstep.1.kept_ok _
      · exact ih hstep.1

theorem Sound.runForTime (time : Json) : Kept limit (s.runForTime time) := by
  unfold Session.runForTime
  split
  · exact h.runToward _ _
  · unfold runForReal
    split
    · exact ⟨h, fun _ he => by cases he⟩
    · exact h.runToward _ _
  · exact ⟨h, fun _ he => by cases he⟩

theorem Sound.enter (bits registers : Json.Fields) : Kept limit (s.enter bits registers) := by
  unfold Session.enter
  dsimp only
  split <;> exact ⟨h.of_same ⟨rfl, rfl, rfl, rfl⟩, fun _ he => by cases he⟩

theorem Sound.toggleAt (key : Key) : Sound limit (s.toggleAt key).2 := by
  cases key <;> exact h.of_same ⟨rfl, rfl, rfl, rfl⟩

theorem Sound.setTimeMode (mode : TimeMode) (dt : Int) : Kept limit (s.setTimeMode mode dt) := by
  unfold Session.setTimeMode
  split
  · exact ⟨h, fun _ he => by cases he⟩
  · dsimp only
    split
    · split <;> exact ⟨h.of_same ⟨rfl, rfl, rfl, rfl⟩, fun _ he => by cases he⟩
    · exact ⟨h.of_same ⟨rfl, rfl, rfl, rfl⟩, fun _ he => by cases he⟩

theorem Sound.setTimeModeIn (mode : TimeMode) (step : Json) :
    Kept limit (s.setTimeModeIn mode step) := by
  unfold Session.setTimeModeIn
  split
  · exact h.setTimeMode mode _
  · split
    · exact ⟨h, fun _ he => by cases he⟩
    · exact h.setTimeMode _ _
  · exact ⟨h, fun _ he => by cases he⟩

/-- Every request keeps the invariant. -/
theorem Sound.perform (r : Request) : Kept limit (s.perform r) := by
  cases r with
  | step => exact h.step.answered _
  | run cycles => exact (h.runCycles _).answered _
  | runFor time => exact (h.runForTime time).answered _
  | runUntil holds cycles => exact (h.runUntilWithin holds _).answered _
  | enter bits registers => exact (h.enter bits registers).answered _
  | toggle key => exact (h.toggleAt key).kept_ok _
  | load program restart => exact (h.load program restart).kept_ok _
  | reset state => exact (h.reset state).kept_ok _
  | setTimeMode mode step => exact (h.setTimeModeIn mode step).answered _
  | draw => exact h.draw.kept_ok _

/-- So does a sequence of requests. -/
theorem Sound.performAll (requests : List Request) : Sound limit (s.performAll requests) := by
  induction requests generalizing s with
  | nil => exact h
  | cons r requests ih => exact ih (h.perform r).1

end Operations

/-! ## What the invariant says -/

/-- A session and its history are in step, and there are no more scans retained than `limit`. -/
structure Consistent (limit : Option Int) (s : Session) : Prop where
  /-- Each retained scan is the one after the scan before it. -/
  consecutive : s.history.ids.IsChain fun older newer => newer = older + 1
  /-- There is a state of each retained scan, and it is found under its number. -/
  retained : ∀ id ∈ s.history.ids,
    ∃ t, s.history.snapshots[id]? = some t ∧ s.history.find id = .ok t ∧ t.scans = id
  /-- There is nothing under another number. -/
  notRetained : ∀ id ∉ s.history.ids,
    s.history.snapshots[id]? = none ∧ s.history.find id = .error (.notRetained id)
  /-- There are as many states as there are retained scans. -/
  size_eq : s.history.snapshots.size = s.history.size
  size_pos : 1 ≤ s.history.size
  size_le : ∀ n, limit = some n → s.history.size ≤ n
  /-- The last states can be asked for, and are those of the last scans. -/
  latest : ∀ n, ∃ states, s.history.latest n = .ok states ∧
    states.map State.scans = s.history.ids.drop (s.history.ids.length - n.toNat)
  newest : s.history.ids.getLast? = some s.state.scans
  drawing : s.drawing = none ∨ s.drawing = some s.program.layout

theorem Sound.consistent {bound : Option Int} (h : Sound limit s)
    (hlimit : ∀ n, bound = some n → limit = some n.toNat ∧ 1 ≤ n) : Consistent bound s where
  consecutive := h.history.inStep.consecutive
  retained _ hid := h.history.exists_find hid
  notRetained _ hid := h.history.find_eq_error hid
  size_eq := h.history.inStep.size_eq
  size_pos := h.history.size_pos
  size_le n hn := by
    obtain ⟨hl, hpos⟩ := hlimit n hn
    have hsize := h.history.within n.toNat (h.limit.trans hl)
    omega
  latest := h.history.exists_latest
  newest := h.newest
  drawing := by
    cases hd : s.drawing with
    | none => exact .inl rfl
    | some d => exact .inr (congrArg some (h.drawing d hd))

/-- A session can be started with any limit of one state at least. -/
theorem exists_start (program : Program) (state : State) {bound : Option Int}
    (hbound : ∀ n, bound = some n → 1 ≤ n) (clock : Clock) :
    ∃ s, start program state bound clock = .ok s ∧ Sound (bound.map Int.toNat) s := by
  have hcheck : History.checkLimit bound = .ok (bound.map Int.toNat) := by
    cases bound with
    | none => rfl
    | some n => exact if_neg (Int.not_lt.2 (hbound n rfl))
  have hhistory : (History.start (bound.map Int.toNat) state).Sound := by
    refine History.sound_start (fun n hn => ?_) state
    obtain ⟨m, hm, rfl⟩ := Option.map_eq_some_iff.1 hn
    have hpos := hbound m hm
    omega
  refine ⟨_, by rw [start, hcheck], hhistory, rfl, rfl, fun _ hd => ?_⟩
  cases hd

/-- **A session and its history stay in step.** A session starts with any program and state and any
limit of one state at least. After any requests, refused or not, the retained scans are consecutive,
each has exactly one state, which stands under its number, and there are no other states. There is one at
least and there are no more than the limit, the newest is the scan of the current state, and a drawing
that is kept is that of the program. So the history never refuses a state, and never misses one that is
to be let go: no request is answered with a fault of the history. -/
theorem consistent_performAll (program : Program) (state : State) {limit : Option Int}
    (hlimit : ∀ n, limit = some n → 1 ≤ n) (clock : Clock) :
    ∃ s, start program state limit clock = .ok s ∧
      ∀ requests, (s.performAll requests).Consistent limit ∧
        ∀ r fault, ((s.performAll requests).perform r).1 ≠ .error (.history fault) := by
  obtain ⟨s, hs, hsound⟩ := exists_start program state hlimit clock
  refine ⟨s, hs, fun requests => ?_⟩
  have hafter := hsound.performAll requests
  refine ⟨hafter.consistent fun n hn => ⟨by rw [hn]; rfl, hlimit n hn⟩, fun r => ?_⟩
  exact (hafter.perform r).2

/-- A session that may retain two states: it starts after scan 7, a drawing is kept across three scans,
an empty program counts none, and a third program goes on from there. -/
theorem consistent_performAll_evicting :
    let program := Listing.parse "LD X0\nOUT Y0"
    let requests : List Request := [.draw, .toggle (.name "X0"), .run 3, .load [] false, .step,
      .enter [] [("D0", .null)], .setTimeMode .fixedStep (.int (-1)),
      .load (Listing.parse "LD Y0\nOUT T0 D0") false, .runFor (.int 100)]
    (∀ n, some (2 : Int) = some n → 1 ≤ n) ∧
    ∃ s, start program { scans := 7 } (some 2) {} = .ok s ∧
      (s.performAll requests).history.ids = [10, 11] ∧
      (s.performAll requests).Consistent (some 2) := by
  intro program requests
  have hlimit : ∀ n, some (2 : Int) = some n → 1 ≤ n := by simp
  obtain ⟨s, hs, h⟩ := consistent_performAll program { scans := 7 } hlimit {}
  have hscans : (s.performAll requests).history.ids = [10, 11] := by
    obtain rfl := Except.ok.inj hs
    decide
  exact ⟨hlimit, s, hs, hscans, (h requests).1⟩

end Session
end LadderLogic
