import LadderLogic.Proofs.Outcomes

/-!
# Deferred inputs

A session keeps inputs in queues up to the next scan. An eager session has no queues: inputs go into
its state at once, a bit is toggled in its state, and a scan is one of its state. A session in a fixed
step looks eager if the queued inputs are taken as part of its state (`Session.eager`), and what is
asked of both has the same effect under this view (`eager_perform`). So nobody who looks at the answers
can tell them apart, and once the queues are empty the states are equal.

Source: `LadderRunner.patch` and `step` (section 2 of the specification).
-/

namespace LadderLogic

theorem Table.union_assoc {α : Type} (a b c : Table α) : a ∪ (b ∪ c) = a ∪ b ∪ c := by
  refine Std.ExtTreeMap.ext_getElem? fun k => ?_
  simp only [Std.ExtTreeMap.getElem?_union, Option.or_assoc]

theorem Table.union_insert {α : Type} (a b : Table α) (name : Text) (x : α) :
    a ∪ b.insert name x = a ∪ b ∪ (∅ : Table α).insert name x := by
  refine Std.ExtTreeMap.ext_getElem? fun k => ?_
  simp only [Std.ExtTreeMap.getElem?_union, Std.ExtTreeMap.getElem?_insert]
  split <;> simp

namespace Session

/-- What can be asked of a session and of an eager one. At least one scan is run. -/
inductive Command where
  | enter (bits registers : Json.Fields)
  | toggle (name : Text)
  | step
  | run (cycles : Int) (pos : 1 ≤ cycles)
  | load (program : Program) (restart : Bool)
  | reset (state : State)

/-- The request that a command is to a session. -/
def Command.request : Command → Request
  | .enter bits registers => .enter bits registers
  | .toggle name => .toggle (.name name)
  | .step => .step
  | .run cycles _ => .run cycles
  | .load program restart => .load program restart
  | .reset state => .reset state

/-- Whether no input is queued after a command: a scan takes them, and a new start drops them. -/
def Command.settles : Command → Bool
  | .enter _ _ => false
  | .toggle _ => false
  | .step => true
  | .run _ _ => true
  | .load _ restart => restart
  | .reset _ => true

/-- Whether none of some requests is refused. -/
def accepts (s : Session) : List Request → Bool
  | [] => true
  | r :: requests => (s.perform r).1.isOk && (s.perform r).2.accepts requests

end Session

/-- A session without queues. -/
structure Eager where
  program : Program
  state : State
  dt : Int

namespace Eager

open Session

/-- Puts bits and registers into the state. -/
def enter (e : Eager) (bits registers : Json.Fields) : Except Fault Unit × Eager :=
  match Table.ofIntegers registers with
  | .error error => (.error (.input error), e)
  | .ok updates =>
    (.ok (), { e with state := (e.state.withBits (.ofTruths bits)).withRegisters updates })

/-- Puts the other value of a bit into the state, and answers it. -/
def toggle (e : Eager) (name : Text) : Bool × Eager :=
  let b := !e.state.bit name
  (b, { e with state := e.state.withBits ((∅ : Table Bool).insert name b) })

/-- Scans the state. -/
def step (e : Eager) : Except Fault State × Eager :=
  match e.program.scan e.state e.dt with
  | .error fault => (.error (.numeral fault), e)
  | .ok next => (.ok next, { e with state := next })

/-- Scans the state a number of times, up to one that fails. -/
def runCycles (e : Eager) : Nat → Except Fault State × Eager
  | 0 => (.ok e.state, e)
  | n + 1 =>
    match e.step with
    | (.error fault, e) => (.error fault, e)
    | (.ok _, e) => e.runCycles n

/-- Does what is asked. -/
def perform (e : Eager) : Command → Except Fault Answer × Eager
  | .enter bits registers => ((e.enter bits registers).1.map fun _ => .done, (e.enter bits registers).2)
  | .toggle name => (.ok (.bit (e.toggle name).1), (e.toggle name).2)
  | .step => (e.step.1.map .state, e.step.2)
  | .run cycles _ => ((e.runCycles cycles.toNat).1.map .state, (e.runCycles cycles.toNat).2)
  | .load program restart => (.ok .done, { e with program, state := if restart then {} else e.state })
  | .reset state => (.ok .done, { e with state })

/-- The eager session after some commands. -/
def performAll (e : Eager) (commands : List Command) : Eager :=
  commands.foldl (fun e c => (e.perform c).2) e

end Eager

namespace Session

variable {s t : Session} {a : State}

/-- A session seen as an eager one: the queued inputs count as part of the state. -/
def eager (s : Session) : Eager := { program := s.program, state := s.inputs, dt := s.dt }

/-- The queued inputs of a bit count before its value in the state. -/
theorem bit_inputs (s : Session) (name : Text) :
    s.inputs.bit name = s.queuedBits.getD name (s.state.bit name) :=
  Std.ExtTreeMap.getD_union

theorem inputs_enter (s : Session) (bits : Table Bool) (registers : Table Int) :
    inputs { s with
      queuedBits := s.queuedBits ∪ bits
      queuedRegisters := s.queuedRegisters ∪ registers } =
      (s.inputs.withBits bits).withRegisters registers := by
  simp only [inputs, State.withBits, State.withRegisters, State.withStrayBits, Table.union_assoc]

theorem inputs_toggle (s : Session) (name : Text) (b : Bool) :
    inputs { s with queuedBits := s.queuedBits.insert name b } =
      s.inputs.withBits ((∅ : Table Bool).insert name b) := by
  rw [inputs, inputs, State.withBits, Table.union_insert]
  rfl

theorem inputs_reset (s : Session) (state : State) : (s.reset state).inputs = state :=
  inputs_of_empty rfl rfl rfl

theorem eager_reset (s : Session) (state : State) :
    (s.reset state).eager = { program := s.program, state, dt := s.dt } := by
  rw [eager, inputs_reset]
  rfl

/-- The scan of the state with the queued inputs is that of the eager session. -/
theorem eager_step_of_scan {next : State} (h : s.program.scan s.inputs s.dt = .ok next)
    (ht : t.inputs = next) (hp : t.program = s.program) (hdt : t.dt = s.dt) :
    s.eager.step = (.ok next, t.eager) := by
  have hscan : s.eager.program.scan s.eager.state s.eager.dt = .ok next := h
  rw [Eager.step, hscan]
  simp [eager, ht, hp, hdt]

section FixedStep

variable (hmode : s.mode = .fixedStep)

include hmode

/-- A scan that does not fail is one of the eager session, and no input is queued after it. -/
theorem eager_step (h : s.step = (.ok a, t)) :
    s.eager.step = (.ok a, t.eager) ∧ t.mode = .fixedStep ∧ t.inputs = t.state := by
  have hne : s.mode ≠ .realtime := by
    rw [hmode]
    exact TimeMode.noConfusion
  obtain ⟨u, hu, he⟩ := step_cases s
  obtain rfl := hu.fixed hne
  rcases he with ⟨fault, he⟩ | ⟨hnil, he⟩ | ⟨dt, next, history, hdt, hscan, -, -, he⟩ <;>
    cases h.symm.trans he
  · have hscan : s.program.scan s.inputs s.dt = .ok s.inputs := by
      rw [hnil]
      rfl
    have hinputs : inputs { s.drained with state := s.inputs } = s.inputs := inputs_of_empty rfl rfl rfl
    exact ⟨eager_step_of_scan hscan hinputs rfl rfl, hmode, hinputs⟩
  · have hinputs : inputs { s.drained with state := a, history } = a := inputs_of_empty rfl rfl rfl
    rw [hdt hmode] at hscan
    exact ⟨eager_step_of_scan hscan hinputs rfl rfl, hmode, hinputs⟩

/-- So are several scans. Only if there is none, inputs that were queued still are. -/
theorem eager_runCycles {n : Nat} (hs : n = 0 → s.inputs = s.state)
    (h : s.runCycles n = (.ok a, t)) :
    s.eager.runCycles n = (.ok a, t.eager) ∧ t.mode = .fixedStep ∧ t.inputs = t.state := by
  induction n generalizing s with
  | zero =>
    obtain ⟨ha, rfl⟩ : Except.ok s.state = Except.ok a ∧ s = t := Prod.mk.inj h
    refine ⟨?_, hmode, hs rfl⟩
    rw [← ha, ← hs rfl]
    rfl
  | succ n ih =>
    rw [runCycles] at h
    split at h
    · cases h
    · next b u hstep =>
      obtain ⟨hfirst, hu, hinputs⟩ := eager_step hmode hstep
      rw [Eager.runCycles, hfirst]
      exact ih hu (fun _ => hinputs) h

end FixedStep

theorem answered_eq_ok {α : Type} {f : α → Answer} {r : Except Fault α × Session} {answer : Answer}
    (h : answered f r = (.ok answer, t)) : ∃ x, r = (.ok x, t) ∧ f x = answer := by
  obtain ⟨result, u⟩ := r
  cases result with
  | error fault => cases h
  | ok x =>
    cases h
    exact ⟨x, rfl, rfl⟩

/-- Inputs that are understood come to the same in the queues and in the state. -/
theorem eager_enter {bits registers : Json.Fields} (h : s.enter bits registers = (.ok (), t)) :
    s.eager.enter bits registers = (.ok (), t.eager) ∧ t.mode = s.mode := by
  unfold enter at h
  cases hr : Table.ofIntegers registers with
  | error e =>
    rw [hr] at h
    cases h
  | ok updates =>
    rw [hr] at h
    cases h
    rw [Eager.enter, hr]
    exact ⟨by simp only [eager, inputs_enter], rfl⟩

/-- A bit is toggled in the queue as it is in the state. -/
theorem eager_toggle (s : Session) (name : Text) :
    s.eager.toggle name = ((s.toggle name).1, (s.toggle name).2.eager) := by
  have hbit : s.eager.state.bit name = s.queuedBits.getD name (s.state.bit name) := bit_inputs s name
  rw [Eager.toggle, toggle, hbit]
  simp only [eager, inputs_toggle]

/-- A command has the same answer and the same effect for a session and for the eager one. -/
theorem eager_perform (hmode : s.mode = .fixedStep) {c : Command} {answer : Answer}
    (h : s.perform c.request = (.ok answer, t)) :
    s.eager.perform c = (.ok answer, t.eager) ∧ t.mode = .fixedStep ∧
      (c.settles = true → t.inputs = t.state) := by
  cases c with
  | enter bits registers =>
    obtain ⟨_, henter, rfl⟩ := answered_eq_ok h
    obtain ⟨he, ht⟩ := eager_enter henter
    rw [Eager.perform, he]
    exact ⟨rfl, ht.trans hmode, fun hc => by cases hc⟩
  | toggle name =>
    cases h
    rw [Eager.perform, eager_toggle]
    exact ⟨rfl, hmode, fun hc => by cases hc⟩
  | step =>
    obtain ⟨_, hstep, rfl⟩ := answered_eq_ok h
    obtain ⟨he, ht, hinputs⟩ := eager_step hmode hstep
    rw [Eager.perform, he]
    exact ⟨rfl, ht, fun _ => hinputs⟩
  | run cycles pos =>
    obtain ⟨_, hrun, rfl⟩ := answered_eq_ok h
    have hpos : cycles.toNat ≠ 0 := by omega
    obtain ⟨he, ht, hinputs⟩ := eager_runCycles hmode (fun hzero => absurd hzero hpos) hrun
    rw [Eager.perform, he]
    exact ⟨rfl, ht, fun _ => hinputs⟩
  | load program restart =>
    cases h
    cases restart with
    | true =>
      have hinputs := inputs_reset { s with program, drawing := none } {}
      refine ⟨?_, hmode, fun _ => hinputs⟩
      rw [load, if_pos rfl, eager_reset]
      rfl
    | false => exact ⟨rfl, hmode, fun hc => by cases hc⟩
  | reset state =>
    cases h
    refine ⟨?_, hmode, fun _ => inputs_reset s state⟩
    rw [eager_reset]
    rfl

theorem exists_answer {r : Request} (h : (s.perform r).1.isOk = true) :
    ∃ answer, s.perform r = (.ok answer, (s.perform r).2) := by
  cases hr : (s.perform r).1 with
  | error fault =>
    rw [hr] at h
    cases h
  | ok answer => exact ⟨answer, Prod.ext hr rfl⟩

/-- Commands that are all accepted lead from a session to what they make of the eager one. -/
theorem eager_performAll (hmode : s.mode = .fixedStep) {commands : List Command}
    (h : s.accepts (commands.map Command.request) = true) :
    s.eager.performAll commands = (s.performAll (commands.map Command.request)).eager ∧
      (s.performAll (commands.map Command.request)).mode = .fixedStep := by
  induction commands generalizing s with
  | nil => exact ⟨rfl, hmode⟩
  | cons c commands ih =>
    obtain ⟨hc, hrest⟩ := Bool.and_eq_true_iff.1 h
    obtain ⟨answer, hanswer⟩ := exists_answer hc
    obtain ⟨he, ht, -⟩ := eager_perform hmode hanswer
    have hnext : (s.eager.perform c).2 = (s.perform c.request).2.eager := by rw [he]
    have hall := ih ht hrest
    rw [← hnext] at hall
    exact hall

theorem accepts_append (s : Session) (first second : List Request) :
    s.accepts (first ++ second) = (s.accepts first && (s.performAll first).accepts second) := by
  induction first generalizing s with
  | nil => rfl
  | cons r first ih => rw [List.cons_append, accepts, ih, accepts, Bool.and_assoc]; rfl

/-- **Deferred inputs are as good as immediate ones.** A session in a fixed step has nothing in its
queues, as a new one, and commands are given to it of which none is refused. Then the last of them has
the answer that an eager session gives, which starts with the same program, state and step and is given
the same commands. If that is a scan, some scans or a new start, the states after it are equal. -/
theorem answer_eq_eager (hmode : s.mode = .fixedStep) (hqueues : s.drained = s)
    {before : List Command} {c : Command}
    (hok : s.accepts ((before ++ [c]).map Command.request) = true) :
    let t := s.performAll (before.map Command.request)
    let e := Eager.performAll { program := s.program, state := s.state, dt := s.dt } before
    (e.perform c).1 = (t.perform c.request).1 ∧
      (c.settles = true → (e.perform c).2.state = (t.perform c.request).2.state) := by
  intro t e
  have hinputs : s.inputs = s.state := by
    rw [← hqueues]
    exact inputs_of_empty rfl rfl rfl
  rw [List.map_append, accepts_append, Bool.and_eq_true] at hok
  obtain ⟨hbefore, hlast⟩ := hok
  obtain ⟨hall, ht⟩ : s.eager.performAll before = t.eager ∧ t.mode = .fixedStep :=
    eager_performAll hmode hbefore
  have he : e = t.eager := by rw [← hall, eager, hinputs]
  obtain ⟨answer, hanswer⟩ : ∃ answer, t.perform c.request = (.ok answer, (t.perform c.request).2) :=
    exists_answer (Bool.and_eq_true_iff.1 hlast).1
  obtain ⟨hc, -, hsettled⟩ := eager_perform ht hanswer
  rw [he, hc]
  exact ⟨(congrArg Prod.fst hanswer).symm, hsettled⟩

/-- A bit is entered and toggled, the program is replaced while it is queued, a register is queued for
an empty program, and the session starts over with inputs queued. -/
theorem answer_eq_eager_swapped :
    let before : List Command := [.enter [("X0", .bool false)] [("D0", .str "12")], .toggle "X0",
      .load (Listing.parse "LD X0\nMOVP D0 D1\nOUT T0 K1") false, .run 2 (by decide), .load [] false,
      .enter [] [("D1", .int 7)], .step, .toggle "X0", .reset { scans := 3 }, .toggle "X0",
      .load (Listing.parse "LD X0\nOUT C0 K1") false]
    ∃ s, start [] {} (some 2) {} = .ok s ∧ s.mode = .fixedStep ∧ s.drained = s ∧
      s.accepts ((before ++ [Command.step]).map Command.request) = true ∧
      let t := s.performAll (before.map Command.request)
      let e := Eager.performAll { program := s.program, state := s.state, dt := s.dt } before
      (e.perform .step).1 = (t.perform .step).1 ∧
        (e.perform .step).2.state = (t.perform .step).2.state := by
  intro before
  obtain ⟨s, hs⟩ : ∃ s, start [] {} (some 2) {} = .ok s := ⟨_, rfl⟩
  obtain ⟨hmode, hqueues, hok⟩ : s.mode = .fixedStep ∧ s.drained = s ∧
      s.accepts ((before ++ [Command.step]).map Command.request) = true := by
    obtain rfl := Except.ok.inj hs
    exact ⟨rfl, rfl, by decide⟩
  obtain ⟨hanswer, hstate⟩ := answer_eq_eager hmode hqueues hok
  exact ⟨s, hs, hmode, hqueues, hok, hanswer, hstate rfl⟩

end Session
end LadderLogic
