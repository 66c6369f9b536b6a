import LadderLogic.Listing
import LadderLogic.Scan

/-!
# Footprints

What a scan looks at and what it changes. An entry of a state has a place (`Slot`), and an instruction
names some places and may write some of them. Run from two scans that agree wherever the program names
something, a program either fails with the same fault in both, or makes the same writes in both and
leaves the same stacks (`Agree.run`). So nothing else in a state has an influence on a scan, and
nothing is changed but what the program may write.

One of the two scans may have further truths at the bottom of its logic stack, as another program may
have left them there. They make no difference as long as the run does not come down to them.

Source: `step` and `ScanContext` (sections 2 and 4.2 of the specification).
-/

namespace LadderLogic

/-! ## Places and writes -/

/-- The place of an entry in a state: one of its tables, and a name. -/
inductive Slot where
  | bit (name : Text)
  | register (name : Text)
  | timer (name : Text)
  | counter (name : Text)
  | edge (name : Text)
  deriving DecidableEq, Repr

/-- A write of an entry. -/
inductive Write where
  | bit (name : Text) (b : Bool)
  | register (name : Text) (n : Int)
  | timer (name : Text) (n : Int)
  | counter (name : Text) (n : Int)
  | edge (name : Text) (b : Bool)
  deriving DecidableEq, Repr

/-- The place that is written. -/
def Write.slot : Write → Slot
  | .bit name _ => .bit name
  | .register name _ => .register name
  | .timer name _ => .timer name
  | .counter name _ => .counter name
  | .edge name _ => .edge name

namespace State

/-- Two states have the same entry at a place, or both have none. -/
def SameAt (s t : State) : Slot → Prop
  | .bit name => s.bits[name]? = t.bits[name]?
  | .register name => s.registers[name]? = t.registers[name]?
  | .timer name => s.timers[name]? = t.timers[name]?
  | .counter name => s.counters[name]? = t.counters[name]?
  | .edge name => s.edges[name]? = t.edges[name]?

/-- The state with an entry written. -/
def write (s : State) : Write → State
  | .bit name b => { s with bits := s.bits.insert name b }
  | .register name n => { s with registers := s.registers.insert name n }
  | .timer name n => { s with timers := s.timers.insert name n }
  | .counter name n => { s with counters := s.counters.insert name n }
  | .edge name b => { s with edges := s.edges.insert name b }

/-- The state with some entries written, one after the other. -/
def writeAll (s : State) (ws : List Write) : State := ws.foldl write s

variable {s t u : State} {slot : Slot} {w : Write}

theorem SameAt.refl (s : State) (slot : Slot) : s.SameAt s slot := by cases slot <;> rfl

theorem SameAt.symm (h : s.SameAt t slot) : t.SameAt s slot := by
  cases slot <;> exact Eq.symm h

theorem SameAt.trans (h : s.SameAt t slot) (h' : t.SameAt u slot) : s.SameAt u slot := by
  cases slot <;> exact Eq.trans h h'

/-- A write changes no other place. -/
theorem sameAt_write (s : State) (h : w.slot ≠ slot) : (s.write w).SameAt s slot := by
  cases w <;> cases slot <;>
    simp_all [Write.slot, SameAt, write, Std.ExtTreeMap.getElem?_insert]

/-- One and the same write leaves what was the same. -/
theorem SameAt.write (h : s.SameAt t slot) (w : Write) : (s.write w).SameAt (t.write w) slot := by
  cases w <;> cases slot <;>
    simp_all [SameAt, State.write, Std.ExtTreeMap.getElem?_insert]

theorem writeAll_append (s : State) (ws ws' : List Write) :
    s.writeAll (ws ++ ws') = (s.writeAll ws).writeAll ws' := List.foldl_append

theorem sameAt_writeAll {ws : List Write} (s : State) (h : ∀ w ∈ ws, w.slot ≠ slot) :
    (s.writeAll ws).SameAt s slot := by
  induction ws generalizing s with
  | nil => exact .refl s slot
  | cons w ws ih =>
    exact (ih (s.write w) fun w' hw' => h w' (List.mem_cons_of_mem w hw')).trans
      (sameAt_write s (h w List.mem_cons_self))

theorem SameAt.writeAll (h : s.SameAt t slot) (ws : List Write) :
    (s.writeAll ws).SameAt (t.writeAll ws) slot := by
  induction ws generalizing s t with
  | nil => exact h
  | cons w ws ih => exact ih (h.write w)

/-- The counters of scans and of time, and the entries under keys that are no names, are in no
table. -/
theorem writeAll_others (s : State) (ws : List Write) :
    (s.writeAll ws).scans = s.scans ∧ (s.writeAll ws).elapsed = s.elapsed ∧
      (s.writeAll ws).strays = s.strays := by
  induction ws generalizing s with
  | nil => exact ⟨rfl, rfl, rfl⟩
  | cons w ws ih =>
    have hws := ih (s.write w)
    cases w <;> exact hws

/-- The branch stack is in no table. -/
theorem writeAll_branches (s : State) (branches : List Bool) (ws : List Write) :
    writeAll { s with branches } ws = { s.writeAll ws with branches } := by
  induction ws generalizing s with
  | nil => rfl
  | cons w ws ih =>
    have hws := ih (s.write w)
    cases w <;> exact hws

end State

/-! ## What an instruction names and writes -/

namespace Instruction

/-- The names that occur in an instruction. -/
def names (i : Instruction) : List Text := i.value :: i.args

/-- The instruction is one of some coils. -/
def IsCoil (i : Instruction) (coils : List Coil) : Prop := ∃ c ∈ coils, i.operation = .known (.coil c)

/-- The instruction is a pulse move whose enable is remembered under a name. -/
def IsPulse (i : Instruction) (name : Text) : Prop :=
  i.IsCoil [.movePulse] ∧ pulseKey i.id = .ok name

/-- The places that an instruction names: the entries of all tables under its names, but of the edges
only those of counters and of its own pulse. -/
def Names (i : Instruction) : Slot → Prop
  | .bit name | .register name | .timer name | .counter name => name ∈ i.names
  | .edge name => (name ∈ i.names ∧ Family.ofName name = .counter) ∨ i.IsPulse name

/-- The places that an instruction may write. -/
def Writes (i : Instruction) : Slot → Prop
  | .bit name => i.IsCoil [.out, .set, .reset] ∧ i.value = name
  | .register name =>
    (i.IsCoil [.move, .movePulse] ∧ i.args[1]? = some name) ∨
      (i.IsCoil [.reset] ∧ i.value = name ∧ Family.ofName name = .data)
  | .timer name => i.IsCoil [.out, .reset] ∧ i.value = name ∧ Family.ofName name = .timer
  | .counter name => i.IsCoil [.out, .reset] ∧ i.value = name ∧ Family.ofName name = .counter
  | .edge name =>
    (i.IsCoil [.out, .reset] ∧ i.value = name ∧ Family.ofName name = .counter) ∨ i.IsPulse name

/-- What an instruction may write, it names. -/
theorem Writes.names {i : Instruction} {slot : Slot} (h : i.Writes slot) : i.Names slot := by
  have hvalue : i.value ∈ i.names := List.mem_cons_self
  cases slot with
  | bit name =>
    obtain ⟨-, rfl⟩ := h
    exact hvalue
  | register name =>
    rcases h with ⟨-, ha⟩ | ⟨-, rfl, -⟩
    · exact List.mem_cons_of_mem i.value (List.mem_of_getElem? ha)
    · exact hvalue
  | timer name =>
    obtain ⟨-, rfl, -⟩ := h
    exact hvalue
  | counter name =>
    obtain ⟨-, rfl, -⟩ := h
    exact hvalue
  | edge name =>
    rcases h with ⟨-, rfl, hf⟩ | hp
    · exact .inl ⟨hvalue, hf⟩
    · exact .inr hp

instance (i : Instruction) (name : Text) : Decidable (name ∈ i.names) :=
  inferInstanceAs (Decidable (name ∈ i.value :: i.args))

instance (i : Instruction) (coils : List Coil) : Decidable (i.IsCoil coils) :=
  inferInstanceAs (Decidable (∃ c ∈ coils, i.operation = .known (.coil c)))

instance (id : Int) (name : Text) : Decidable (pulseKey id = .ok name) :=
  match pulseKey id with
  | .ok key => decidable_of_iff (key = name) ⟨congrArg Except.ok, Except.ok.inj⟩
  | .error _ => isFalse fun h => by cases h

instance (i : Instruction) (name : Text) : Decidable (i.IsPulse name) :=
  inferInstanceAs (Decidable (_ ∧ _))

instance (i : Instruction) : DecidablePred i.Names
  | .bit name | .register name | .timer name | .counter name =>
    inferInstanceAs (Decidable (name ∈ i.names))
  | .edge _ => inferInstanceAs (Decidable (_ ∨ _))

instance (i : Instruction) : DecidablePred i.Writes
  | .bit _ | .timer _ | .counter _ => inferInstanceAs (Decidable (_ ∧ _))
  | .register _ | .edge _ => inferInstanceAs (Decidable (_ ∨ _))

end Instruction

namespace Program

/-- The places that a program names. -/
def Names (program : Program) (slot : Slot) : Prop := ∃ i ∈ program, i.Names slot

/-- The places that a program may write. -/
def Writes (program : Program) (slot : Slot) : Prop := ∃ i ∈ program, i.Writes slot

/-- What a program may write, it names. -/
theorem Writes.names {program : Program} {slot : Slot} (h : program.Writes slot) :
    program.Names slot := by
  obtain ⟨i, hi, hw⟩ := h
  exact ⟨i, hi, hw.names⟩

instance (program : Program) : DecidablePred program.Names :=
  fun slot => inferInstanceAs (Decidable (∃ i ∈ program, i.Names slot))

instance (program : Program) : DecidablePred program.Writes :=
  fun slot => inferInstanceAs (Decidable (∃ i ∈ program, i.Writes slot))

end Program

/-! ## Operands -/

namespace Operand

/-- A token is empty, a literal or the name of a register. -/
theorem ofToken_cases (token : Text) :
    token = [] ∨ (∃ negative digits, ofToken token = .literal negative digits) ∨
      ofToken token = .register token := by
  have literal {digits : Text} {negative : Bool} {o : Operand}
      (ho : (Text.digits? digits).map (.literal negative) = some o) :
      ∃ negative digits, o = .literal negative digits := by
    obtain ⟨ds, -, rfl⟩ := Option.map_eq_some_iff.1 ho
    exact ⟨negative, ds, rfl⟩
  simp only [ofToken]
  split
  · next hempty => exact .inl (List.isEmpty_iff.1 hempty)
  · refine .inr ?_
    cases ho : (constant? (Text.chomp token)).or (plain? (Text.chomp token)) with
    | none => exact .inr rfl
    | some o =>
      refine .inl ?_
      rcases Option.or_eq_some_iff.1 ho with hc | ⟨-, hp⟩
      · unfold constant? at hc
        split at hc
        · exact literal hc
        · cases hc
      · unfold plain? at hp
        split at hp <;> exact literal hp

/-- The value of a token hangs on the register of its name only. -/
theorem resolve_congr {registers registers' : Text → Int} {token : Text}
    (h : registers token = registers' token) :
    resolve registers token = resolve registers' token := by
  rw [resolve, resolve]
  rcases ofToken_cases token with rfl | ⟨negative, digits, ho⟩ | ho
  · rfl
  · rw [ho]
    rfl
  · rw [ho]
    exact congrArg Except.ok h

end Operand

/-! ## Stacks -/

namespace Instruction

/-- The number of truths that an instruction takes from the logic stack or looks at there. -/
def uses (i : Instruction) : Nat :=
  match i.operation with
  | .known (.contact .start _) => 0
  | .known (.contact _ _) => 1
  | .known (.block _) => 2
  | .known (.branch .push) => 1
  | .known (.branch _) => 0
  | .known (.coil _) => 1
  | .unknown _ => 0

/-- Whether an instruction reads the branch stack. -/
def readsBranch (i : Instruction) : Bool :=
  i.operation = .known (.branch .read) || i.operation = .known (.branch .pop)

end Instruction

namespace Scan

/-- A run from a scan never takes from an empty stack, and leaves the branch stack empty. -/
def SelfContained (s : Scan) : Program → Prop
  | [] => s.branches = []
  | i :: rest =>
    i.uses ≤ s.logic.length ∧ (i.readsBranch = true → s.branches ≠ []) ∧
      match s.exec i with
      | .ok next => next.SelfContained rest
      | .error _ => True

instance decidableSelfContained (s : Scan) :
    (program : Program) → Decidable (s.SelfContained program)
  | [] => inferInstanceAs (Decidable (s.branches = []))
  | i :: rest =>
    have : Decidable (match s.exec i with
        | .ok next => next.SelfContained rest
        | .error _ => True) :=
      match s.exec i with
      | .ok next => decidableSelfContained next rest
      | .error _ => isTrue trivial
    inferInstanceAs (Decidable (_ ∧ _ ∧ _))

/-! ## Reads -/

/-- Two scans agree on some places: they have the same entries there, the same branch stack and the
same time, and the second one has the logic stack of the first on top of the truths `below`. -/
structure Agree (names : Slot → Prop) (below : List Bool) (s t : Scan) : Prop where
  sameAt : ∀ slot, names slot → s.state.SameAt t.state slot
  logic : t.logic = s.logic ++ below
  branches : s.branches = t.branches
  dt : s.dt = t.dt

section Reads

variable {names : Slot → Prop} {below : List Bool} {s t : Scan} (h : Agree names below s t)

include h

/-- What is left of the logic stacks without their `k` top truths. -/
theorem Agree.drop_logic {k : Nat} (hb : below = [] ∨ k ≤ s.logic.length) :
    t.logic.drop k = s.logic.drop k ++ below := by
  rw [h.logic]
  rcases hb with rfl | hk
  · rw [List.append_nil, List.append_nil]
  · exact List.drop_append_of_le_length hk

theorem Agree.logic_getD {k : Nat} (hb : below = [] ∨ k < s.logic.length) :
    s.logic.getD k false = t.logic.getD k false := by
  rw [h.logic]
  rcases hb with rfl | hk
  · rw [List.append_nil]
  · rw [List.getD_eq_getElem?_getD, List.getD_eq_getElem?_getD, List.getElem?_append_left hk]

theorem Agree.peek_eq (hb : below = [] ∨ 1 ≤ s.logic.length) : s.peek = t.peek := by
  simpa [peek, List.headD_eq_head?_getD, List.head?_eq_getElem?] using h.logic_getD hb

theorem Agree.bit_eq {name : Text} (hn : names (.bit name)) : s.bit name = t.bit name := by
  have he : s.state.bits[name]? = t.state.bits[name]? := h.sameAt _ hn
  simp only [Scan.bit_eq, State.bit, Std.ExtTreeMap.getD_eq_getD_getElem?, he]

theorem Agree.register_eq {name : Text} (hn : names (.register name)) :
    s.register name = t.register name := by
  have he : s.state.registers[name]? = t.state.registers[name]? := h.sameAt _ hn
  simp only [Scan.register_eq, State.register, Std.ExtTreeMap.getD_eq_getD_getElem?, he]

theorem Agree.timer_eq {name : Text} (hn : names (.timer name)) : s.timer name = t.timer name := by
  have he : s.state.timers[name]? = t.state.timers[name]? := h.sameAt _ hn
  simp only [Scan.timer_eq, Std.ExtTreeMap.getD_eq_getD_getElem?, he]

theorem Agree.counter_eq {name : Text} (hn : names (.counter name)) :
    s.counter name = t.counter name := by
  have he : s.state.counters[name]? = t.state.counters[name]? := h.sameAt _ hn
  simp only [Scan.counter_eq, Std.ExtTreeMap.getD_eq_getD_getElem?, he]

theorem Agree.rises_eq {name : Text} (hn : names (.edge name)) (enable : Bool) :
    s.rises name enable = t.rises name enable := by
  have he : s.state.edges[name]? = t.state.edges[name]? := h.sameAt _ hn
  simp only [Scan.rises_eq, Std.ExtTreeMap.getD_eq_getD_getElem?, he]

theorem Agree.resolve_eq {token : Text} (hn : names (.register token)) :
    s.resolve token = t.resolve token :=
  Operand.resolve_congr (h.register_eq hn)

end Reads

/-! ## Effects -/

/-- The scan with an entry written. -/
def write (s : Scan) : Write → Scan
  | .bit name b => s.setBit name b
  | .register name n => s.setRegister name n
  | .timer name n => s.setTimer name n
  | .counter name n => s.setCounter name n
  | .edge name b => s.setEdge name b

/-- The scan with some entries written, one after the other. -/
def writeAll (s : Scan) (ws : List Write) : Scan := ws.foldl write s

/-- What is handed out has the writes. -/
theorem state_writeAll (s : Scan) (ws : List Write) : (s.writeAll ws).state = s.state.writeAll ws := by
  induction ws generalizing s with
  | nil => rfl
  | cons w ws ih =>
    have hw : (s.write w).state = s.state.write w := by cases w <;> rfl
    exact (ih (s.write w)).trans (congrArg (State.writeAll · ws) hw)

theorem writeAll_append (s : Scan) (ws ws' : List Write) :
    s.writeAll (ws ++ ws') = (s.writeAll ws).writeAll ws' := List.foldl_append

/-- The scan with other stacks. -/
def withStacks (s : Scan) (logic branches : List Bool) : Scan := { s with logic, branches }

/-- Writes and stacks do not meet. -/
theorem writeAll_withStacks (s : Scan) (logic branches : List Bool) (ws : List Write) :
    (s.withStacks logic branches).writeAll ws = (s.writeAll ws).withStacks logic branches := by
  induction ws generalizing s with
  | nil => rfl
  | cons w ws ih =>
    have hws := ih (s.write w)
    cases w <;> exact hws

/-- Writes leave the stacks and the time. -/
theorem writeAll_others (s : Scan) (ws : List Write) :
    (s.writeAll ws).logic = s.logic ∧ (s.writeAll ws).branches = s.branches ∧
      (s.writeAll ws).dt = s.dt := by
  induction ws generalizing s with
  | nil => exact ⟨rfl, rfl, rfl⟩
  | cons w ws ih =>
    have hws := ih (s.write w)
    cases w <;> exact hws

/-- What a run does to a scan: its writes in order, and the stacks that it leaves. -/
structure Effect where
  writes : List Write
  logic : List Bool
  branches : List Bool

/-- The scan after an effect. -/
def after (s : Scan) (e : Effect) : Scan := (s.writeAll e.writes).withStacks e.logic e.branches

theorem state_after (s : Scan) (e : Effect) :
    (s.after e).state = { s.state.writeAll e.writes with branches := e.branches } := by
  rw [← state_writeAll]
  rfl

/-- What a scan hands out after an effect. -/
theorem commit_after (s : State) (dt : Int) (e : Effect) :
    ((start s dt).after e).commit =
      State.nextScan { s.writeAll e.writes with branches := e.branches } dt := by
  have hstate : (start s dt).state = { s with branches := [] } := rfl
  have hdt : ((start s dt).after e).dt = dt := (writeAll_others (start s dt) e.writes).2.2
  rw [commit, state_after, hstate, State.writeAll_branches, hdt]

theorem dt_after (s : Scan) (e : Effect) : (s.after e).dt = s.dt := (writeAll_others s e.writes).2.2

/-- The effect on a scan that has the truths `below` at the bottom of its logic stack. -/
def Effect.onto (e : Effect) (below : List Bool) : Effect := { e with logic := e.logic ++ below }

/-- Two scans, the second with the truths `below` at the bottom, are left by one and the same effect,
which writes certain places only. -/
def Joint (writes : Slot → Prop) (below : List Bool) (s t u v : Scan) : Prop :=
  ∃ e : Effect, u = s.after e ∧ v = t.after (e.onto below) ∧ ∀ w ∈ e.writes, writes w.slot

/-- Two runs have the same outcome: they fail with the same fault, or have the same effect. -/
def Alike (writes : Slot → Prop) (below : List Bool) (s t : Scan)
    (x y : Except Numeral.Fault Scan) : Prop :=
  (∃ fault, x = .error fault ∧ y = .error fault) ∨
    ∃ u v, x = .ok u ∧ y = .ok v ∧ Joint writes below s t u v

section Effects

variable {names writes : Slot → Prop} {below : List Bool} {s t : Scan} {i : Instruction}

theorem Joint.alike {u v : Scan} (h : Joint writes below s t u v) :
    Alike writes below s t (.ok u) (.ok v) :=
  .inr ⟨u, v, rfl, rfl, h⟩

/-- What is done with an operand that may have no value. -/
theorem alike_map {α : Type} (x : Except Numeral.Fault α) {f g : α → Scan}
    (h : ∀ a, Joint writes below s t (f a) (g a)) :
    Alike writes below s t (x.map f) (x.map g) := by
  cases x with
  | error fault => exact .inl ⟨fault, rfl, rfl⟩
  | ok a => exact (h a).alike

/-- Two effects, one after the other. -/
theorem after_after (s : Scan) (e e' : Effect) :
    (s.after e).after e' = s.after ⟨e.writes ++ e'.writes, e'.logic, e'.branches⟩ := by
  rw [after, after, writeAll_withStacks, after, writeAll_append]
  rfl

theorem Joint.trans {s' t' u v : Scan} (h : Joint writes below s t s' t')
    (h' : Joint writes below s' t' u v) : Joint writes below s t u v := by
  obtain ⟨e, rfl, rfl, hw⟩ := h
  obtain ⟨e', rfl, rfl, hw'⟩ := h'
  refine ⟨_, after_after s e e', after_after t (e.onto below) (e'.onto below), fun w hm => ?_⟩
  exact (List.mem_append.1 hm).elim (hw w) (hw' w)

theorem Joint.alike_trans {s' t' : Scan} {x y : Except Numeral.Fault Scan}
    (h : Joint writes below s t s' t') (h' : Alike writes below s' t' x y) :
    Alike writes below s t x y := by
  rcases h' with hfault | ⟨u, v, hx, hy, huv⟩
  · exact .inl hfault
  · exact .inr ⟨u, v, hx, hy, h.trans huv⟩

variable (h : Agree names below s t)

include h

/-- Scans that agree still agree after the same effect. -/
theorem Agree.of_joint {u v : Scan} (huv : Joint writes below s t u v) :
    Agree names below u v := by
  obtain ⟨e, rfl, rfl, -⟩ := huv
  refine ⟨fun slot hslot => ?_, rfl, rfl, by rw [dt_after, dt_after, h.dt]⟩
  have hsame := (h.sameAt slot hslot).writeAll e.writes
  rw [state_after, state_after]
  cases slot <;> exact hsame

omit h in
/-- What is done with the stacks alone. -/
theorem joint_stacks {logic logic' branches branches' : List Bool} (hl : logic' = logic ++ below)
    (hb : branches = branches') :
    Joint writes below s t (s.withStacks logic branches) (t.withStacks logic' branches') :=
  ⟨⟨[], logic, branches⟩, rfl, by rw [hl, ← hb]; rfl, fun w hw => absurd hw List.not_mem_nil⟩

/-- What is done with the tables alone. -/
theorem Agree.joint_writes (ws : List Write) (hw : ∀ w ∈ ws, writes w.slot) :
    Joint writes below s t (s.writeAll ws) (t.writeAll ws) := by
  refine ⟨⟨ws, s.logic, s.branches⟩, (writeAll_withStacks s s.logic s.branches ws), ?_, hw⟩
  rw [after, Effect.onto, ← h.logic, h.branches]
  exact writeAll_withStacks t t.logic t.branches ws

theorem Agree.skip : Joint writes below s t s t := joint_stacks h.logic h.branches

theorem Agree.push (b : Bool) : Joint writes below s t (s.push b) (t.push b) :=
  joint_stacks (congrArg (b :: ·) h.logic) h.branches

theorem Agree.contact {position : Position} {found : Except Numeral.Fault Bool}
    (hb : position = .start ∨ below = [] ∨ 1 ≤ s.logic.length) :
    Alike writes below s t (s.contact position found) (t.contact position found) := by
  rcases hb with rfl | hb
  · exact alike_map found h.push
  · have hdrop : t.logic.tail = s.logic.tail ++ below := by simpa using h.drop_logic hb
    have hreplace (b : Bool) : Joint writes below s t (s.drop.push b) (t.drop.push b) :=
      joint_stacks (congrArg (b :: ·) hdrop) h.branches
    cases position with
    | start => exact alike_map found h.push
    | series =>
      simp only [Scan.contact, ← h.peek_eq hb]
      split
      · exact alike_map found hreplace
      · exact (hreplace false).alike
    | parallel =>
      simp only [Scan.contact, ← h.peek_eq hb]
      split
      · exact (hreplace true).alike
      · exact alike_map found hreplace

theorem Agree.block (join : Join) (hb : below = [] ∨ 2 ≤ s.logic.length) :
    Joint writes below s t (s.block join) (t.block join) := by
  have hdrop : t.logic.tail.tail = s.logic.tail.tail ++ below := by
    simpa [← List.drop_one, List.drop_drop] using h.drop_logic hb
  have hfirst : s.peek = t.peek := h.peek_eq (hb.imp_right Nat.le_of_succ_le)
  have hsecond : s.drop.peek = t.drop.peek := by
    simpa [peek, drop, List.headD_eq_head?_getD, List.head?_eq_getElem?] using h.logic_getD hb
  cases join with
  | parallel =>
    rw [Scan.block, Scan.block, hfirst, hsecond]
    exact joint_stacks (congrArg (_ :: ·) hdrop) h.branches
  | series =>
    rw [Scan.block, Scan.block, hfirst, hsecond]
    exact joint_stacks (congrArg (_ :: ·) hdrop) h.branches

theorem Agree.branch {b : Branch} (hb : b ≠ .push ∨ below = [] ∨ 1 ≤ s.logic.length) :
    Joint writes below s t (s.branch b) (t.branch b) := by
  have hread : s.peekBranch = t.peekBranch := by rw [peekBranch, peekBranch, h.branches]
  cases b with
  | push =>
    rw [Scan.branch, Scan.branch, ← h.peek_eq (hb.resolve_left fun hne => hne rfl)]
    exact joint_stacks h.logic (congrArg (s.peek :: ·) h.branches)
  | read =>
    rw [Scan.branch, Scan.branch, ← hread]
    exact h.push s.peekBranch
  | pop =>
    rw [Scan.branch, Scan.branch, ← hread]
    exact joint_stacks (congrArg (s.peekBranch :: ·) h.logic) (congrArg List.tail h.branches)

end Effects

section Instructions

variable {names : Slot → Prop} {below : List Bool} {s t : Scan} {i : Instruction}
  (h : Agree names below s t) (hi : ∀ slot, i.Names slot → names slot)

include h hi

/-- The second operand, or a token in its place that has the same value everywhere. -/
theorem Agree.resolve_arg {default : Text}
    (hd : s.resolve default = t.resolve default) :
    s.resolve (i.arg 1 default) = t.resolve (i.arg 1 default) := by
  rw [Instruction.arg, List.getD_eq_getElem?_getD]
  cases ha : i.args[1]? with
  | none => exact hd
  | some a =>
    exact h.resolve_eq (hi (.register a) (List.mem_cons_of_mem i.value (List.mem_of_getElem? ha)))

theorem Agree.test_eq (test : Test) : s.test i test = t.test i test := by
  have hbit : s.bit i.value = t.bit i.value := h.bit_eq (hi (.bit i.value) List.mem_cons_self)
  cases test with
  | on => rw [Scan.test, Scan.test, hbit]
  | off => rw [Scan.test, Scan.test, hbit]
  | equal =>
    have hleft : s.resolve i.value = t.resolve i.value :=
      h.resolve_eq (hi (.register i.value) List.mem_cons_self)
    have hright : s.resolve (i.arg 1 ['0']) = t.resolve (i.arg 1 ['0']) := h.resolve_arg hi rfl
    rw [Scan.test, Scan.test, hleft, hright]

theorem Agree.outTimer (ho : i.operation = .known (.coil .out))
    (hf : Family.ofName i.value = .timer) (hpeek : s.peek = t.peek)
    (preset : Except Numeral.Fault Int) :
    Alike i.Writes below s t (s.outTimer i.value preset) (t.outTimer i.value preset) := by
  have htimer : s.timer i.value = t.timer i.value :=
    h.timer_eq (hi (.timer i.value) List.mem_cons_self)
  have hset (n : Int) (b : Bool) : Joint i.Writes below s t
      ((s.setTimer i.value n).setBit i.value b) ((t.setTimer i.value n).setBit i.value b) :=
    h.joint_writes [.timer i.value n, .bit i.value b]
      (by simp [Write.slot, Instruction.Writes, Instruction.IsCoil, ho, hf])
  simp only [Scan.outTimer, ← hpeek, ← htimer, ← h.dt]
  split
  · exact alike_map preset fun units => hset _ _
  · exact (hset 0 false).alike

theorem Agree.outCounter (ho : i.operation = .known (.coil .out))
    (hf : Family.ofName i.value = .counter) (hpeek : s.peek = t.peek)
    (preset : Except Numeral.Fault Int) :
    Alike i.Writes below s t (s.outCounter i.value preset) (t.outCounter i.value preset) := by
  have hcounter : s.counter i.value = t.counter i.value :=
    h.counter_eq (hi (.counter i.value) List.mem_cons_self)
  have hrises (enable : Bool) : s.rises i.value enable = t.rises i.value enable :=
    h.rises_eq (hi (.edge i.value) (.inl ⟨List.mem_cons_self, hf⟩)) enable
  have hseen (b : Bool) : Joint i.Writes below s t (s.setEdge i.value b) (t.setEdge i.value b) :=
    h.joint_writes [.edge i.value b]
      (by simp [Write.slot, Instruction.Writes, Instruction.IsCoil, ho, hf])
  have hcounted (b : Bool) (n : Int) : Joint i.Writes below s t
      ((s.setEdge i.value b).setCounter i.value n) ((t.setEdge i.value b).setCounter i.value n) :=
    h.joint_writes [.edge i.value b, .counter i.value n]
      (by simp [Write.slot, Instruction.Writes, Instruction.IsCoil, ho, hf])
  have hdone (b : Bool) (n : Int) : Joint i.Writes below s t
      (((s.setEdge i.value b).setCounter i.value n).setBit i.value true)
      (((t.setEdge i.value b).setCounter i.value n).setBit i.value true) :=
    h.joint_writes [.edge i.value b, .counter i.value n, .bit i.value true]
      (by simp [Write.slot, Instruction.Writes, Instruction.IsCoil, ho, hf])
  simp only [Scan.outCounter, ← hpeek, ← hcounter, ← hrises]
  split
  · refine alike_map preset fun n => ?_
    split
    · exact hdone _ _
    · exact hcounted _ _
  · exact (hseen _).alike

theorem Agree.out (ho : i.operation = .known (.coil .out)) (hpeek : s.peek = t.peek)
    (preset : Except Numeral.Fault Int) :
    Alike i.Writes below s t (s.out i.value preset) (t.out i.value preset) := by
  have hset (b : Bool) : Joint i.Writes below s t (s.setBit i.value b) (t.setBit i.value b) :=
    h.joint_writes [.bit i.value b] (by simp [Write.slot, Instruction.Writes, Instruction.IsCoil, ho])
  unfold Scan.out
  split
  · next hf => exact h.outTimer hi ho hf hpeek preset
  · next hf => exact h.outCounter hi ho hf hpeek preset
  · rw [← hpeek]
    exact (hset _).alike

omit hi in
theorem Agree.reset (ho : i.operation = .known (.coil .reset)) :
    Joint i.Writes below s t (s.reset i.value) (t.reset i.value) := by
  unfold Scan.reset
  cases hf : Family.ofName i.value with
  | timer =>
    exact h.joint_writes [.timer i.value 0, .bit i.value false]
      (by simp [Write.slot, Instruction.Writes, Instruction.IsCoil, ho, hf])
  | counter =>
    exact h.joint_writes [.counter i.value 0, .bit i.value false, .edge i.value false]
      (by simp [Write.slot, Instruction.Writes, Instruction.IsCoil, ho, hf])
  | data =>
    exact h.joint_writes [.register i.value 0]
      (by simp [Write.slot, Instruction.Writes, Instruction.IsCoil, ho, hf])
  | bit =>
    exact h.joint_writes [.bit i.value false]
      (by simp [Write.slot, Instruction.Writes, Instruction.IsCoil, ho])

theorem Agree.move (ho : i.IsCoil [.move, .movePulse]) :
    Alike i.Writes below s t (s.move i) (t.move i) := by
  unfold Scan.move
  split
  · next source target rest hargs =>
    have hmem : source ∈ i.names := by simp [Instruction.names, hargs]
    have hsource : s.resolve source = t.resolve source := h.resolve_eq (hi (.register source) hmem)
    rw [hsource]
    refine alike_map _ fun n => h.joint_writes [.register target n] ?_
    simp [Write.slot, Instruction.Writes, ho, hargs]
  · exact h.skip.alike

theorem Agree.movePulse (ho : i.operation = .known (.coil .movePulse)) (hpeek : s.peek = t.peek) :
    Alike i.Writes below s t (s.movePulse i) (t.movePulse i) := by
  unfold Scan.movePulse
  cases hk : Instruction.pulseKey i.id with
  | error fault => exact .inl ⟨fault, rfl, rfl⟩
  | ok key =>
    have hpulse : i.IsPulse key := ⟨⟨.movePulse, List.mem_cons_self, ho⟩, hk⟩
    have hseen : Joint i.Writes below s t (s.setEdge key s.peek) (t.setEdge key s.peek) :=
      h.joint_writes [.edge key s.peek] (by simp [Write.slot, Instruction.Writes, hpulse])
    have hmove := (h.of_joint hseen).move hi ⟨.movePulse, by simp, ho⟩
    simp only [bind, Except.bind, ← hpeek, ← h.rises_eq (hi (.edge key) (.inr hpulse))]
    split
    · exact hseen.alike_trans hmove
    · exact hseen.alike

theorem Agree.coil {c : Coil} (ho : i.operation = .known (.coil c)) (hpeek : s.peek = t.peek) :
    Alike i.Writes below s t (s.coil i c) (t.coil i c) := by
  cases c with
  | out =>
    have hpreset : s.resolve (i.arg 1 []) = t.resolve (i.arg 1 []) := h.resolve_arg hi rfl
    rw [Scan.coil, Scan.coil, hpreset]
    exact h.out hi ho hpeek _
  | set =>
    have hset : Joint i.Writes below s t (s.setBit i.value true) (t.setBit i.value true) :=
      h.joint_writes [.bit i.value true]
        (by simp [Write.slot, Instruction.Writes, Instruction.IsCoil, ho])
    simp only [Scan.coil, ← hpeek]
    split
    · exact hset.alike
    · exact h.skip.alike
  | reset =>
    simp only [Scan.coil, ← hpeek]
    split
    · exact (h.reset ho).alike
    · exact h.skip.alike
  | move =>
    simp only [Scan.coil, ← hpeek]
    split
    · exact h.move hi ⟨.move, List.mem_cons_self, ho⟩
    · exact h.skip.alike
  | movePulse => exact h.movePulse hi ho hpeek

/-- An instruction does the same from scans that agree wherever it names something, if it does not
come down to the truths that only one of them has. -/
theorem Agree.exec (hb : below = [] ∨ i.uses ≤ s.logic.length) :
    Alike i.Writes below s t (s.exec i) (t.exec i) := by
  unfold Scan.exec
  unfold Instruction.uses at hb
  split
  · next position test ho =>
    rw [ho] at hb
    rw [h.test_eq hi test]
    refine h.contact ?_
    cases position with
    | start => exact .inl rfl
    | series => exact .inr hb
    | parallel => exact .inr hb
  · next join ho =>
    rw [ho] at hb
    exact (h.block join hb).alike
  · next b ho =>
    rw [ho] at hb
    refine (h.branch ?_).alike
    cases b with
    | push => exact .inr hb
    | read => exact .inl Branch.noConfusion
    | pop => exact .inl Branch.noConfusion
  · next c ho =>
    rw [ho] at hb
    exact h.coil hi ho (h.peek_eq hb)
  · exact h.skip.alike

end Instructions

/-- A program does the same from scans that agree wherever it names something, if the second one has
the same stacks or the run from the first one never takes from an empty stack. -/
theorem Agree.run {names writes : Slot → Prop} {below : List Bool} {s t : Scan} {program : Program}
    (h : Agree names below s t) (hb : below = [] ∨ s.SelfContained program)
    (hnames : ∀ slot, program.Names slot → names slot)
    (hwrites : ∀ slot, program.Writes slot → writes slot) :
    Alike writes below s t (s.run program) (t.run program) := by
  induction program generalizing s t with
  | nil => exact h.skip.alike
  | cons i rest ih =>
    have hi := h.exec (fun slot hslot => hnames slot ⟨i, List.mem_cons_self, hslot⟩)
      (hb.imp_right And.left)
    rcases hi with ⟨fault, hs, ht⟩ | ⟨u, v, hs, ht, huv⟩
    · rw [Scan.run, Scan.run, hs, ht]
      exact .inl ⟨fault, rfl, rfl⟩
    · rw [Scan.run, Scan.run, hs, ht]
      have hnext : below = [] ∨ u.SelfContained rest := hb.imp_right fun hc => by
        have hrest := hc.2.2
        rwa [hs] at hrest
      have huv : Joint writes below s t u v := by
        obtain ⟨e, hu, hv, hw⟩ := huv
        exact ⟨e, hu, hv, fun w hm => hwrites w.slot ⟨i, List.mem_cons_self, hw w hm⟩⟩
      refine huv.alike_trans (ih (h.of_joint huv) hnext (fun slot hslot => ?_) fun slot hslot => ?_)
      · obtain ⟨j, hj, hslot⟩ := hslot
        exact hnames slot ⟨j, List.mem_cons_of_mem i hj, hslot⟩
      · obtain ⟨j, hj, hslot⟩ := hslot
        exact hwrites slot ⟨j, List.mem_cons_of_mem i hj, hslot⟩

/-- A run that does not fail goes through the scan after its first instruction. -/
theorem exists_exec_of_run {s u : Scan} {i : Instruction} {rest : Program}
    (h : s.run (i :: rest) = .ok u) : ∃ t, s.exec i = .ok t ∧ t.run rest = .ok u := by
  rw [run] at h
  cases hi : s.exec i with
  | error fault =>
    rw [hi] at h
    cases h
  | ok t =>
    rw [hi] at h
    exact ⟨t, rfl, h⟩

/-- A run that does not fail writes entries that its program may write, and leaves some stacks. -/
theorem exists_after {s u : Scan} {program : Program} (h : s.run program = .ok u) :
    ∃ e, u = s.after e ∧ ∀ w ∈ e.writes, program.Writes w.slot := by
  have hself : Agree program.Names [] s s :=
    ⟨fun slot _ => .refl s.state slot, (List.append_nil s.logic).symm, rfl, rfl⟩
  rcases hself.run (.inl rfl) (fun _ hn => hn) fun _ hw => hw with
    ⟨fault, hs, -⟩ | ⟨u', _, hs, -, e, he, -, hw⟩
  · cases h.symm.trans hs
  · exact ⟨e, (Except.ok.inj (h.symm.trans hs)).trans he, hw⟩

end Scan

namespace Program

theorem exists_run_of_scan {program : Program} (hne : program ≠ []) {s next : State} {dt : Int}
    (h : program.scan s dt = .ok next) :
    ∃ u, (Scan.start s dt).run program = .ok u ∧ u.commit = next := by
  rw [scan, List.isEmpty_eq_false_iff.2 hne] at h
  cases hu : (Scan.start s dt).run program with
  | error fault =>
    rw [hu] at h
    cases h
  | ok u =>
    rw [hu] at h
    exact ⟨u, rfl, Except.ok.inj h⟩

/-- What a scan does, if it does not fail: an empty program does nothing, and any other writes entries
that it may write, leaves some branch stack, and is counted. -/
theorem scan_cases {program : Program} {s next : State} {dt : Int}
    (h : program.scan s dt = .ok next) :
    (program = [] ∧ next = s) ∨
    program ≠ [] ∧ ∃ ws branches, (∀ w ∈ ws, program.Writes w.slot) ∧
      next = State.nextScan { s.writeAll ws with branches } dt := by
  by_cases hne : program = []
  · subst hne
    exact .inl ⟨rfl, (Except.ok.inj h).symm⟩
  obtain ⟨u, hu, rfl⟩ := exists_run_of_scan hne h
  obtain ⟨e, rfl, hw⟩ := Scan.exists_after hu
  refine .inr ⟨hne, e.writes, e.branches, hw, ?_⟩
  exact Scan.commit_after s dt e

/-- **A scan depends on what the program names, and changes what it writes.** From two states that
have the same entries wherever the program names something, both scans fail with the same fault, or
both leave the same entries there and the same branch stack. Every entry that the program does not
write is left as it was. -/
theorem scan_noninterference {program : Program} (hne : program ≠ []) (dt : Int) {s t : State}
    (h : ∀ slot, program.Names slot → s.SameAt t slot) :
    (∃ fault, program.scan s dt = .error fault ∧ program.scan t dt = .error fault) ∨
    ∃ s' t', program.scan s dt = .ok s' ∧ program.scan t dt = .ok t' ∧
      (∀ slot, program.Names slot → s'.SameAt t' slot) ∧ s'.branches = t'.branches ∧
      (∀ slot, ¬program.Writes slot → s'.SameAt s slot) ∧ s'.strays = s.strays := by
  have hempty : program.isEmpty = false := List.isEmpty_eq_false_iff.2 hne
  have hagree : Scan.Agree program.Names [] (Scan.start s dt) (Scan.start t dt) := by
    refine ⟨fun slot hslot => ?_, rfl, rfl, rfl⟩
    have hsame := h slot hslot
    cases slot <;> exact hsame
  rcases hagree.run (.inl rfl) (fun _ hslot => hslot) fun _ hslot => hslot with
    ⟨fault, hs, ht⟩ | ⟨u, v, hs, ht, huv⟩
  · refine .inl ⟨fault, ?_, ?_⟩
    · rw [scan, hempty, hs]
      rfl
    · rw [scan, hempty, ht]
      rfl
  · have hfinal := hagree.of_joint huv
    obtain ⟨e, rfl, -, hw⟩ := huv
    have hcommit := Scan.commit_after s dt e
    refine .inr ⟨((Scan.start s dt).after e).commit, v.commit, by rw [scan, hempty, hs]; rfl,
      by rw [scan, hempty, ht]; rfl, fun slot hslot => ?_, hfinal.branches, fun slot hslot => ?_,
      by rw [hcommit]; exact (State.writeAll_others s e.writes).2.2⟩
    · have hsame := hfinal.sameAt slot hslot
      cases slot <;> exact hsame
    · have hother : ∀ w ∈ e.writes, w.slot ≠ slot := fun w hm he => hslot (he ▸ hw w hm)
      have hsame := State.sameAt_writeAll s hother
      rw [hcommit]
      cases slot <;> exact hsame

/-- A counter, a timer with its preset in a register and a pulse move, scanned from a state and from
one that has other entries beside it. -/
theorem scan_noninterference_pulse :
    let program := Listing.parse "LD X0\nOUT C0 K1\nMOVP D0 D1\nLD= D1 K5\nOUT T0 D2\nRST D3"
    let s : State := {
      bits := (∅ : Table Bool).insert "X0" true, registers := (∅ : Table Int).insert "D0" 5 }
    let t := s.writeAll [.bit "Y0" true, .register "D9" 7, .edge "X0" true, .edge "MOVP:9" true]
    program ≠ [] ∧ (∀ slot, program.Names slot → s.SameAt t slot) ∧
    ∃ s' t', program.scan s 100 = .ok s' ∧ program.scan t 100 = .ok t' ∧
      (∀ slot, program.Names slot → s'.SameAt t' slot) ∧ s'.branches = t'.branches ∧
      (∀ slot, ¬program.Writes slot → s'.SameAt s slot) ∧ s'.strays = s.strays := by
  intro program s t
  have hne : program ≠ [] := by decide
  have hother : ∀ w ∈ [Write.bit "Y0" true, .register "D9" 7, .edge "X0" true, .edge "MOVP:9" true],
      ¬program.Names w.slot := by decide
  have hsame : ∀ slot, program.Names slot → s.SameAt t slot := fun slot hslot =>
    (State.sameAt_writeAll s fun w hw he => hother w hw (he ▸ hslot)).symm
  have hok : (program.scan s 100).isOk = true := by decide
  refine ⟨hne, hsame, ?_⟩
  rcases scan_noninterference hne 100 hsame with ⟨fault, hs, -⟩ | h
  · rw [hs] at hok
    cases hok
  · exact h

end Program
end LadderLogic
