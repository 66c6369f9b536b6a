import LadderLogic.Proofs.Decimal
import LadderLogic.Proofs.Footprint

/-!
# Independent programs

Two programs that have nothing to do with each other can be scanned in either order. What the first
program writes, the second one does not name, so that the second one does what it would do alone; nor
does it come down to the truths that the first one has left on the logic stack. So the scan of both
makes the writes of the one and then the writes of the other, and writes of different places commute
(`writeAll_comm`).

Source: `step` (section 4.2 of the specification).
-/

namespace LadderLogic

/-! ## Writes of different places -/

theorem Table.insert_comm {α : Type} (table : Table α) {a b : Text} (h : a ≠ b) (x y : α) :
    (table.insert a x).insert b y = (table.insert b y).insert a x := by
  refine Std.ExtTreeMap.ext_getElem? fun k => ?_
  simp only [Std.ExtTreeMap.getElem?_insert, Std.LawfulEqCmp.compare_eq_iff_eq]
  by_cases ha : a = k
  · have hb : b ≠ k := fun hb => h (ha.trans hb.symm)
    simp only [ha, hb, if_true, if_false]
  · simp only [ha, if_false]

namespace State

/-- Writes of different places commute. -/
theorem write_comm (s : State) {w w' : Write} (h : w.slot ≠ w'.slot) :
    (s.write w).write w' = (s.write w').write w := by
  have hname {name name' : Text} {slot : Text → Slot} (hs : slot name ≠ slot name') :
      name ≠ name' := fun he => hs (congrArg slot he)
  -- writes of different tables commute as they stand
  cases w with
  | bit =>
    cases w' with
    | bit => simp only [write, Table.insert_comm _ (hname h)]
    | _ => rfl
  | register =>
    cases w' with
    | register => simp only [write, Table.insert_comm _ (hname h)]
    | _ => rfl
  | timer =>
    cases w' with
    | timer => simp only [write, Table.insert_comm _ (hname h)]
    | _ => rfl
  | counter =>
    cases w' with
    | counter => simp only [write, Table.insert_comm _ (hname h)]
    | _ => rfl
  | edge =>
    cases w' with
    | edge => simp only [write, Table.insert_comm _ (hname h)]
    | _ => rfl

theorem write_writeAll (s : State) {w : Write} {ws : List Write} (h : ∀ w' ∈ ws, w.slot ≠ w'.slot) :
    (s.write w).writeAll ws = (s.writeAll ws).write w := by
  induction ws generalizing s with
  | nil => rfl
  | cons w' ws ih =>
    obtain ⟨hne, hrest⟩ := List.forall_mem_cons.1 h
    calc (s.write w).writeAll (w' :: ws)
      _ = ((s.write w').write w).writeAll ws := congrArg (writeAll · ws) (write_comm s hne)
      _ = (s.writeAll (w' :: ws)).write w := ih (s.write w') hrest

/-- Writes commute with writes of other places. -/
theorem writeAll_comm (s : State) {ws ws' : List Write}
    (h : ∀ w ∈ ws, ∀ w' ∈ ws', w.slot ≠ w'.slot) :
    (s.writeAll ws).writeAll ws' = (s.writeAll ws').writeAll ws := by
  induction ws generalizing s with
  | nil => rfl
  | cons w ws ih =>
    obtain ⟨hw, hrest⟩ := List.forall_mem_cons.1 h
    calc (s.writeAll (w :: ws)).writeAll ws'
      _ = ((s.write w).writeAll ws').writeAll ws := ih (s.write w) hrest
      _ = (s.writeAll ws').writeAll (w :: ws) := congrArg (writeAll · ws) (write_writeAll s hw)

end State

/-! ## Names of pulses -/

/-- The key of a pulse move tells its id. -/
theorem Instruction.pulseKey_eq_ok {id : Int} {key : Text} (h : pulseKey id = .ok key) :
    key = "MOVP:" ++ Text.ofInt id := by
  unfold pulseKey Numeral.write at h
  split at h
  · cases h
  · exact (Except.ok.inj h).symm

theorem Instruction.pulseKey_inj {id id' : Int} {key : Text} (h : pulseKey id = .ok key)
    (h' : pulseKey id' = .ok key) : id = id' :=
  Text.ofInt_inj (List.append_cancel_left ((pulseKey_eq_ok h).symm.trans (pulseKey_eq_ok h')))

/-- The key of a pulse move is the name of a bit, and so of no counter. -/
theorem Family.ofName_pulse (id : Int) : Family.ofName ("MOVP:" ++ Text.ofInt id) = .bit := by
  have hchomp : ∃ rest, Text.chomp ("MOVP:" ++ Text.ofInt id) = .char 'M' :: rest := by
    show ∃ rest, Text.chomp (.char 'M' :: .char 'O' :: (Text.ofString "VP:" ++ Text.ofInt id)) = _
    rw [Text.chomp]
    split
    · exact ⟨_, List.dropLast_cons_cons⟩
    · exact ⟨_, rfl⟩
  obtain ⟨rest, hchomp⟩ := hchomp
  simp [Family.ofName, isAddress, hchomp]

theorem Family.ofName_pulseKey {id : Int} {key : Text} (h : Instruction.pulseKey id = .ok key) :
    Family.ofName key = .bit := by
  rw [Instruction.pulseKey_eq_ok h]
  exact Family.ofName_pulse id

/-! ## Scans that cannot fail -/

/-- An operand that is no literal with too many digits. -/
def Operand.isShort : Operand → Bool
  | .literal _ digits => digits.length ≤ Numeral.digitLimit
  | _ => true

/-- No operand of an instruction, nor the id of a pulse move, has too many digits. -/
structure Instruction.IsShort (i : Instruction) : Prop where
  names : ∀ token ∈ i.names, (Operand.ofToken token).isShort = true
  id : i.IsCoil [.movePulse] → (Nat.repr i.id.natAbs).length ≤ Numeral.digitLimit

instance (i : Instruction) : Decidable i.IsShort :=
  decidable_of_iff (_ ∧ _) ⟨fun h => ⟨h.1, h.2⟩, fun h => ⟨h.names, h.id⟩⟩

namespace Scan

variable {s : Scan} {i : Instruction}

theorem exists_resolve {token : Text} (h : (Operand.ofToken token).isShort = true) :
    ∃ n, s.resolve token = .ok n := by
  unfold resolve Operand.resolve
  cases ho : Operand.ofToken token with
  | absent => exact ⟨0, rfl⟩
  | literal negative digits =>
    rw [ho] at h
    have hle : ¬Numeral.digitLimit < digits.length := Nat.not_lt.2 (of_decide_eq_true h)
    exact ⟨_, by rw [Operand.value, Numeral.ofLiteral, if_neg hle]⟩
  | register name => exact ⟨_, rfl⟩

theorem exists_contact (position : Position) (b : Bool) :
    ∃ u, s.contact position (.ok b : Except Numeral.Fault Bool) = .ok u := by
  cases position with
  | start => exact ⟨_, rfl⟩
  | series =>
    simp only [contact]
    split <;> exact ⟨_, rfl⟩
  | parallel =>
    simp only [contact]
    split <;> exact ⟨_, rfl⟩

theorem exists_out (name : Text) (n : Int) :
    ∃ u, s.out name (.ok n : Except Numeral.Fault Int) = .ok u := by
  unfold out
  split
  · unfold outTimer
    split <;> exact ⟨_, rfl⟩
  · simp only [outCounter]
    split <;> exact ⟨_, rfl⟩
  · exact ⟨_, rfl⟩

theorem exists_pulseKey {id : Int} (h : (Nat.repr id.natAbs).length ≤ Numeral.digitLimit) :
    ∃ key, Instruction.pulseKey id = .ok key :=
  ⟨_, by rw [Instruction.pulseKey, Numeral.write, if_neg (Nat.not_lt.2 h)]; rfl⟩

section IsShort

variable (h : i.IsShort)

include h

theorem exists_resolve_arg (default : Text) (hd : (Operand.ofToken default).isShort = true) :
    ∃ n, s.resolve (i.arg 1 default) = .ok n := by
  rw [Instruction.arg, List.getD_eq_getElem?_getD]
  cases ha : i.args[1]? with
  | none => exact exists_resolve hd
  | some a => exact exists_resolve (h.names a (List.mem_cons_of_mem i.value (List.mem_of_getElem? ha)))

theorem exists_test (test : Test) : ∃ b, s.test i test = .ok b := by
  cases test with
  | on => exact ⟨_, rfl⟩
  | off => exact ⟨_, rfl⟩
  | equal =>
    obtain ⟨left, hleft⟩ := exists_resolve (s := s) (h.names i.value List.mem_cons_self)
    obtain ⟨right, hright⟩ := exists_resolve_arg (s := s) h ['0'] rfl
    exact ⟨left == right, by rw [test, hleft, hright]; rfl⟩

theorem exists_move : ∃ u, s.move i = .ok u := by
  unfold move
  split
  · next source target rest hargs =>
    obtain ⟨n, hn⟩ := exists_resolve (s := s) (h.names source (by simp [Instruction.names, hargs]))
    exact ⟨_, by rw [hn]; rfl⟩
  · exact ⟨s, rfl⟩

theorem exists_exec : ∃ u, s.exec i = .ok u := by
  unfold exec
  split
  · next position test _ =>
    obtain ⟨b, hb⟩ := exists_test (s := s) h test
    rw [hb]
    exact exists_contact position b
  · exact ⟨_, rfl⟩
  · exact ⟨_, rfl⟩
  · next c ho =>
    cases c with
    | out =>
      obtain ⟨n, hn⟩ := exists_resolve_arg (s := s) h [] rfl
      rw [coil, hn]
      exact exists_out i.value n
    | set => exact ⟨_, rfl⟩
    | reset => exact ⟨_, rfl⟩
    | move =>
      rw [coil]
      split
      · exact exists_move h
      · exact ⟨s, rfl⟩
    | movePulse =>
      obtain ⟨key, hkey⟩ := exists_pulseKey (h.id ⟨.movePulse, List.mem_cons_self, ho⟩)
      simp only [coil, movePulse, hkey, bind, Except.bind]
      split
      · exact exists_move h
      · exact ⟨_, rfl⟩
  · exact ⟨s, rfl⟩

end IsShort

theorem exists_run {program : Program} (h : ∀ i ∈ program, i.IsShort) :
    ∃ u, s.run program = .ok u := by
  induction program generalizing s with
  | nil => exact ⟨s, rfl⟩
  | cons i rest ih =>
    obtain ⟨hi, hrest⟩ := List.forall_mem_cons.1 h
    obtain ⟨u, hu⟩ := exists_exec (s := s) hi
    rw [run, hu]
    exact ih hrest

theorem run_append_of_ok {u : Scan} {program : Program} (h : s.run program = .ok u) (rest : Program) :
    s.run (program ++ rest) = u.run rest := by
  induction program generalizing s with
  | nil =>
    obtain rfl := Except.ok.inj h
    rfl
  | cons i program ih =>
    obtain ⟨t, hi, ht⟩ := exists_exec_of_run h
    rw [List.cons_append, run, hi]
    exact ih ht

theorem SelfContained.branches_eq_nil {u : Scan} {program : Program} (h : s.SelfContained program)
    (hu : s.run program = .ok u) : u.state.branches = [] := by
  induction program generalizing s with
  | nil =>
    obtain rfl := Except.ok.inj hu
    exact h
  | cons i rest ih =>
    obtain ⟨-, -, hrest⟩ := h
    obtain ⟨t, hi, ht⟩ := exists_exec_of_run hu
    rw [hi] at hrest
    exact ih hrest ht

end Scan

/-! ## Two programs -/

/-- The name that an instruction writes: that of a coil, or the target of a move. -/
def Instruction.written? (i : Instruction) : Option Text :=
  match i.operation with
  | .known (.coil .out) | .known (.coil .set) | .known (.coil .reset) => some i.value
  | .known (.coil .move) | .known (.coil .movePulse) => i.args[1]?
  | _ => none

theorem Instruction.written?_coil {i : Instruction} {coils : List Coil} (h : i.IsCoil coils)
    (hc : coils ⊆ [.out, .set, .reset]) : i.written? = some i.value := by
  obtain ⟨c, hmem, ho⟩ := h
  have hcases : c = .out ∨ c = .set ∨ c = .reset := by simpa using hc hmem
  rcases hcases with rfl | rfl | rfl <;> simp only [written?, ho]

theorem Instruction.written?_move {i : Instruction} (h : i.IsCoil [.move, .movePulse]) :
    i.written? = i.args[1]? := by
  obtain ⟨c, hmem, ho⟩ := h
  have hcases : c = .move ∨ c = .movePulse := by simpa using hmem
  rcases hcases with rfl | rfl <;> simp only [written?, ho]

namespace Program

/-- No name that one of two programs writes occurs in the other, and their pulse moves have different
ids. -/
structure Independent (first second : Program) : Prop where
  left : ∀ i ∈ first, ∀ name ∈ i.written?, ∀ j ∈ second, name ∉ j.names
  right : ∀ j ∈ second, ∀ name ∈ j.written?, ∀ i ∈ first, name ∉ i.names
  pulses : ∀ i ∈ first, ∀ j ∈ second, i.IsCoil [.movePulse] → j.IsCoil [.movePulse] → i.id ≠ j.id

variable {first second : Program}

instance : Decidable (Independent first second) :=
  decidable_of_iff (_ ∧ _ ∧ _)
    ⟨fun h => ⟨h.1, h.2.1, h.2.2⟩, fun h => ⟨h.left, h.right, h.pulses⟩⟩

theorem Independent.symm (h : Independent first second) : Independent second first :=
  ⟨h.right, h.left, fun i hi j hj hpi hpj he => h.pulses j hj i hi hpj hpi he.symm⟩

/-- A program names nothing that an independent one writes. -/
theorem Independent.not_names (h : Independent first second) {slot : Slot}
    (hw : first.Writes slot) : ¬second.Names slot := by
  obtain ⟨i, hi, hw⟩ := hw
  rintro ⟨j, hj, hn⟩
  have hcoil {coils : List Coil} (hc : i.IsCoil coils) (hsub : coils ⊆ [.out, .set, .reset]) :
      i.value ∉ j.names :=
    h.left i hi i.value (Instruction.written?_coil hc hsub) j hj
  cases slot with
  | bit name =>
    obtain ⟨hc, rfl⟩ := hw
    exact hcoil hc (by simp) hn
  | register name =>
    rcases hw with ⟨hc, ha⟩ | ⟨hc, rfl, -⟩
    · exact h.left i hi name ((Instruction.written?_move hc).trans ha) j hj hn
    · exact hcoil hc (by simp) hn
  | timer name =>
    obtain ⟨hc, rfl, -⟩ := hw
    exact hcoil hc (by simp) hn
  | counter name =>
    obtain ⟨hc, rfl, -⟩ := hw
    exact hcoil hc (by simp) hn
  | edge name =>
    -- the names of counters and the keys of pulse moves never meet
    have hkey {id : Int} (hk : Instruction.pulseKey id = .ok name) : Family.ofName name ≠ .counter :=
      fun hf => by cases (Family.ofName_pulseKey hk).symm.trans hf
    rcases hw with ⟨hc, rfl, hf⟩ | ⟨hpi, hki⟩ <;> rcases hn with ⟨hn, hf'⟩ | ⟨hpj, hkj⟩
    · exact hcoil hc (by simp) hn
    · exact hkey hkj hf
    · exact hkey hki hf'
    · exact h.pulses i hi j hj hpi hpj (Instruction.pulseKey_inj hki hkj)

/-- After a program that leaves the branch stack as it was, an independent one has the effect that it
would have alone. -/
theorem Independent.run_after (h : Independent first second) {s u v : Scan} (hl : s.logic = [])
    (hu : s.run first = .ok u) (hb : u.state.branches = s.state.branches)
    (hv : s.run second = .ok v) (hc : s.SelfContained second) :
    ∃ e e' : Scan.Effect, u = s.after e ∧ v = s.after e' ∧
      u.run second = .ok (u.after (e'.onto u.logic)) ∧
      (∀ w ∈ e.writes, first.Writes w.slot) ∧ ∀ w ∈ e'.writes, second.Writes w.slot := by
  obtain ⟨e, he, hw⟩ := Scan.exists_after hu
  -- what the first program writes, the second one does not name
  have hagree : Scan.Agree second.Names u.logic s u := by
    refine ⟨fun slot hn => ?_, by rw [hl, List.nil_append], hb.symm, by rw [he, Scan.dt_after]⟩
    have hother : ∀ w ∈ e.writes, w.slot ≠ slot := fun w hm hs => h.not_names (hs ▸ hw w hm) hn
    have hsame := State.sameAt_writeAll s.state hother
    rw [he, Scan.state_after]
    cases slot <;> exact Eq.symm hsame
  rcases hagree.run (.inr hc) (fun _ hn => hn) fun _ hw => hw with
    ⟨fault, hs, -⟩ | ⟨v', u', hs, hu', e', hv', rfl, hw'⟩
  · cases hv.symm.trans hs
  · exact ⟨e, e', he, (Except.ok.inj (hv.symm.trans hs)).trans hv', hu', hw, hw'⟩

/-- Effects that leave the same scan have made the same writes. -/
theorem writeAll_eq_of_after_eq {s : Scan} {e e' : Scan.Effect} (h : s.after e = s.after e') :
    s.state.writeAll e.writes = s.state.writeAll e'.writes := by
  have hstate := congrArg (fun u : Scan => { u.state with branches := s.state.branches }) h
  simpa only [Scan.state_after, ← State.writeAll_branches] using hstate

/-- Run behind each other in either order, two independent programs leave the same state. -/
theorem Independent.run_comm (h : Independent first second) {s u v : Scan} (hl : s.logic = [])
    (hb : s.state.branches = []) (hu : s.run first = .ok u) (hfirst : s.SelfContained first)
    (hv : s.run second = .ok v) (hsecond : s.SelfContained second) :
    ∃ u' v', u.run second = .ok u' ∧ v.run first = .ok v' ∧ u'.commit = v'.commit := by
  have hbu := hfirst.branches_eq_nil hu
  have hbv := hsecond.branches_eq_nil hv
  obtain ⟨e₁, e₂, hu₁, hv₁, hrun₁, -, hw₂⟩ := h.run_after hl hu (hbu.trans hb.symm) hv hsecond
  obtain ⟨e₂', e₁', hv₂, hu₂, hrun₂, -, hw₁⟩ :=
    h.symm.run_after hl hv (hbv.trans hb.symm) hu hfirst
  have hne : ∀ w ∈ e₁'.writes, ∀ w' ∈ e₂.writes, w.slot ≠ w'.slot := fun w hm w' hm' hs => by
    have hwrites : second.Writes w.slot := hs ▸ hw₂ w' hm'
    exact h.not_names (hw₁ w hm) hwrites.names
  -- the same program may have been given two effects, but they make the same writes
  have hwrites : s.state.writeAll (e₁.writes ++ e₂.writes) =
      s.state.writeAll (e₂'.writes ++ e₁'.writes) := by
    calc s.state.writeAll (e₁.writes ++ e₂.writes)
      _ = (s.state.writeAll e₁.writes).writeAll e₂.writes := State.writeAll_append _ _ _
      _ = (s.state.writeAll e₁'.writes).writeAll e₂.writes := by
        rw [writeAll_eq_of_after_eq (hu₁.symm.trans hu₂)]
      _ = (s.state.writeAll e₂.writes).writeAll e₁'.writes := State.writeAll_comm _ hne
      _ = (s.state.writeAll e₂'.writes).writeAll e₁'.writes := by
        rw [writeAll_eq_of_after_eq (hv₁.symm.trans hv₂)]
      _ = s.state.writeAll (e₂'.writes ++ e₁'.writes) := (State.writeAll_append _ _ _).symm
  have hbranches : e₂.branches = e₁'.branches := by
    rw [hv₁] at hbv
    rw [hu₂] at hbu
    exact hbv.trans hbu.symm
  refine ⟨_, _, hrun₁, hrun₂, ?_⟩
  rw [hu₁, hv₂, Scan.after_after, Scan.after_after]
  simp only [Scan.commit, Scan.state_after, Scan.dt_after, Scan.Effect.onto, hbranches]
  rw [hwrites]

/-- **Independent programs commute.** Let two programs each run from a state without taking from an
empty stack and leave the branch stack empty, let neither name what the other one writes, and let no
operand have too many digits. Then a scan of the one behind the other leaves the same state in either
order. -/
theorem scan_append_comm (h : Independent first second) (hshort : ∀ i ∈ first ++ second, i.IsShort)
    (s : State) (dt : Int) (hfirst : (Scan.start s dt).SelfContained first)
    (hsecond : (Scan.start s dt).SelfContained second) :
    ∃ next, (first ++ second).scan s dt = .ok next ∧ (second ++ first).scan s dt = .ok next := by
  obtain ⟨hshort₁, hshort₂⟩ := List.forall_mem_append.1 hshort
  obtain ⟨u, hu⟩ := Scan.exists_run (s := Scan.start s dt) hshort₁
  obtain ⟨v, hv⟩ := Scan.exists_run (s := Scan.start s dt) hshort₂
  obtain ⟨u', v', hu', hv', hcommit⟩ := h.run_comm rfl rfl hu hfirst hv hsecond
  by_cases hnil : first = [] ∧ second = []
  · obtain ⟨rfl, rfl⟩ := hnil
    exact ⟨s, rfl, rfl⟩
  · have hempty : (first ++ second).isEmpty = false ∧ (second ++ first).isEmpty = false := by
      simpa [and_comm] using hnil
    refine ⟨u'.commit, ?_, ?_⟩
    · rw [scan, hempty.1, Scan.run_append_of_ok hu, hu']
      rfl
    · rw [scan, hempty.2, Scan.run_append_of_ok hv, hv', hcommit]
      rfl

/-- Two rungs that read a common input, one with a branch and a pulse move, the other with a timer, a
counter and a reset. -/
theorem scan_append_comm_rungs :
    let first := Listing.parse "LD X0\nMPS\nAND X1\nOUT Y0\nMPP\nMOVP D0 D1\nSET M0"
    let second := Listing.parse
      "LD X0\nLDI X2\nORB\nOUT T0 D5\nOUT C0 K1\nLD= D6 K3\nMOVP K7 D6\nRST D5"
    let s : State := {
      bits := (∅ : Table Bool).insert "X0" true, registers := (∅ : Table Int).insert "D6" 3 }
    Independent first second ∧ (∀ i ∈ first ++ second, i.IsShort) ∧
      (Scan.start s 100).SelfContained first ∧ (Scan.start s 100).SelfContained second ∧
      ∃ next, (first ++ second).scan s 100 = .ok next ∧ (second ++ first).scan s 100 = .ok next := by
  intro first second s
  have h : Independent first second := by decide +kernel
  have hshort : ∀ i ∈ first ++ second, i.IsShort := by decide
  have hfirst : (Scan.start s 100).SelfContained first := by decide
  have hsecond : (Scan.start s 100).SelfContained second := by decide
  exact ⟨h, hshort, hfirst, hsecond, scan_append_comm h hshort s 100 hfirst hsecond⟩

end Program
end LadderLogic
