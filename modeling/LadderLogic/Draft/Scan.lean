import LadderLogic.Draft.Basic
import LadderLogic.Scan

/-!
# Scans of drafts

A draft runs as the instruction that it spells. Contacts and set coils take every key for the name of
a bit, and moves for the name of a register; comparators and the other coils want texts; and every
field is looked at only where it is used.

Main statement: a program runs as the drafts of its instructions do, and so a scan of the one is a scan of
the others (`scan_ofInstruction`), as long as no operation is an opcode's name that counts as unknown.

Source: `step` on instructions with fields of any kind (section 4.2 of the specification).
-/

namespace LadderLogic
namespace Draft

/-- The operand at an index, or `default` if there is none. -/
def arg (d : Draft) (index : Nat) (default : Json) : Json := d.args.getD index default

/-- The value of an operand in a scan. -/
def operand (s : Scan) (token : Json) : Except Json.ConversionError Int :=
  resolve (fun name => .ok (s.register name)) token

/-- What a contact finds. -/
def test (d : Draft) (s : Scan) : Test → Except Json.ConversionError Bool
  | .on => bitOf s.bitAt d.value
  | .off => (bitOf s.bitAt d.value).map (!·)
  | .equal => do
    let left ← operand s d.value
    let right ← operand s (d.arg 1 (.str ['0']))
    return left == right

/-- Moves the first operand to the second, if there are two. -/
def move (d : Draft) (s : Scan) : Except Json.ConversionError Scan :=
  match d.args with
  | source :: target :: _ => do
    let n ← operand s source
    return s.setRegisterAt (← target.key) n
  | _ => .ok s

/-- Moves on a rise of the enable. -/
def movePulse (d : Draft) (s : Scan) : Except Json.ConversionError Scan := do
  let key ← (Instruction.pulseKey d.id).mapError .numeral
  let seen := s.setEdge key s.peek
  if s.rises key s.peek then d.move seen else return seen

/-- Runs a coil. -/
def coil (d : Draft) (s : Scan) : Coil → Except Json.ConversionError Scan
  | .out => do s.out (← d.value.name) (operand s (d.arg 1 (.str [])))
  | .set => if s.peek then d.value.key.map (s.setBitAt · true) else .ok s
  | .reset => if s.peek then d.value.name.map s.reset else .ok s
  | .move => if s.peek then d.move s else .ok s
  | .movePulse => d.movePulse s

/-- Runs a draft. One whose operation is unknown does nothing. -/
def exec (d : Draft) (s : Scan) : Except Json.ConversionError Scan := do
  match ← d.operation with
  | .known (.contact position t) => s.contact position (d.test s t)
  | .known (.block join) => return s.block join
  | .known (.branch b) => return s.branch b
  | .known (.coil c) => d.coil s c
  | .unknown _ => return s

/-! ## Drafts of instructions -/

theorem operation_ofInstruction {i : Instruction} (h : Operation.ofName i.operation.name = i.operation) :
    (ofInstruction i).operation = .ok i.operation := by
  show Except.ok (Operation.ofName i.operation.name) = _
  rw [h]

theorem operand_str (s : Scan) (token : Text) :
    operand s (.str token) = (s.resolve token).mapError .numeral := by
  simp only [operand, resolve, Scan.resolve, Operand.resolve]
  cases Operand.ofToken token <;> rfl

theorem arg_ofInstruction (i : Instruction) (index : Nat) (default : Text) :
    (ofInstruction i).arg index (.str default) = .str (i.arg index default) := by
  simp [arg, ofInstruction, Instruction.arg, List.getD]

theorem test_ofInstruction (i : Instruction) (s : Scan) (t : Test) :
    (ofInstruction i).test s t = (s.test i t).mapError .numeral := by
  cases t with
  | on => rfl
  | off => rfl
  | equal =>
    have hl : operand s (ofInstruction i).value = _ := operand_str s i.value
    have hr := operand_str s (i.arg 1 ['0'])
    simp only [test, Scan.test, arg_ofInstruction, hl, hr]
    cases s.resolve i.value with
    | error e => rfl
    | ok left => cases s.resolve (i.arg 1 ['0']) <;> rfl

theorem move_ofInstruction (i : Instruction) (s : Scan) :
    (ofInstruction i).move s = (s.move i).mapError .numeral := by
  rcases i with ⟨id, operation, value, _ | ⟨source, _ | ⟨target, rest⟩⟩⟩
  · rfl
  · rfl
  · have h := operand_str s source
    simp only [move, Scan.move, ofInstruction, List.map_cons, h]
    cases s.resolve source <;> rfl

theorem movePulse_ofInstruction (i : Instruction) (s : Scan) :
    (ofInstruction i).movePulse s = (s.movePulse i).mapError .numeral := by
  have hid : (ofInstruction i).id = i.id := rfl
  simp only [movePulse, Scan.movePulse, hid]
  cases Instruction.pulseKey i.id with
  | error e => rfl
  | ok key =>
    show (if s.rises key s.peek then (ofInstruction i).move _ else _) =
      Except.mapError _ (if s.rises key s.peek then _ else _)
    split
    · exact move_ofInstruction i _
    · rfl

theorem coil_ofInstruction (i : Instruction) (s : Scan) (c : Coil) :
    (ofInstruction i).coil s c = (s.coil i c).mapError .numeral := by
  cases c with
  | out =>
    have h := operand_str s (i.arg 1 [])
    show s.out i.value (operand s ((ofInstruction i).arg 1 (.str []))) = _
    rw [arg_ofInstruction, h, Scan.coil]
    exact Scan.out_mapError s i.value (s.resolve (i.arg 1 [])) Json.ConversionError.numeral
  | set => simp only [coil, Scan.coil]; split <;> rfl
  | reset => simp only [coil, Scan.coil]; split <;> rfl
  | move =>
    simp only [coil, Scan.coil]
    split
    · exact move_ofInstruction i s
    · rfl
  | movePulse => exact movePulse_ofInstruction i s

/-- The draft of an instruction runs as the instruction. -/
theorem exec_ofInstruction (i : Instruction) (s : Scan)
    (h : Operation.ofName i.operation.name = i.operation) :
    (ofInstruction i).exec s = (s.exec i).mapError .numeral := by
  unfold exec Scan.exec
  rw [operation_ofInstruction h]
  show (match i.operation with | _ => _) = _
  match i.operation with
  | .known (.contact position t) =>
    show s.contact position ((ofInstruction i).test s t) = _
    rw [test_ofInstruction]
    exact Scan.contact_mapError s position (s.test i t) Json.ConversionError.numeral
  | .known (.block _) => rfl
  | .known (.branch _) => rfl
  | .known (.coil c) => exact coil_ofInstruction i s c
  | .unknown _ => rfl

/-! ## Scans -/

/-- Runs drafts in order. -/
def run (s : Scan) : List Draft → Except Json.ConversionError Scan
  | [] => .ok s
  | d :: rest =>
    match d.exec s with
    | .ok next => run next rest
    | .error e => .error e

/-- Scans a state once. No drafts leave the state as it is, and count no scan. -/
def scan (drafts : List Draft) (s : State) (dt : Int) : Except Json.ConversionError State :=
  if drafts.isEmpty then .ok s else (run (Scan.start s dt) drafts).map Scan.commit

section Programs

variable {program : Program} (h : ∀ i ∈ program, Operation.ofName i.operation.name = i.operation)

include h

/-- The drafts of a program run as the program. -/
theorem run_ofInstruction (s : Scan) :
    run s (program.map ofInstruction) = (s.run program).mapError .numeral := by
  induction program generalizing s with
  | nil => rfl
  | cons i rest ih =>
    obtain ⟨hi, hrest⟩ := List.forall_mem_cons.1 h
    rw [List.map_cons, run, exec_ofInstruction i s hi, Scan.run]
    cases s.exec i with
    | error fault => rfl
    | ok next => exact ih hrest next

/-- A scan of the drafts of a program is a scan of the program. -/
theorem scan_ofInstruction (s : State) (dt : Int) :
    scan (program.map ofInstruction) s dt = (program.scan s dt).mapError .numeral := by
  rw [scan, Program.scan, run_ofInstruction h, List.isEmpty_map]
  split
  · rfl
  · cases (Scan.start s dt).run program <;> rfl

end Programs

end Draft
end LadderLogic
