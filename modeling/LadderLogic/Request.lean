import LadderLogic.Scan

/-!
# Requests

What can be asked of a scan in progress, one request at a time: to push and pop truths, to read and
write devices, and to hand out the state that the scan has come to, which does not end it. Devices may
stand under any keys.

The values that a scan holds are of the right kind as long as they come from a state. Those that come
from elsewhere may be of any kind, and are understood only when they are read (`Values`). Requests do
the same in both.

Source: the methods of `ScanContext` (section 2 of the specification).
-/

namespace LadderLogic
namespace Scan

/-- What can be asked of a scan in progress. What is written to timers and counters is of type `ν`. -/
inductive Request (ν : Type := Int) where
  | push (b : Bool)
  | pop
  | peek
  | bit (k : Key)
  | setBit (k : Key) (b : Bool)
  | register (k : Key)
  | registers
  | setRegister (k : Key) (n : Int)
  | timer (k : Key)
  | setTimer (k : Key) (n : ν)
  | counter (k : Key)
  | setCounter (k : Key) (n : ν)
  /-- Asks whether an enable rises, and remembers it. -/
  | rise (k : Key) (enable : Bool)
  | clearEdge (k : Key)
  | pushBranch (b : Bool)
  | commit

/-- What a request is answered with. -/
inductive Answer (β : Type := Bool) (ν : Type := Int) where
  | done
  | truth (b : Bool)
  | number (n : ν)
  | bank (b : Bank ν)
  | state (s : State β ν)

end Scan

/-- How the values that a scan holds are understood: the truth of what is found, truths and integers as
they are written, and the milliseconds of the scan. -/
structure Values (β ν τ : Type) where
  truth : Option β → Bool
  ofBool : Bool → β
  ofInt : Int → ν
  span : τ → Except Json.ConversionError Int

/-- Values of the right kind. -/
def Values.plain : Values Bool Int Int where
  truth found := found.getD false
  ofBool b := b
  ofInt n := n
  span dt := .ok dt

namespace Scan

variable {β ν τ : Type}

/-- Does what is asked. -/
def perform (v : Values β ν τ) (s : Scan β ν τ) :
    Request ν → Except Json.ConversionError (Answer β ν) × Scan β ν τ
  | .push b => (.ok .done, s.push b)
  | .pop => (.ok (.truth s.peek), s.drop)
  | .peek => (.ok (.truth s.peek), s)
  | .bit k => (.ok (.truth (v.truth (s.bits.read? k))), s)
  | .setBit k b => (.ok .done, s.setBitAt k (v.ofBool b))
  | .register k => (.ok (.number ((s.registers.read? k).getD (v.ofInt 0))), s)
  | .registers => (.ok (.bank s.registers.view), s)
  | .setRegister k n => (.ok .done, s.setRegisterAt k (v.ofInt n))
  | .timer k => (.ok (.number ((s.timers.read? k).getD (v.ofInt 0))), s)
  | .setTimer k n => (.ok .done, s.setTimerAt k n)
  | .counter k => (.ok (.number ((s.counters.read? k).getD (v.ofInt 0))), s)
  | .setCounter k n => (.ok .done, s.setCounterAt k n)
  | .rise k enable =>
    (.ok (.truth (enable && !v.truth (s.edges.read? k))), s.setEdgeAt k (v.ofBool enable))
  | .clearEdge k => (.ok .done, s.setEdgeAt k (v.ofBool false))
  | .pushBranch b => (.ok .done, s.pushBranch (v.ofBool b))
  | .commit => ((v.span s.dt).map fun dt => .state (s.state.nextScan dt), s)

/-- The scan after some requests. -/
def performAll (v : Values β ν τ) (s : Scan β ν τ) (requests : List (Request ν)) : Scan β ν τ :=
  requests.foldl (fun s r => (s.perform v r).2) s

/-- What a scan of a program reads and writes is what requests read and write. -/
theorem perform_plain (s : Scan) (k : Key) (name : Text) (enable : Bool) :
    s.perform .plain (.bit k) = (.ok (.truth (s.bitAt k)), s) ∧
      s.perform .plain (.register (.name name)) = (.ok (.number (s.register name)), s) ∧
      s.perform .plain (.timer k) = (.ok (.number (s.timerAt k)), s) ∧
      s.perform .plain (.counter k) = (.ok (.number (s.counterAt k)), s) ∧
      s.perform .plain (.rise k enable) =
        (.ok (.truth (s.risesAt k enable)), s.setEdgeAt k enable) ∧
      s.perform .plain .commit = (.ok (.state s.commit), s) :=
  ⟨rfl, rfl, rfl, rfl, rfl, rfl⟩

end Scan
end LadderLogic
