import LadderLogic.Request
import Mathlib.Data.List.Induction

/-!
# Reads and commits of a scan in progress

A scan in progress is asked to read and to write devices, to push and pop truths, and to hand out the
state that it has come to. Every write goes to two banks, one that reads look into and one that is handed
out, and each of them is said on its own here, after any requests: what reads look into holds the last
write under each key and nothing else, and what is handed out holds the last write under each key and
else what was there from the start (`get?_putAll`). So reads and commits never drift apart, whatever is
asked in between, also after other commits (`answers_performAll`).

Source: `ScanContext` (section 2 of the specification).
-/

namespace LadderLogic

/-! ## Last writes -/

section LastWrites

variable {α : Type}

/-- The last value that was written under a key. -/
def lastUnder? (ws : List (Key × α)) (k : Key) : Option α :=
  (ws.reverse.find? fun w => w.1.same k).map Prod.snd

theorem lastUnder?_concat (ws : List (Key × α)) (w : Key × α) (k : Key) :
    lastUnder? (ws ++ [w]) k = if w.1.same k then some w.2 else lastUnder? ws k := by
  rw [lastUnder?, List.reverse_concat, List.find?_cons]
  cases w.1.same k <;> rfl

namespace Bank

/-- What is to be found under a key in a bank with some writes laid over it: the last write there, or
else what the bank has. -/
def overlaid? (b : Bank α) (ws : List (Key × α)) (k : Key) : Option α :=
  (lastUnder? ws k).or (b.get? k)

/-- Puts some values under keys, one after the other. -/
def putAll (b : Bank α) (ws : List (Key × α)) : Bank α := ws.foldl (fun b w => b.put w.1 w.2) b

theorem get?_putAll (b : Bank α) (ws : List (Key × α)) (k : Key) :
    (b.putAll ws).get? k = b.overlaid? ws k := by
  induction ws using List.reverseRecOn with
  | nil => rfl
  | append_singleton ws w ih =>
    have hlast : b.putAll (ws ++ [w]) = (b.putAll ws).put w.1 w.2 := List.foldl_append
    rw [hlast, get?_put, ih, overlaid?, overlaid?, lastUnder?_concat]
    split <;> rfl

end Bank

namespace Ledger

/-- Writes some values under keys, one after the other. -/
def writeAll (l : Ledger α) (ws : List (Key × α)) : Ledger α :=
  ws.foldl (fun l w => l.write w.1 w.2) l

/-- What was found stays, and every write goes to both of the other banks. -/
theorem banks_writeAll (l : Ledger α) (ws : List (Key × α)) :
    (l.writeAll ws).base = l.base ∧ (l.writeAll ws).pending = l.pending.putAll ws ∧
      (l.writeAll ws).updated = l.updated.putAll ws := by
  induction ws generalizing l with
  | nil => exact ⟨rfl, rfl, rfl⟩
  | cons w ws ih => exact ih (l.write w.1 w.2)

/-- What a read finds, looking into the bank of pending writes and then into the one that was found. -/
theorem read?_writeAll_opened (b : Bank α) (ws : List (Key × α)) (k : Key) :
    ((opened b).writeAll ws).read? k = b.overlaid? ws k := by
  obtain ⟨hbase, hpending, -⟩ := banks_writeAll (opened b) ws
  have hfresh : (opened b).pending = {} := rfl
  rw [read?, hbase, hpending, Bank.get?_putAll, Bank.overlaid?, hfresh, Bank.get?_empty, Option.or_none]
  rfl

/-- What is handed out. -/
theorem get?_updated_writeAll_opened (b : Bank α) (ws : List (Key × α)) (k : Key) :
    ((opened b).writeAll ws).updated.get? k = b.overlaid? ws k := by
  obtain ⟨-, -, hupdated⟩ := banks_writeAll (opened b) ws
  rw [hupdated, Bank.get?_putAll]
  rfl

end Ledger

end LastWrites

/-! ## What requests come to -/

namespace Scan.Request

variable {β ν τ : Type} (v : Values β ν τ)

/-- The bit that a request writes. -/
def bit? : Request ν → Option (Key × β)
  | .setBit k b => some (k, v.ofBool b)
  | _ => none

/-- The register that a request writes. -/
def register? : Request ν → Option (Key × ν)
  | .setRegister k n => some (k, v.ofInt n)
  | _ => none

/-- The timer that a request writes. -/
def timer? : Request ν → Option (Key × ν)
  | .setTimer k n => some (k, n)
  | _ => none

/-- The counter that a request writes. -/
def counter? : Request ν → Option (Key × ν)
  | .setCounter k n => some (k, n)
  | _ => none

/-- The enable that a request makes remember. -/
def edge? : Request ν → Option (Key × β)
  | .rise k enable => some (k, v.ofBool enable)
  | .clearEdge k => some (k, v.ofBool false)
  | _ => none

/-- The truth that a request pushes on the branch stack. -/
def branch? : Request ν → Option β
  | .pushBranch b => some (v.ofBool b)
  | _ => none

/-- What a request makes of the logic stack. -/
def onLogic (logic : List Bool) : Request ν → List Bool
  | .push b => b :: logic
  | .pop => logic.tail
  | _ => logic

end Scan.Request

namespace Scan

variable {β ν τ : Type} (v : Values β ν τ)

/-- The logic stack after some requests, with its top first. -/
def logicOf (requests : List (Request ν)) : List Bool := requests.foldl Request.onLogic []

/-- The branch stack after some requests, with its top first. -/
def branchesOf (requests : List (Request ν)) : List β := requests.reverse.filterMap (Request.branch? v)

/-- One request makes its write, and pushes and pops its truths. -/
theorem perform_snd (s : Scan β ν τ) (r : Request ν) :
    (s.perform v r).2 =
      { origin := s.origin
        bits := s.bits.writeAll (r.bit? v).toList
        registers := s.registers.writeAll (r.register? v).toList
        timers := s.timers.writeAll r.timer?.toList
        counters := s.counters.writeAll r.counter?.toList
        edges := s.edges.writeAll (r.edge? v).toList
        branches := (r.branch? v).toList ++ s.branches
        logic := r.onLogic s.logic
        dt := s.dt } := by
  cases r <;> rfl

/-- Some requests make their writes one after the other, in each ledger on its own. -/
theorem performAll_eq (s : Scan β ν τ) (requests : List (Request ν)) :
    s.performAll v requests =
      { origin := s.origin
        bits := s.bits.writeAll (requests.filterMap (Request.bit? v))
        registers := s.registers.writeAll (requests.filterMap (Request.register? v))
        timers := s.timers.writeAll (requests.filterMap Request.timer?)
        counters := s.counters.writeAll (requests.filterMap Request.counter?)
        edges := s.edges.writeAll (requests.filterMap (Request.edge? v))
        branches := branchesOf v requests ++ s.branches
        logic := requests.foldl Request.onLogic s.logic
        dt := s.dt } := by
  induction requests generalizing s with
  | nil => rfl
  | cons r requests ih =>
    have hwrites {α : Type} (l : Ledger α) (f : Request ν → Option (Key × α)) :
        (l.writeAll (f r).toList).writeAll (requests.filterMap f) =
          l.writeAll ((r :: requests).filterMap f) := by
      cases h : f r <;> simp [Ledger.writeAll, h]
    have hbranches : branchesOf v (r :: requests) = branchesOf v requests ++ (r.branch? v).toList := by
      cases h : r.branch? v <;> simp [branchesOf, h]
    have hnext : s.performAll v (r :: requests) = (s.perform v r).2.performAll v requests := rfl
    rw [hnext, ih, perform_snd]
    simp only [hwrites, hbranches, List.append_assoc, List.foldl_cons]

/-! ## Answers -/

/-- A state is what a scan in progress commits after some requests: the state of its start with their
writes laid over it and their branch stack, one scan further. -/
structure Commits (s : State β ν) (dt : Int) (requests : List (Request ν)) (t : State β ν) : Prop where
  bits (k : Key) : t.bitBank.get? k = s.bitBank.overlaid? (requests.filterMap (Request.bit? v)) k
  registers (k : Key) :
    t.registerBank.get? k = s.registerBank.overlaid? (requests.filterMap (Request.register? v)) k
  timers (k : Key) : t.timerBank.get? k = s.timerBank.overlaid? (requests.filterMap Request.timer?) k
  counters (k : Key) :
    t.counterBank.get? k = s.counterBank.overlaid? (requests.filterMap Request.counter?) k
  edges (k : Key) : t.edgeBank.get? k = s.edgeBank.overlaid? (requests.filterMap (Request.edge? v)) k
  branches : t.branches = branchesOf v requests
  scans : t.scans = s.scans + 1
  elapsed : t.elapsed = s.elapsed + dt

/-- What a request is to be answered with in a scan that was started from a state, after some other
requests. -/
def Answers (s : State β ν) (dt : τ) (requests : List (Request ν))
    (a : Except Json.ConversionError (Answer β ν)) : Request ν → Prop
  | .push _ | .setBit .. | .setRegister .. | .setTimer .. | .setCounter .. | .clearEdge _
  | .pushBranch _ => a = .ok .done
  | .pop | .peek => a = .ok (.truth ((logicOf requests).headD false))
  | .bit k => a = .ok (.truth (v.truth (s.bitBank.overlaid? (requests.filterMap (Request.bit? v)) k)))
  | .register k =>
    a = .ok (.number
      ((s.registerBank.overlaid? (requests.filterMap (Request.register? v)) k).getD (v.ofInt 0)))
  | .registers =>
    ∃ b, a = .ok (.bank b) ∧
      ∀ k, b.get? k = s.registerBank.overlaid? (requests.filterMap (Request.register? v)) k
  | .timer k =>
    a = .ok (.number ((s.timerBank.overlaid? (requests.filterMap Request.timer?) k).getD (v.ofInt 0)))
  | .counter k =>
    a = .ok (.number ((s.counterBank.overlaid? (requests.filterMap Request.counter?) k).getD (v.ofInt 0)))
  | .rise k enable =>
    a = .ok (.truth
      (enable && !v.truth (s.edgeBank.overlaid? (requests.filterMap (Request.edge? v)) k)))
  | .commit =>
    match v.span dt with
    | .ok n => ∃ t, a = .ok (.state t) ∧ Commits v s n requests t
    | .error e => a = .error e

/-- **Reads and commits agree.** Let any requests be made of a scan that was started from a state, commits
among them. A request then reads what was last written under its key, or else what the state has there, or
else the value of a place that has no entry. A commit hands out the state with all writes so far laid over
it, the branch stack as it is then, one scan and its time further, however many commits came before; it
fails only if the time of the scan is none. The state of the start is as it was. -/
theorem answers_performAll (s : State β ν) (dt : τ) (requests : List (Request ν)) (r : Request ν) :
    Answers v s dt requests (((start s dt).performAll v requests).perform v r).1 r ∧
      ((start s dt).performAll v requests).origin = s := by
  rw [performAll_eq]
  refine ⟨?_, rfl⟩
  cases r with
  | push _ | pop | peek | setBit _ _ | setRegister _ _ | setTimer _ _ | setCounter _ _ | clearEdge _
  | pushBranch _ => rfl
  | bit k | register k | timer k | counter k | rise k enable =>
    simp only [perform, start, Answers, Ledger.read?_writeAll_opened]
  | registers =>
    refine ⟨_, rfl, fun k => ?_⟩
    rw [Ledger.get?_view]
    exact Ledger.read?_writeAll_opened s.registerBank _ k
  | commit =>
    simp only [perform, Answers, start]
    cases v.span dt with
    | error e => rfl
    | ok n =>
      exact ⟨_, rfl, Ledger.get?_updated_writeAll_opened s.bitBank _,
        Ledger.get?_updated_writeAll_opened s.registerBank _,
        Ledger.get?_updated_writeAll_opened s.timerBank _,
        Ledger.get?_updated_writeAll_opened s.counterBank _,
        Ledger.get?_updated_writeAll_opened s.edgeBank _, List.append_nil _, rfl, rfl⟩

end Scan
end LadderLogic
