import LadderLogic.Text.Capital

/-!
# Opcodes

The opcodes of the instruction list. A contact stands at the start of a block, in series with what
is there, or in parallel to it, and tests a bit for on, a bit for off, or two operands for equality.
Blocks are joined, branches are pushed, read and popped, and a coil acts on what the contacts in
front of it let through.

Source: `Opcode`, its category sets and `Opcode.parse` (section 3 of the specification).
-/

namespace LadderLogic

/-- Where a contact stands. -/
inductive Position where
  | start
  | series
  | parallel
  deriving DecidableEq, Repr

/-- What a contact tests. -/
inductive Test where
  | on
  | off
  | equal
  deriving DecidableEq, Repr

/-- How two blocks are joined. -/
inductive Join where
  | parallel
  | series
  deriving DecidableEq, Repr

/-- What is done with the branch stack. -/
inductive Branch where
  | push
  | read
  | pop
  deriving DecidableEq, Repr

/-- What a coil does. -/
inductive Coil where
  | out
  | set
  | reset
  | move
  | movePulse
  deriving DecidableEq, Repr

/-- An opcode. -/
inductive Opcode where
  | contact (position : Position) (test : Test)
  | block (join : Join)
  | branch (branch : Branch)
  | coil (coil : Coil)
  deriving DecidableEq, Repr

namespace Opcode

/-- The name of an opcode. -/
def name : Opcode → Text
  | .contact .start .on => ['L', 'D']
  | .contact .start .off => ['L', 'D', 'I']
  | .contact .start .equal => ['L', 'D', '_', 'E', 'Q']
  | .contact .series .on => ['A', 'N', 'D']
  | .contact .series .off => ['A', 'N', 'I']
  | .contact .series .equal => ['A', 'N', 'D', '_', 'E', 'Q']
  | .contact .parallel .on => ['O', 'R']
  | .contact .parallel .off => ['O', 'R', 'I']
  | .contact .parallel .equal => ['O', 'R', '_', 'E', 'Q']
  | .block .parallel => ['O', 'R', 'B']
  | .block .series => ['A', 'N', 'B']
  | .branch .push => ['M', 'P', 'S']
  | .branch .read => ['M', 'R', 'D']
  | .branch .pop => ['M', 'P', 'P']
  | .coil .out => ['O', 'U', 'T']
  | .coil .set => ['S', 'E', 'T']
  | .coil .reset => ['R', 'S', 'T']
  | .coil .move => ['M', 'O', 'V']
  | .coil .movePulse => ['M', 'O', 'V', 'P']

/-- All opcodes. -/
def all : List Opcode :=
  [.contact .start .on, .contact .start .off, .contact .start .equal, .contact .series .on,
    .contact .series .off, .contact .series .equal, .contact .parallel .on, .contact .parallel .off,
    .contact .parallel .equal, .block .parallel, .block .series, .branch .push, .branch .read,
    .branch .pop, .coil .out, .coil .set, .coil .reset, .coil .move, .coil .movePulse]

/-- The opcode with exactly this name. -/
def ofName? (name : Text) : Option Opcode := all.find? (·.name == name)

/-- The opcode with this name in capitals. -/
def parse? (name : Text) : Option Opcode := ofName? (Text.capitals name)

theorem mem_all (c : Opcode) : c ∈ all := by
  rcases c with ⟨p, t⟩ | j | b | k
  · cases p <;> cases t <;> decide
  · cases j <;> decide
  · cases b <;> decide
  · cases k <;> decide

/-- An opcode is known by its name. -/
@[simp]
theorem ofName?_name (c : Opcode) : ofName? c.name = some c := by
  rcases c with ⟨p, t⟩ | j | b | k
  · cases p <;> cases t <;> rfl
  · cases j <;> rfl
  · cases b <;> rfl
  · cases k <;> rfl

theorem name_of_ofName? {s : Text} {c : Opcode} (h : ofName? s = some c) : c.name = s := by
  simpa using List.find?_some h

/-- The categories of opcodes. -/
inductive Category where
  | start
  | parallel
  | coil
  | series
  | block
  | stack
  | comparator
  | normallyOpen
  | normallyClosed
  deriving DecidableEq, Repr

/-- The categories, in order. -/
def Category.all : List Category :=
  [.start, .parallel, .coil, .series, .block, .stack, .comparator, .normallyOpen, .normallyClosed]

/-- Whether an opcode belongs to a category. Coils stand in series. -/
def isIn : Opcode → Category → Bool
  | .contact .start _, .start => true
  | .contact .parallel _, .parallel => true
  | .contact .series _, .series => true
  | .contact _ .equal, .comparator => true
  | .contact _ .on, .normallyOpen => true
  | .contact _ .off, .normallyClosed => true
  | .coil _, .coil => true
  | .coil _, .series => true
  | .block _, .block => true
  | .branch _, .stack => true
  | _, _ => false

/-- The categories that an opcode belongs to, in order. -/
def categories (c : Opcode) : List Category := Category.all.filter c.isIn

end Opcode
end LadderLogic
