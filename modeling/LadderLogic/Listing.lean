import LadderLogic.Instruction
import LadderLogic.Text.Blank
import LadderLogic.Text.Lines

/-!
# Listings

The text of a program, one instruction a line. The first word that names an opcode makes the
instruction, so that step numbers may stand in front of it; the words behind it are its operands, up
to one that starts a comment. `LD=` and `LD =` name the comparator at the start, and so on for `AND`
and `OR`. A line without an opcode, and one that starts with `//`, `;` or `*`, holds no instruction.

Source: `parse_line`, `parse_mnemonic`, `format_instruction` and `format_mnemonic` (section 6 of the
specification).
-/

namespace LadderLogic
namespace Listing

/-- Whether a word starts a comment behind an instruction. -/
def startsComment (word : Text) : Bool :=
  (['/', '/'] : Text).isPrefixOf word || ([';'] : Text).isPrefixOf word

/-- Whether a word at the start of a line makes the line a comment. -/
def startsCommentLine (word : Text) : Bool :=
  startsComment word || (['*'] : Text).isPrefixOf word

/-- The comparator at the place of a contact that tests a bit for on. -/
def comparator? : Opcode → Option Opcode
  | .contact position .on => some (.contact position .equal)
  | _ => none

/-- The opcode that a word names. A word of two characters at least that ends with `=` can only name
a comparator. -/
def opcode? (word : Text) : Option Opcode :=
  let word := Text.capitals word
  if word.getLast? = some (.char '=') && 1 < word.length then
    (Opcode.ofName? word.dropLast).bind comparator?
  else Opcode.ofName? word

/-- The first opcode among the words of a line, and the words behind it. -/
def findOpcode : List Text → Option (Opcode × List Text)
  | [] => none
  | word :: rest =>
    match opcode? word with
    | some c => some (c, rest)
    | none => findOpcode rest

/-- Takes a single `=` behind an opcode that has a comparator. -/
def joinEqual (c : Opcode) (rest : List Text) : Opcode × List Text :=
  match rest, comparator? c with
  | [.char '='] :: rest, some e => (e, rest)
  | _, _ => (c, rest)

/-- The operands among the words behind an opcode. -/
def operands (words : List Text) : List Text := words.takeWhile (! startsComment ·)

/-- The instruction with an opcode and its operands, the first of which is its value. -/
def instruction (id : Int) (c : Opcode) (args : List Text) : Instruction :=
  { id, operation := .known c, value := args.headD [], args }

/-- The instruction on a line with the given words. -/
def ofWords (id : Int) (words : List Text) : Option Instruction :=
  if startsCommentLine (words.headD []) then none
  else (findOpcode words).map fun (c, rest) =>
    let (c, rest) := joinEqual c rest
    instruction id c (operands rest)

/-- Reads one line. -/
def parseLine (id : Int) (line : Text) : Option Instruction :=
  ofWords id (Text.words line)

/-- Reads the lines of a listing. The instructions are numbered from `id` on. -/
def parseLines (id : Int) : List Text → Program
  | [] => []
  | line :: rest =>
    match parseLine id line with
    | some i => i :: parseLines (id + 1) rest
    | none => parseLines id rest

/-- Reads a listing. -/
def parse (text : Text) : Program :=
  parseLines 1 (Text.lines text)

/-- The name of an operation in a listing. -/
def operationName : Operation → Text
  | .known (.contact .start .equal) => ['L', 'D', '=']
  | .known (.contact .series .equal) => ['A', 'N', 'D', '=']
  | .known (.contact .parallel .equal) => ['O', 'R', '=']
  | .known c => c.name
  | .unknown name => name

/-- The line with a name and operands: a blank stands in front of each operand. -/
def lineOf (name : Text) (operands : List Text) : Text :=
  name ++ operands.flatMap fun s => .char ' ' :: s

/-- The operands that are written: all of them, or the value if there are none. -/
def writtenOperands (i : Instruction) : List Text :=
  if i.args ≠ [] then i.args else if i.value ≠ [] then [i.value] else []

/-- The line of an instruction. -/
def writeLine (i : Instruction) : Text := lineOf (operationName i.operation) (writtenOperands i)

/-- Lines with a line feed behind each. -/
def joinLines (lines : List Text) : Text := lines.flatMap (· ++ [.char '\n'])

/-- Writes a listing. -/
def format (program : Program) : Text := joinLines (program.map writeLine)

end Listing
end LadderLogic
