import LadderLogic.Json.Basic
import LadderLogic.Number.Numeral
import LadderLogic.Number.Shortest
import LadderLogic.Text.Hex

/-!
# Writing JSON text

Texts are written in ASCII: a code point outside the printable ASCII characters is an escape, and one
beyond U+FFFF a surrogate pair of two. `pretty` puts every item on a line of its own, indented by two
blanks for each level; `compact` writes one line.

Source: the writing of text in `save_project` (section 6 of the specification).
-/

namespace LadderLogic
namespace Json

namespace Writer

/-- An escape with a code of four hexadecimal digits. -/
def codeEscape (n : Nat) : Text := '\\' :: 'u' :: Text.hexDigits 4 n

/-- A code point of a string. -/
def writtenPoint (p : CodePoint) : Text :=
  if p = .char '"' then ['\\', '"']
  else if p = .char '\\' then ['\\', '\\']
  else if p = .char '\n' then ['\\', 'n']
  else if p = .char '\r' then ['\\', 'r']
  else if p = .char '\t' then ['\\', 't']
  else if p = .char '\x0c' then ['\\', 'f']
  else if p = .char '\x08' then ['\\', 'b']
  else if 32 ≤ p.toNat && p.toNat ≤ 126 then [p]
  else if p.toNat < 0x10000 then codeEscape p.toNat
  else
    let n := p.toNat - 0x10000
    codeEscape (0xD800 + n / 1024) ++ codeEscape (0xDC00 + n % 1024)

/-- A string with its quotes. -/
def writtenString (s : Text) : Text := '"' :: (s.flatMap writtenPoint ++ [.char '"'])

/-- The name of a truth. -/
def writtenBool (b : Bool) : Text := if b then ['t', 'r', 'u', 'e'] else ['f', 'a', 'l', 's', 'e']

/-- A number that is no integer. -/
def writtenReal : Binary64 → Text
  | .nan => ['N', 'a', 'N']
  | .infinite false => ['I', 'n', 'f', 'i', 'n', 'i', 't', 'y']
  | .infinite true => ['-', 'I', 'n', 'f', 'i', 'n', 'i', 't', 'y']
  | x => x.text

/-- The start of a new line at a level. -/
def newLine (level : Nat) : Text := '\n' :: List.replicate (2 * level) (.char ' ')

mutual

/-- A value on lines of its own, the first of which stands at `level`. -/
def prettyAt (level : Nat) : Json → Except Numeral.Fault Text
  | .null => .ok ['n', 'u', 'l', 'l']
  | .bool b => .ok (writtenBool b)
  | .int n => Numeral.write n
  | .real x => .ok (writtenReal x)
  | .str s => .ok (writtenString s)
  | .arr [] => .ok ['[', ']']
  | .arr (v :: vs) =>
    match prettyAt (level + 1) v, prettyItems (level + 1) vs with
    | .ok t, .ok ts => .ok ('[' :: (newLine (level + 1) ++ t ++ ts ++ newLine level ++ [.char ']']))
    | .error e, _ => .error e
    | _, .error e => .error e
  | .obj [] => .ok ['\x7b', '\x7d']
  | .obj ((name, v) :: fields) =>
    match prettyAt (level + 1) v, prettyFields (level + 1) fields with
    | .ok t, .ok ts =>
      .ok ('\x7b' :: (newLine (level + 1) ++ writtenString name ++ .char ':' :: .char ' ' :: t ++ ts ++
        newLine level ++ [.char '\x7d']))
    | .error e, _ => .error e
    | _, .error e => .error e

/-- The items of an array behind the first. -/
def prettyItems (level : Nat) : List Json → Except Numeral.Fault Text
  | [] => .ok []
  | v :: vs =>
    match prettyAt level v, prettyItems level vs with
    | .ok t, .ok ts => .ok (',' :: (newLine level ++ t ++ ts))
    | .error e, _ => .error e
    | _, .error e => .error e

/-- The fields of an object behind the first. -/
def prettyFields (level : Nat) : List (Text × Json) → Except Numeral.Fault Text
  | [] => .ok []
  | (name, v) :: fields =>
    match prettyAt level v, prettyFields level fields with
    | .ok t, .ok ts =>
      .ok (',' :: (newLine level ++ writtenString name ++ .char ':' :: .char ' ' :: t ++ ts))
    | .error e, _ => .error e
    | _, .error e => .error e

end

mutual

/-- A value on one line. -/
def written : Json → Text
  | .null => ['n', 'u', 'l', 'l']
  | .bool b => writtenBool b
  | .int n => .ofInt n
  | .real x => writtenReal x
  | .str s => writtenString s
  | .arr [] => ['[', ']']
  | .arr (v :: vs) => '[' :: (written v ++ writtenItems vs ++ [.char ']'])
  | .obj [] => ['\x7b', '\x7d']
  | .obj ((name, v) :: fields) =>
    '\x7b' :: (writtenString name ++ .char ':' :: .char ' ' :: written v ++ writtenFields fields ++
      [.char '\x7d'])

/-- The items of an array behind the first, on one line. -/
def writtenItems : List Json → Text
  | [] => []
  | v :: vs => ',' :: ' ' :: (written v ++ writtenItems vs)

/-- The fields of an object behind the first, on one line. -/
def writtenFields : List (Text × Json) → Text
  | [] => []
  | (name, v) :: fields =>
    ',' :: ' ' :: (writtenString name ++ .char ':' :: .char ' ' :: written v ++ writtenFields fields)

end

end Writer

/-- A value on indented lines. Integers have at most `Numeral.digitLimit` digits. -/
def pretty (v : Json) : Except Numeral.Fault Text := Writer.prettyAt 0 v

/-- A value on one line. -/
def compact (v : Json) : Text := Writer.written v

end Json
end LadderLogic
