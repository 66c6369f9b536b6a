import LadderLogic.Json.Basic
import LadderLogic.Number.Numeral
import LadderLogic.Text.Hex

/-!
# Reading JSON text

The reader works on the code points that are left, and a fault carries what was left where it was
found; its place in the text follows from the length of that rest. Beyond the standard grammar the
reader takes the numbers `NaN`, `Infinity` and `-Infinity`. Of two fields of one name the later value
counts. A control character in a string is a fault.

Source: the reading of text in `loads_project` (section 6 of the specification).
-/

namespace LadderLogic
namespace Json

/-- What is wrong with a text. -/
inductive Cause where
  | byteOrderMark
  | expectingValue
  | extraData
  | expectingName
  | expectingColon
  | expectingComma
  | unterminated
  | controlCharacter
  | badEscape
  | badCodeEscape
  deriving DecidableEq, Repr

/-- The wording of a cause. -/
def Cause.message : Cause → Text
  | .byteOrderMark => "Unexpected UTF-8 BOM (decode using utf-8-sig)"
  | .expectingValue => "Expecting value"
  | .extraData => "Extra data"
  | .expectingName => "Expecting property name enclosed in double quotes"
  | .expectingColon => "Expecting ':' delimiter"
  | .expectingComma => "Expecting ',' delimiter"
  | .unterminated => "Unterminated string starting at"
  | .controlCharacter => "Invalid control character at"
  | .badEscape => "Invalid \\escape"
  | .badCodeEscape => "Invalid \\uXXXX escape"

namespace Reader

/-- A fault, with what is left of the text where it was found. -/
inductive Fault where
  | malformed (cause : Cause) (rest : Text)
  | numeral (fault : Numeral.Fault)
  deriving DecidableEq, Repr

/-- The code points that may stand between the parts of a text. -/
def isSpace (c : CodePoint) : Bool :=
  c == .char ' ' || c == .char '\t' || c == .char '\n' || c == .char '\r'

/-- What is left behind the space in front. -/
def skipSpace (text : Text) : Text := text.dropWhile isSpace

/-! ## Strings -/

/-- The character that a backslash and the character `c` stand for. -/
def escape? : CodePoint → Option Char
  | .char '"' => some '"'
  | .char '\\' => some '\\'
  | .char '/' => some '/'
  | .char 'b' => some '\x08'
  | .char 'f' => some '\x0c'
  | .char 'n' => some '\n'
  | .char 'r' => some '\r'
  | .char 't' => some '\t'
  | _ => none

/-- The number with four hexadecimal digits. -/
def code? (a b c d : CodePoint) : Option Nat :=
  match Text.hexValue? a, Text.hexValue? b, Text.hexValue? c, Text.hexValue? d with
  | some a, some b, some c, some d => some (4096 * a + 256 * b + 16 * c + d)
  | _, _, _, _ => none

/-- A part of a string: a code point, or a code that was written as an escape. -/
inductive Piece where
  | point (p : CodePoint)
  | code (n : Nat)
  deriving DecidableEq, Repr

/-- Whether a code is the first half of a surrogate pair. -/
def isHighHalf (n : Nat) : Bool := 0xD800 ≤ n && n < 0xDC00

/-- Whether a code is the second half of a surrogate pair. -/
def isLowHalf (n : Nat) : Bool := 0xDC00 ≤ n && n < 0xE000

/-- The character of a surrogate pair. -/
def ofHalves (high low : Nat) : Char :=
  Char.ofNat (0x10000 + (high - 0xD800) * 1024 + (low - 0xDC00))

/-- The code points of the pieces of a string. The code of a first half and that of a second half
right behind it make one character; any other half stands alone. -/
def ofPieces : List Piece → Text
  | [] => []
  | .point p :: rest => p :: ofPieces rest
  | .code n :: .code m :: rest =>
    if isHighHalf n && isLowHalf m then ofHalves n m :: ofPieces rest
    else .ofNat n :: ofPieces (.code m :: rest)
  | .code n :: rest => .ofNat n :: ofPieces rest

/-- Puts a piece in front of what a string reader found. -/
def consPiece (p : Piece) : Except Fault (List Piece × Text) → Except Fault (List Piece × Text)
  | .ok (pieces, rest) => .ok (p :: pieces, rest)
  | .error e => .error e

/-- Reads the pieces of a string behind its opening quote, up to its closing quote. `opening` is what
was left from the opening quote on. The four digits of a code must not end the text. -/
def stringPieces (opening : Text) : Text → Except Fault (List Piece × Text)
  | [] => .error (.malformed .unterminated opening)
  | .char '"' :: rest => .ok ([], rest)
  | [.char '\\'] => .error (.malformed .unterminated opening)
  | .char '\\' :: .char 'u' :: a :: b :: c :: d :: rest =>
    match code? a b c d with
    | none => .error (.malformed .badCodeEscape ('u' :: a :: b :: c :: d :: rest))
    | some n =>
      if rest.isEmpty then .error (.malformed .badCodeEscape ('u' :: a :: b :: c :: d :: rest))
      else consPiece (.code n) (stringPieces opening rest)
  | .char '\\' :: .char 'u' :: rest => .error (.malformed .badCodeEscape ('u' :: rest))
  | .char '\\' :: c :: rest =>
    match escape? c with
    | some e => consPiece (.point e) (stringPieces opening rest)
    | none => .error (.malformed .badEscape ('\\' :: c :: rest))
  | c :: rest =>
    if c.toNat ≤ 0x1F then .error (.malformed .controlCharacter (c :: rest))
    else consPiece (.point c) (stringPieces opening rest)

/-- Reads a string behind its opening quote. -/
def string (rest : Text) : Except Fault (Text × Text) :=
  match stringPieces ('"' :: rest) rest with
  | .ok (pieces, rest) => .ok (ofPieces pieces, rest)
  | .error e => .error e

/-! ## Numbers and names -/

/-- The digits of a run of ASCII digits. -/
def digitValues (run : Text) : List Nat := run.map fun c => c.toNat - 48

/-- Reads a fraction: its digits, and what is left. Without a digit behind the point there is
none. -/
def fraction (text : Text) : Option Text × Text :=
  match text with
  | .char '.' :: rest =>
    let run := rest.takeWhile CodePoint.isDigit
    if run.isEmpty then (none, text) else (some run, rest.dropWhile CodePoint.isDigit)
  | _ => (none, text)

/-- Reads an exponent. Without a digit in it there is none. -/
def exponent (text : Text) : Option Int × Text :=
  match text with
  | c :: rest =>
    if c == .char 'e' || c == .char 'E' then
      let (negative, body) := Numeral.splitSign rest
      let run := body.takeWhile CodePoint.isDigit
      if run.isEmpty then (none, text)
      else (some (Numeral.signed negative (Numeral.ofDigits (digitValues run))),
        body.dropWhile CodePoint.isDigit)
    else (none, text)
  | [] => (none, text)

/-- Reads the digits in front of the point: a zero, or a run that starts with no zero. -/
def whole? (text : Text) : Option (Text × Text) :=
  match text with
  | .char '0' :: rest => some (['0'], rest)
  | c :: rest =>
    if c.isDigit then some (c :: rest.takeWhile CodePoint.isDigit, rest.dropWhile CodePoint.isDigit) else none
  | [] => none

/-- Reads a number. An integer has at most `limit` digits. -/
def number (limit : Nat) (text : Text) : Except Fault (Json × Text) :=
  let (negative, body) := match text with
    | .char '-' :: rest => (true, rest)
    | _ => (false, text)
  match whole? body with
  | none => .error (.malformed .expectingValue text)
  | some (run, rest) =>
    let (decimals, rest) := fraction rest
    let (power, rest) := exponent rest
    if decimals.isNone && power.isNone then
      if limit < run.length then .error (.numeral (.overlong run.length))
      else .ok (.int (Numeral.signed negative (Numeral.ofDigits (digitValues run))), rest)
    else
      let decimals := decimals.getD []
      let digits := Numeral.ofDigits (digitValues (run ++ decimals))
      .ok (.real (Binary64.ofDecimal negative digits (power.getD 0 - decimals.length)), rest)

/-- The values with a name of their own. -/
def names : List (Text × Json) :=
  [("null", .null), ("true", .bool true), ("false", .bool false), ("NaN", .real .nan),
    ("Infinity", .real (.infinite false)), ("-Infinity", .real (.infinite true))]

/-- Reads a value that has a name, or a number. -/
def scalar (limit : Nat) (text : Text) : Except Fault (Json × Text) :=
  match names.findSome? fun (name, v) => (name.isPrefixOf? text).map fun rest => (v, rest) with
  | some found => .ok found
  | none => number limit text

/-! ## Values -/

mutual

/-- Reads a value. -/
def value (limit : Nat) : Nat → Text → Except Fault (Json × Text)
  | 0, text => .error (.malformed .expectingValue text)
  | _ + 1, .char '"' :: rest =>
    match string rest with
    | .ok (s, rest) => .ok (.str s, rest)
    | .error e => .error e
  | fuel + 1, .char '[' :: rest =>
    match skipSpace rest with
    | .char ']' :: rest => .ok (.arr [], rest)
    | rest =>
      match elements limit fuel rest with
      | .ok (vs, rest) => .ok (.arr vs, rest)
      | .error e => .error e
  | fuel + 1, .char '\x7b' :: rest =>
    match skipSpace rest with
    | .char '\x7d' :: rest => .ok (.obj [], rest)
    | rest =>
      match members limit fuel [] rest with
      | .ok (fields, rest) => .ok (.obj fields, rest)
      | .error e => .error e
  | _ + 1, text => scalar limit text

/-- Reads the items of an array that has one at least, up to its end. -/
def elements (limit : Nat) : Nat → Text → Except Fault (List Json × Text)
  | 0, text => .error (.malformed .expectingValue text)
  | fuel + 1, text =>
    match value limit fuel text with
    | .error e => .error e
    | .ok (v, rest) =>
      match skipSpace rest with
      | .char ']' :: rest => .ok ([v], rest)
      | .char ',' :: rest =>
        match elements limit fuel (skipSpace rest) with
        | .ok (vs, rest) => .ok (v :: vs, rest)
        | .error e => .error e
      | rest => .error (.malformed .expectingComma rest)

/-- Reads the fields of an object behind those in `fields`, up to its end. -/
def members (limit : Nat) :
    Nat → Fields → Text → Except Fault (Fields × Text)
  | 0, _, text => .error (.malformed .expectingValue text)
  | fuel + 1, fields, .char '"' :: text =>
    match string text with
    | .error e => .error e
    | .ok (name, rest) =>
      match skipSpace rest with
      | .char ':' :: rest =>
        match value limit fuel (skipSpace rest) with
        | .error e => .error e
        | .ok (v, rest) =>
          let fields := setField fields name v
          match skipSpace rest with
          | .char '\x7d' :: rest => .ok (fields, rest)
          | .char ',' :: rest => members limit fuel fields (skipSpace rest)
          | rest => .error (.malformed .expectingComma rest)
      | rest => .error (.malformed .expectingColon rest)
  | _ + 1, _, text => .error (.malformed .expectingName text)

end

/-- Reads a whole text. Each step of the reader takes a character within two calls, which bounds
their number. -/
def document (limit : Nat) (text : Text) : Except Fault Json :=
  if text.head? = some (.char '\uFEFF') then .error (.malformed .byteOrderMark text)
  else match value limit (2 * text.length + 2) (skipSpace text) with
    | .error e => .error e
    | .ok (v, rest) =>
      match skipSpace rest with
      | [] => .ok v
      | rest => .error (.malformed .extraData rest)

end Reader

/-! ## Places -/

/-- A place in a text: its line and column, counted from 1, and its offset, counted from 0. -/
structure Place where
  line : Nat
  column : Nat
  offset : Nat
  deriving DecidableEq, Repr

/-- The place behind the code points `before`. -/
def Place.after (before : Text) : Place where
  line := before.count (.char '\n') + 1
  column := (before.reverse.takeWhile (· ≠ .char '\n')).length + 1
  offset := before.length

/-- Why a text cannot be read. -/
inductive ReadError where
  | malformed (cause : Cause) (place : Place)
  | numeral (fault : Numeral.Fault)
  deriving DecidableEq, Repr

/-- The wording of a read error. -/
def ReadError.message : ReadError → Text
  | .malformed cause place =>
    cause.message ++
      s!": line {place.line} column {place.column} (char {place.offset})"
  | .numeral fault => fault.message

/-- A fault in `text` with its place. -/
def Reader.Fault.toReadError (text : Text) : Reader.Fault → ReadError
  | .malformed cause rest => .malformed cause (.after (text.take (text.length - rest.length)))
  | .numeral fault => .numeral fault

/-- Reads a JSON text whose integers have at most `limit` digits. -/
def readWithin (limit : Nat) (text : Text) : Except ReadError Json :=
  (Reader.document limit text).mapError (Reader.Fault.toReadError text)

/-- Reads a JSON text. -/
def read (text : Text) : Except ReadError Json := readWithin Numeral.digitLimit text

end Json
end LadderLogic
