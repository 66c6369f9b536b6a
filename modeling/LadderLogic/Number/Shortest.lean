import LadderLogic.Number.Binary64

/-!
# Shortest decimal text

A finite number is written with the fewest decimal digits that read back as it, and of several such
texts with the nearest one. The digits are found by trying the two neighbours of the number on the
grids of one, two, … seventeen digits; seventeen always suffice.

Source: the numbers with a fraction as `Instruction.from_dict` makes texts of them (section 3 of the
specification).
-/

namespace LadderLogic
namespace Binary64

/-- The least `p` with `num / den < 10 ^ p`. -/
def decimalPoint (num den : Nat) : Int :=
  let p : Int := (Nat.repr num).length - (Nat.repr den).length
  let below :=
    if 0 ≤ p then num < den * Nat.pow 10 p.toNat else num * Nat.pow 10 (-p).toNat < den
  if below then p else p + 1

/-- Numerator and denominator of `num / den / 10 ^ k`. -/
def scaleTen (num den : Nat) (k : Int) : Nat × Nat :=
  if 0 ≤ k then (num, den * Nat.pow 10 k.toNat) else (num * Nat.pow 10 (-k).toNat, den)

/-- The neighbour of `num / den` on the grid of the multiples of `10 ^ k` that reads back as the
mantissa `m` and exponent `e`, the nearer one if both do. -/
def neighbour? (m : Nat) (e : Int) (num den : Nat) (k : Int) : Option Nat :=
  let (n, d) := scaleTen num den k
  let low := n / d
  let readsBack (c : Nat) : Bool := ofDecimal false c k == .finite false m e
  match readsBack low, readsBack (low + 1) with
  | true, true => some (roundDiv n d)
  | true, false => some low
  | false, true => some (low + 1)
  | false, false => none

/-- Takes the zeros off the end of a number's digits, at most `n` of them, and counts them. -/
def stripZeros : Nat → Nat → Nat × Nat
  | 0, c => (c, 0)
  | n + 1, c =>
    if c % 10 = 0 then
      let (rest, count) := stripZeros n (c / 10)
      (rest, count + 1)
    else (c, 0)

/-- The digits of the shortest decimal text of `m * 2 ^ e`, without zeros at the end, and the
position of the decimal point counted from the first digit. -/
def shortest (m : Nat) (e : Int) : List Char × Int :=
  let (num, den) := fraction m e
  let p := decimalPoint num den
  let found := (List.range' 1 17).findSome? fun (n : Nat) =>
    (neighbour? m e num den (p - n)).map fun c => (c, p - n)
  let (c, k) := found.getD (m, e)
  let (c, zeros) := stripZeros 18 c
  let digits := (Nat.repr c).toList
  (digits, digits.length + k + zeros)

/-- Digits with a decimal point: positional notation while the point stands at most four places in
front of the digits and at most sixteen behind the first, else one digit in front of the point and
an exponent of two digits at least. -/
def pointed (digits : List Char) (point : Int) : List Char :=
  if -4 < point && point ≤ 16 then
    if point ≤ 0 then
      '0' :: '.' :: (List.replicate (-point).toNat '0' ++ digits)
    else if digits.length ≤ point then
      digits ++ List.replicate (point.toNat - digits.length) '0' ++ ['.', '0']
    else
      digits.take point.toNat ++ '.' :: digits.drop point.toNat
  else
    let exponent := (Nat.repr (point - 1).natAbs).toList
    let fraction := if digits.length ≤ 1 then [] else '.' :: digits.drop 1
    digits.take 1 ++ fraction ++ 'e' :: (if point - 1 < 0 then '-' else '+') ::
      (if exponent.length < 2 then '0' :: exponent else exponent)

/-- The text of a number. -/
def text : Binary64 → String
  | .nan => "nan"
  | .infinite negative => if negative then "-inf" else "inf"
  | .finite negative m e =>
    let body :=
      if m = 0 then ['0', '.', '0']
      else
        let (digits, point) := shortest m e
        pointed digits point
    String.ofList (if negative then '-' :: body else body)

end Binary64
end LadderLogic
