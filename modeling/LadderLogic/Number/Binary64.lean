/-!
# Binary floating-point numbers

The numbers of the IEEE format `binary64`: a sign, a mantissa below 2^53 and an exponent from -1074
to 971, two infinities and one NaN. Every operation is the exact result, rounded to the nearest
number of the format; of two equally near ones the one with the even mantissa is taken.

Source: the numbers with a fraction in a persisted project, and the readings of a clock in
`LadderRunner` (sections 2 and 6 of the specification).
-/

namespace LadderLogic

/-- A number of the format `binary64`. A finite one has the value `mantissa * 2 ^ exponent`, with
its sign. -/
inductive Binary64 where
  | nan
  | infinite (negative : Bool)
  | finite (negative : Bool) (mantissa : Nat) (exponent : Int)
  deriving DecidableEq, Repr

namespace Binary64

/-- The natural number nearest to `num / den`, the even one of two. -/
def roundDiv (num den : Nat) : Nat :=
  let q := num / den
  let r := num % den
  if den < 2 * r || (2 * r == den && q % 2 == 1) then q + 1 else q

/-- Numerator and denominator of `num / den / 2 ^ e`. -/
def scale (num den : Nat) (e : Int) : Nat × Nat :=
  if 0 ≤ e then (num, den * Nat.pow 2 e.toNat) else (num * Nat.pow 2 (-e).toNat, den)

/-- Numerator and denominator of `mantissa * 2 ^ e`. -/
def fraction (mantissa : Nat) (e : Int) : Nat × Nat :=
  if 0 ≤ e then (mantissa * Nat.pow 2 e.toNat, 1) else (mantissa, Nat.pow 2 (-e).toNat)

/-- Zero with a sign. -/
def zero (negative : Bool) : Binary64 := .finite negative 0 (-1074)

/-- The number nearest to `num / den`. -/
def ofRatio (negative : Bool) (num den : Nat) : Binary64 :=
  if num = 0 then zero negative
  else
    let guess : Int := max ((num.log2 : Int) - den.log2 - 53) (-1074)
    let (n, d) := scale num den guess
    let e := if n / d < Nat.pow 2 53 then guess else guess + 1
    let (n, d) := scale num den e
    let m := roundDiv n d
    let (m, e) := if m = Nat.pow 2 53 then (Nat.pow 2 52, e + 1) else (m, e)
    if 971 < e then .infinite negative else .finite negative m e

/-- The number nearest to `mantissa * 2 ^ e`. -/
def ofScaled (negative : Bool) (mantissa : Nat) (e : Int) : Binary64 :=
  let (n, d) := fraction mantissa e
  ofRatio negative n d

/-- The number nearest to `digits * 10 ^ e`. Beyond 10^310 everything is infinite and below
10^(-330) everything is zero, so that a long exponent costs no long power. -/
def ofDecimal (negative : Bool) (digits : Nat) (e : Int) : Binary64 :=
  let size : Int := (Nat.repr digits).length + e
  if digits = 0 || size < -330 then zero negative
  else if 310 < size then .infinite negative
  else if 0 ≤ e then ofRatio negative (digits * Nat.pow 10 e.toNat) 1
  else ofRatio negative digits (Nat.pow 10 (-e).toNat)

/-- The number nearest to an integer. -/
def ofInt (n : Int) : Binary64 := ofRatio (n < 0) n.natAbs 1

/-- The number with the other sign. -/
def neg : Binary64 → Binary64
  | .nan => .nan
  | .infinite s => .infinite !s
  | .finite s m e => .finite (!s) m e

/-- A mantissa with its sign. -/
def signedMantissa (negative : Bool) (m : Nat) : Int := if negative then -m else m

/-- The rounded sum. A sum of zero is negative only if both terms are. -/
def add : Binary64 → Binary64 → Binary64
  | .nan, _ => .nan
  | _, .nan => .nan
  | .infinite s, .infinite t => if s = t then .infinite s else .nan
  | .infinite s, .finite _ _ _ => .infinite s
  | .finite _ _ _, .infinite t => .infinite t
  | .finite s m e, .finite t n f =>
    let low := min e f
    let sum := signedMantissa s (m * Nat.pow 2 (e - low).toNat) +
      signedMantissa t (n * Nat.pow 2 (f - low).toNat)
    if sum = 0 then zero (s && t) else ofScaled (sum < 0) sum.natAbs low

/-- The rounded difference. -/
def sub (x y : Binary64) : Binary64 := add x y.neg

/-- The rounded product with a positive integer. -/
def times (x : Binary64) (n : Nat) : Binary64 :=
  match x with
  | .nan => .nan
  | .infinite s => .infinite s
  | .finite s m e => ofScaled s (m * n) e

/-- Why a number is no integer. -/
inductive Fault where
  | nan
  | infinite
  deriving DecidableEq, Repr

/-- The wording of a fault. -/
def Fault.message : Fault → String
  | .nan => "cannot convert float NaN to integer"
  | .infinite => "cannot convert float infinity to integer"

/-- The integer between a number and zero that is nearest to the number. -/
def truncate : Binary64 → Except Fault Int
  | .nan => .error .nan
  | .infinite _ => .error .infinite
  | .finite s m e =>
    let (n, d) := fraction m e
    .ok (signedMantissa s (n / d))

/-- The nearest integer, the even one of two. -/
def round : Binary64 → Except Fault Int
  | .nan => .error .nan
  | .infinite _ => .error .infinite
  | .finite s m e =>
    let (n, d) := fraction m e
    .ok (signedMantissa s (roundDiv n d))

/-- The integer that a number is. -/
def integer? : Binary64 → Option Int
  | .finite s m e =>
    let (n, d) := fraction m e
    if n % d = 0 then some (signedMantissa s (n / d)) else none
  | _ => none

/-- Whether a number is below an integer. -/
def isBelow (x : Binary64) (n : Int) : Bool :=
  match x with
  | .nan => false
  | .infinite negative => negative
  | .finite s m e =>
    let (num, den) := fraction m e
    signedMantissa s num < n * den

/-- Whether a number is above an integer. -/
def isAbove (x : Binary64) (n : Int) : Bool := x.neg.isBelow (-n)

/-- Whether a number is a zero, of either sign. -/
def isZero : Binary64 → Bool
  | .finite _ m _ => m == 0
  | _ => false

end Binary64
end LadderLogic
