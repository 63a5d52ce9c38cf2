import FsmFabric.Json.Token

/-!
# Numbers that are too large

A number must not be larger than what double precision can hold. It is rated in two steps, as a
significand below `2 ^ 64` times a power of ten: digits that no longer fit into the significand only
count by their number, and the product is taken of the two factors after each has been rounded to
double precision.
-/

namespace FsmFabric.Json

/-- The number `significand * 10 ^ exponent`. -/
structure Scaled where
  significand : Nat
  exponent : Int
deriving DecidableEq, Repr

namespace Scaled

/-- One more than the largest significand. -/
def limit : Nat := UInt64.size

/-- Takes up digits before the point. From the first one on that does not fit, every digit raises the
exponent. -/
def takeWhole (s : Scaled) : List Char → Scaled
  | [] => s
  | d :: rest =>
    let next := 10 * s.significand + Numeral.digitValue d
    if next < limit then takeWhole { s with significand := next } rest
    else { s with exponent := s.exponent + (rest.length + 1) }

/-- Takes up digits behind the point. From the first one on that does not fit, they do not count. -/
def takeFraction (s : Scaled) : List Char → Scaled
  | [] => s
  | d :: rest =>
    let next := 10 * s.significand + Numeral.digitValue d
    if next < limit then takeFraction ⟨next, s.exponent - 1⟩ rest else s

end Scaled

def Exponent.value (e : Exponent) : Int :=
  if e.sign = some '-' then -(Numeral.decimal e.digits : Int) else Numeral.decimal e.digits

/-- A numeral without its sign as a scaled number. -/
def Numeral.scaled (n : Numeral) : Scaled :=
  let s := (Scaled.takeWhole ⟨0, 0⟩ n.whole).takeFraction (n.fraction.getD [])
  { s with exponent := s.exponent + n.exponent.elim 0 Exponent.value }

/-- The number of binary digits that double precision keeps. -/
def precision : Nat := 53

/-- A number rounded to the nearest one with at most `precision` binary digits, a tie to the even
one. -/
def roundBinary (n : Nat) : Nat :=
  let spare := n.log2 + 1 - precision
  let unit := 1 <<< spare
  let quotient := n / unit
  let twice := 2 * (n % unit)
  let up := unit < twice || (twice == unit && quotient % 2 == 1)
  (if up then quotient + 1 else quotient) * unit

/-- The largest exponent of a power of ten in double precision. -/
def maxExponent : Nat := 308

/-- The least number that rounds to infinity in double precision. -/
def overflow : Nat := 1 <<< 1024 - 1 <<< 970

def Scaled.inRange (s : Scaled) : Bool :=
  match s.exponent with
  | .negSucc _ => true
  | .ofNat exponent =>
    s.significand == 0 ||
      (exponent ≤ maxExponent &&
        roundBinary s.significand * roundBinary (Nat.pow 10 exponent) < overflow)

def Numeral.inRange (n : Numeral) : Bool := n.scaled.inRange

end FsmFabric.Json
