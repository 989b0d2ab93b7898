import PlasmaField.Scalar.Binary64

/-!
# Decimal numbers

A `Decimal` is an exact decimal `± coefficient · 10^exponent`. This module rounds the exact value of
a double to a number of significant digits, and writes decimals positionally and in scientific form.
Rounding is to the nearest decimal of the grid, and a tie goes to the even coefficient.
-/

namespace PlasmaField

/-- The decimal number `± coefficient · 10^exponent`. -/
structure Decimal where
  negative : Bool
  coefficient : Nat
  exponent : Int
  deriving DecidableEq, Repr

namespace Decimal

/-- The quotient rounded to the nearest natural number, a tie to the even one. -/
def roundDiv (n d : Nat) : Nat :=
  let q := n / d
  let r := n % d
  if 2 * r < d then q
  else if d < 2 * r then q + 1
  else if q % 2 = 0 then q else q + 1

/-- The number of decimal digits of a natural number; zero has none. -/
def digitCount (n : Nat) : Nat :=
  if n = 0 then 0 else digitCount (n / 10) + 1
termination_by n

/-- The exponent of the leading decimal digit of the positive fraction `n / d`. -/
def leadingExponent (n d : Nat) : Int :=
  if d ≤ n then (digitCount (n / d) : Int) - 1
  else
    -- The least `k` for which `10^k` is at least `d / n`.
    -(digitCount ((d + n - 1) / n - 1) : Int)

/-- Multiplies the numerator or the denominator of a fraction to divide its value by `10^e`. -/
def scaleDown (n d : Nat) : Int → Nat × Nat
  | .ofNat k => (n, d * Nat.pow 10 k)
  | .negSucc k => (n * Nat.pow 10 (k + 1), d)

/-- The value rounded to the given number of significant digits, which is at least one. Zero keeps
the exponent of a single digit before the point. -/
def significant (digits : Nat) (v : Binary64.Exact) : Decimal :=
  let (n, d) := v.magnitude
  let last := 1 - (digits : Int) + (if n = 0 then 0 else leadingExponent n d)
  let (n', d') := scaleDown n d last
  let c := roundDiv n' d'
  if c = Nat.pow 10 digits then ⟨v.negative, Nat.pow 10 (digits - 1), last + 1⟩
  else ⟨v.negative, c, last⟩

/-- The same number with no trailing zero in its coefficient; zero gets the exponent zero. -/
def normalize (x : Decimal) : Decimal :=
  if x.coefficient = 0 then { x with exponent := 0 }
  else if x.coefficient % 10 = 0 then
    normalize { x with coefficient := x.coefficient / 10, exponent := x.exponent + 1 }
  else x
termination_by x.coefficient
decreasing_by omega

/-- The decimal digits of the coefficient. -/
def digits (x : Decimal) : List Char :=
  Nat.toDigits 10 x.coefficient

/-- The sign as written in front of the digits. -/
def signText (x : Decimal) : String :=
  if x.negative then "-" else ""

/-- The number written positionally, without an exponent. A point is written only before digits. -/
def plainText (x : Decimal) : String :=
  let ds := x.digits
  x.signText ++ match x.exponent with
    | .ofNat k =>
      String.ofList (if x.coefficient = 0 then ['0'] else ds ++ List.replicate k '0')
    | .negSucc k =>
      let padded := List.replicate (k + 2 - ds.length) '0' ++ ds
      let whole := padded.length - (k + 1)
      String.ofList (padded.take whole ++ '.' :: padded.drop whole)

/-- The number in scientific form: one digit before the point, then the exponent without padding and
without a plus sign. -/
def scientificText (x : Decimal) : String :=
  let exponent := if x.coefficient = 0 then 0 else x.exponent + (x.digits.length : Int) - 1
  let mantissa := match x.digits with
    | d :: e :: rest => d :: '.' :: e :: rest
    | short => short
  x.signText ++ String.ofList mantissa ++ "e" ++ toString exponent

end Decimal

end PlasmaField
