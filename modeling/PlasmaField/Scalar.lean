/-!
# The numbers of the field computations

Every computation of the library is written over a type of scalars, so that one text can be run in
double precision and reasoned about in exact arithmetic. A `Scalar` type has the four operations,
comparisons that may all fail (as those with a NaN do), decimal constants, and the few roundings
that the computations need. `ElementaryScalar` adds the elementary functions.

The definitions below fix the conventions that differ between number systems: which operand a
minimum returns when the other is no number, that a clamped value may stay unordered, and in which
order a power multiplies.
-/

namespace PlasmaField

/-- A type of numbers with arithmetic, comparisons and the roundings used by the computations. No
law is assumed: comparisons may fail in both directions. -/
class Scalar (α : Type) where
  [add : Add α]
  [sub : Sub α]
  [mul : Mul α]
  [div : Div α]
  [neg : Neg α]
  [lt : LT α]
  [le : LE α]
  [beq : BEq α]
  [ofScientific : OfScientific α]
  /-- Strict comparison can be tested. -/
  decidableLT : DecidableLT α
  /-- Comparison can be tested. -/
  decidableLE : DecidableLE α
  /-- A natural number as a scalar. -/
  ofNat : Nat → α
  /-- The value without its sign. -/
  abs : α → α
  /-- Neither infinite nor the result of an undefined operation. -/
  isFinite : α → Bool
  /-- The nearest whole number, halves away from zero. -/
  nearest : α → Int
  /-- The natural number that the scalar is, if it is one. -/
  natural? : α → Option Nat
  /-- The remainder of the division truncated toward zero; it has the sign of the dividend. -/
  remainder : α → α → α

/-- Scalars with the elementary functions. -/
class ElementaryScalar (α : Type) extends Scalar α where
  /-- The square root. -/
  sqrt : α → α
  /-- The sine of an angle in radians. -/
  sin : α → α
  /-- The cosine of an angle in radians. -/
  cos : α → α
  /-- The natural logarithm. -/
  log : α → α
  /-- Half a turn in radians. -/
  pi : α

namespace Scalar

variable {α : Type} [Scalar α]

-- The low priority lets a type that has an operation already keep its own.
instance (priority := 50) : Add α := add
instance (priority := 50) : Sub α := sub
instance (priority := 50) : Mul α := mul
instance (priority := 50) : Div α := div
instance (priority := 50) : Neg α := neg
instance (priority := 50) : LT α := lt
instance (priority := 50) : LE α := le
instance (priority := 50) : BEq α := beq
instance (priority := 50) : OfScientific α := ofScientific

/-- Strict comparison of scalars is decided by the scalars' own test. -/
instance (priority := 50) : DecidableLT α := Scalar.decidableLT

/-- Comparison of scalars is decided by the scalars' own test. -/
instance (priority := 50) : DecidableLE α := Scalar.decidableLE

/-- A whole literal is its natural number as a scalar. -/
instance (priority := 50) instOfNat (n : Nat) : OfNat α n := ⟨ofNat n⟩

/-- The scalar differs from itself, as the result of an undefined operation does. -/
def isNaN (x : α) : Bool := !(x == x)

/-- The smaller operand; the other one if an operand is no number. -/
def min (x y : α) : α :=
  if y < x then y else if isNaN x then y else x

/-- The larger operand; the other one if an operand is no number. -/
def max (x y : α) : α :=
  if x < y then y else if isNaN x then y else x

/-- The scalar moved into the range from `lower` to `upper`. An unordered scalar stays. -/
def clamp (lower upper x : α) : α :=
  let raised := if x < lower then lower else x
  if upper < raised then upper else raised

/-- The scalar lies in the closed range from `lower` to `upper`. -/
def within (lower upper x : α) : Bool :=
  lower ≤ x && x ≤ upper

/-- Multiplies `acc` by the power of `x`, squaring `x` once per binary digit of the exponent, lowest
digit first. -/
def powFrom (acc x : α) (n : Nat) : α :=
  if n = 0 then acc
  else powFrom (if n % 2 = 1 then acc * x else acc) (x * x) (n / 2)
termination_by n

/-- The integer power by repeated squaring. A negative exponent inverts the power at the end. -/
def pow (x : α) : Int → α
  | .ofNat n => powFrom 1 x n
  | .negSucc n => 1 / powFrom 1 x (n + 1)

/-- An integer as a scalar. -/
def ofInt : Int → α
  | .ofNat n => ofNat n
  | .negSucc n => -ofNat (n + 1)

/-- The remainder of `x` moved into the range that starts at zero and has length `m`. -/
def wrap (m x : α) : α :=
  let r := remainder x m
  if r < 0 then r + m else r

/-- The spacing of doubles just above one, `2⁻⁵²`. -/
def epsilon : α := 1 / ofNat (Nat.pow 2 52)

/-- The smallest normal double, `2⁻¹⁰²²`. -/
def tiny : α := 1 / ofNat (Nat.pow 2 1022)

/-- The unbounded scalar, where the number system has one. -/
def infinity : α := 1 / 0

/-- The greatest natural number that is at most `x`, cut to the range from `0` to `limit`. Scalars
that are no number count as zero. -/
def floorUpTo (limit : Nat) (x : α) : Nat :=
  (List.range limit).countP fun k ↦ ofNat (k + 1) ≤ x

/-- The `n` equally spaced scalars `a + step * i`. The last one is not forced to `b`, and a single
one is `a`. -/
def linspace (a b : α) (n : Nat) : Array α :=
  let step := if 1 < n then (b - a) / ofNat (n - 1) else 0
  Array.ofFn fun i : Fin n ↦ a + step * ofNat i.val

/-- The smallest and largest member of a list, which no unordered member counts for; `none` if no
member counts. -/
def range? (xs : List α) : Option (α × α) :=
  xs.foldl (fun seen x ↦
    if isNaN x then seen
    else match seen with
      | none => some (x, x)
      | some (lower, upper) => some (min lower x, max upper x)) none

/-- Entry `i` of an array; zero beyond its end. -/
def nth (xs : Array α) (i : Nat) : α :=
  xs.getD i 0

/-- Consecutive members increase strictly. -/
def increasing : List α → Bool
  | x :: y :: rest => !(y ≤ x) && increasing (y :: rest)
  | _ => true

end Scalar

end PlasmaField
