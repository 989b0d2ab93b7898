import PlasmaField.Scalar

/-!
# Double precision scalars

The scalar operations of the 64-bit binary format. The four operations, the comparisons and the
square root are those of `Float`. What has no rounding (whole parts and remainders) is computed on
the exact value `± mantissa · 2^exponent` that the bits stand for.
-/

namespace PlasmaField.Binary64

/-- A finite double as the exact value `± mantissa · 2^exponent`. -/
structure Exact where
  negative : Bool
  mantissa : Nat
  exponent : Int

/-- The exact value of a double; `none` for infinities and for the results of undefined
operations. -/
def finite? (x : Float) : Option Exact :=
  let bits : Nat := x.toBits.toNat
  let negative := bits / Nat.pow 2 63 % 2 == 1
  let biased : Nat := bits / Nat.pow 2 52 % 2048
  let fraction : Nat := bits % Nat.pow 2 52
  if biased = 2047 then none
  else if biased = 0 then some ⟨negative, fraction, -1074⟩
  else some ⟨negative, fraction + Nat.pow 2 52, (biased : Int) - 1075⟩

namespace Exact

/-- The magnitude as a fraction of natural numbers; the denominator is a power of two. -/
def magnitude (v : Exact) : Nat × Nat :=
  match v.exponent with
  | .ofNat k => (v.mantissa * Nat.pow 2 k, 1)
  | .negSucc k => (v.mantissa, Nat.pow 2 (k + 1))

/-- The value in units of `2^scale`, for a scale that is at most its exponent. -/
def inUnits (v : Exact) (scale : Int) : Int :=
  let m : Int := (v.mantissa * Nat.pow 2 (v.exponent - scale).toNat : Nat)
  if v.negative then -m else m

/-- The double with the given exact value, for a value that some double has. -/
def toFloat (v : Exact) : Float :=
  let sign : Nat := if v.negative then Nat.pow 2 63 else 0
  let length := if v.mantissa = 0 then 0 else v.mantissa.log2 + 1
  -- The place of the last bit kept: 53 bits below the leading one, and no lower than `-1074`.
  let last := Max.max (v.exponent + length - 53) (-1074)
  let m :=
    if last ≤ v.exponent then v.mantissa * Nat.pow 2 (v.exponent - last).toNat
    else v.mantissa / Nat.pow 2 (last - v.exponent).toNat
  let hidden := Nat.pow 2 52
  let body := if m < hidden then m else (last + 1075).toNat * hidden + (m - hidden)
  Float.ofBits (UInt64.ofNat (sign + body))

end Exact

/-- The bound `2^63` of the signed 64-bit words: they reach from its negative to one below it. -/
def wordBound : Int := 9223372036854775808

/-- The whole number moved to the nearest one that a signed 64-bit word can hold. -/
def clampToWord (n : Int) : Int :=
  Max.max (-wordBound) (Min.min (wordBound - 1) n)

/-- The nearest whole number, halves away from zero, kept within 64-bit words; zero for a result of
an undefined operation. -/
def nearest (x : Float) : Int :=
  match finite? x with
  | some v =>
    let (n, d) := v.magnitude
    let m : Int := ((2 * n + d) / (2 * d) : Nat)
    clampToWord (if v.negative then -m else m)
  | none => if 0 < x then wordBound - 1 else if x < 0 then -wordBound else 0

/-- The natural number that a double is, if it is one. Both zeros are. -/
def natural? (x : Float) : Option Nat := do
  let v ← finite? x
  let (n, d) := v.magnitude
  if n % d = 0 && (!v.negative || n = 0) then some (n / d) else none

/-- The exact remainder of the division truncated toward zero. It has the sign of the dividend, an
infinite divisor leaves the dividend as it is, and without an infinite dividend or a zero divisor
it is always defined. -/
def remainder (x m : Float) : Float :=
  match finite? x, finite? m with
  | some a, some b =>
    if b.mantissa = 0 then 0 / 0
    else
      let scale := Min.min a.exponent b.exponent
      let r := (a.inUnits scale).natAbs % (b.inUnits scale).natAbs
      Exact.toFloat ⟨a.negative, r, scale⟩
  | some _, none => if m == m then x else 0 / 0
  | none, _ => 0 / 0

/-- Double precision scalars. -/
instance : ElementaryScalar Float where
  ofNat := Float.ofNat
  decidableLT := inferInstance
  decidableLE := inferInstance
  abs := Float.abs
  isFinite := Float.isFinite
  nearest := nearest
  natural? := natural?
  remainder := remainder
  sqrt := Float.sqrt
  sin := Float.sin
  cos := Float.cos
  log := Float.log
  pi := 3.141592653589793

end PlasmaField.Binary64
