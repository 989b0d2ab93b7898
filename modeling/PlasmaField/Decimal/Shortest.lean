import PlasmaField.Decimal

/-!
# The shortest decimal that reads back

A double is written with the fewest digits that still identify it: the decimal must lie in the
interval of reals that round to the double. Among the decimals with that number of digits the
nearest one is taken, and of two equally near ones the larger.
-/

namespace PlasmaField.Decimal

/-- The reals that round to a positive double, in quarter units of its last place: the lower end,
the double itself, the upper end, and whether the ends belong to the interval. Below a power of two
the spacing halves, unless the double is the smallest normal one. -/
def roundingInterval (v : Binary64.Exact) : Nat × Nat × Nat × Bool :=
  let lower := if v.mantissa = Nat.pow 2 52 && v.exponent != -1074 then 1 else 2
  (4 * v.mantissa - lower, 4 * v.mantissa, 4 * v.mantissa + 2, v.mantissa % 2 == 0)

/-- The coefficient on the grid of multiples of `10^grid` that reads back as the double and is
nearest to it, if one reads back. -/
def onGrid? (v : Binary64.Exact) (grid : Int) : Option Nat :=
  let (lower, value, upper, closed) := roundingInterval v
  let (unit, one) := Binary64.Exact.magnitude ⟨false, 1, v.exponent - 2⟩
  let (a, b) := scaleDown unit one grid
  let reads (c : Nat) : Bool :=
    if closed then lower * a ≤ c * b && c * b ≤ upper * a
    else lower * a < c * b && c * b < upper * a
  let c := value * a / b
  match reads c, reads (c + 1) with
  | true, true => some (if (2 * c + 1) * b ≤ 2 * (value * a) then c + 1 else c)
  | true, false => some c
  | false, true => some (c + 1)
  | false, false => none

/-- The shortest decimal that reads back as the double. Seventeen digits always do. -/
def shortest (v : Binary64.Exact) : Decimal :=
  if v.mantissa = 0 then ⟨v.negative, 0, 0⟩
  else
    let (n, d) := v.magnitude
    let leading := leadingExponent n d
    let found := (List.range 17).findSome? fun (k : Nat) ↦
      (onGrid? v (leading - k)).map fun c ↦ (⟨v.negative, c, leading - k⟩ : Decimal)
    (found.getD (significant 17 v)).normalize

end PlasmaField.Decimal

namespace PlasmaField.Binary64

/-- The text of a double that has no exact value. -/
def specialText (x : Float) : String :=
  if x < 0 then "-inf" else if 0 < x then "inf" else "NaN"

/-- A double as its shortest decimal, written positionally. -/
def plainText (x : Float) : String :=
  match finite? x with
  | some v => (Decimal.shortest v).plainText
  | none => specialText x

/-- A double as its shortest decimal, in scientific form. -/
def scientificText (x : Float) : String :=
  match finite? x with
  | some v => (Decimal.shortest v).scientificText
  | none => specialText x

end PlasmaField.Binary64
