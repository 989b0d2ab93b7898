import PlasmaField.Point

/-!
# The side to which a path turns

The path through three points turns to the side that the sign of a determinant of coordinate
differences tells. `turn` computes the determinant and accepts it if it exceeds a bound on its
rounding error. Otherwise it adds the rounding errors of the products and differences, which are
scalars themselves, and in the end gathers all of them in an expansion: a list of scalars whose sum
is meant without rounding. In exact arithmetic there are no such errors and the computed determinant
stands.

In double precision the side is that of the exact determinant unless a product leaves the range of
doubles or its rounding error is too small for them. Then the path may seem not to turn.
-/

namespace PlasmaField.Orientation

variable {α : Type} [Scalar α]

/-- The rounded result of an operation, and what rounding took away from it. -/
structure Rounded (α : Type) where
  value : α
  error : α

/-- A sum with its rounding error. -/
def sum (a b : α) : Rounded α :=
  let s := a + b
  let fromB := s - a
  let fromA := s - fromB
  ⟨s, (a - fromA) + (b - fromB)⟩

/-- A sum with its rounding error, for a first term that is not the smaller one. -/
def sumOrdered (a b : α) : Rounded α :=
  let s := a + b
  ⟨s, b - (s - a)⟩

/-- A difference with its rounding error. -/
def difference (a b : α) : Rounded α :=
  let s := a - b
  let fromB := a - s
  let fromA := s + fromB
  ⟨s, (a - fromA) + (fromB - b)⟩

/-- The leading half of a scalar's digits, and the rest. -/
def halves (a : α) : α × α :=
  let c := 134217729 * a
  let high := c - (c - a)
  (high, a - high)

/-- A product with its rounding error, from the products of the factors' halves, which are exact. -/
def product (a b : α) : Rounded α :=
  let p := a * b
  let (aHigh, aLow) := halves a
  let (bHigh, bLow) := halves b
  ⟨p, aLow * bLow - (p - aHigh * bHigh - aLow * bHigh - aHigh * bLow)⟩

/-- The difference of two rounded results with their errors, as an expansion. -/
def Rounded.minus (a b : Rounded α) : List α :=
  let s₀ := difference a.error b.error
  let t₀ := sum a.value s₀.value
  let s₁ := difference t₀.error b.value
  let t₁ := sum t₀.value s₁.value
  [s₀.error, s₁.error, t₁.error, t₁.value]

/-- The first scalar's magnitude does not exceed the second's. -/
def noLarger (a b : α) : Bool :=
  decide (a < b) == decide (-a < b)

/-- The scalar in front of the list, unless it is zero. -/
def consNonzero (a : α) (rest : List α) : List α :=
  if a == 0 then rest else a :: rest

/-- Adds terms one by one to a running sum: the rounding errors that are not zero, and the sum
itself if it is not zero or nothing else is left. The argument `alone` tells whether no error came
before. -/
def addTerms (alone : Bool) (total : α) : List α → List α
  | [] => if total == 0 && !alone then [] else [total]
  | term :: terms =>
    let s := sum total term
    consNonzero s.error (addTerms (alone && s.error == 0) s.value terms)

/-- Adds the terms of two expansions to a running sum, from the smallest to the largest. The first
of them is not smaller than the sum if both expansions have terms. -/
def addTo (total : α) (e f : List α) : List α :=
  match e.merge f noLarger with
  | [] => [total]
  | term :: terms =>
    if e.isEmpty || f.isEmpty then addTerms true total (term :: terms)
    else
      let s := sumOrdered term total
      consNonzero s.error (addTerms (s.error == 0) s.value terms)

/-- The sum of two expansions. -/
def add : List α → List α → List α
  | [], f => f
  | e, [] => e
  | a :: e, b :: f => if noLarger a b then addTo a e (b :: f) else addTo b (a :: e) f

/-- The magnitude of the determinant reaches the bound. -/
def reaches (bound det : α) : Bool :=
  bound ≤ det || bound ≤ -det

/-- The greatest relative error of a single rounding. -/
def roundoff : α :=
  Scalar.epsilon / 2

/-- The determinant for the path from `a` over `b` to `c` with the rounding errors of its parts, of
which as many are added as are needed. The scalar `size` bounds its products. -/
def refinedDeterminant (a b c : Point α) (size : α) : α :=
  let acx := difference a.x c.x
  let bcx := difference b.x c.x
  let acy := difference a.y c.y
  let bcy := difference b.y c.y
  let leading := (product acx.value bcy.value).minus (product acy.value bcx.value)
  let det := leading.foldl (· + ·) 0
  if reaches ((2 + 12 * roundoff) * roundoff * size) det then det
  else if acx.error == 0 && acy.error == 0 && bcx.error == 0 && bcy.error == 0 then det
  else
    let bound := (9 + 64 * roundoff) * roundoff * roundoff * size +
      (3 + 8 * roundoff) * roundoff * Scalar.abs det
    let det := det + ((acx.value * bcy.error + bcy.value * acx.error) -
      (acy.value * bcx.error + bcx.value * acy.error))
    if reaches bound det then det
    else
      let first := (product acx.error bcy.value).minus (product acy.error bcx.value)
      let second := (product acx.value bcy.error).minus (product acy.value bcx.error)
      let third := (product acx.error bcy.error).minus (product acy.error bcx.error)
      (add (add (add leading first) second) third).getLast?.getD 0

/-- The determinant whose sign tells the side to which the path from `a` over `b` to `c` turns. -/
def determinant (a b c : Point α) : α :=
  let left := (a.x - c.x) * (b.y - c.y)
  let right := (a.y - c.y) * (b.x - c.x)
  let size := Scalar.abs (left + right)
  if reaches ((3 + 16 * roundoff) * roundoff * size) (left - right) then left - right
  else refinedDeterminant a b c size

/-- The side to which the path from `a` over `b` to `c` turns: `gt` for a counter-clockwise turn,
`lt` for a clockwise one, `eq` for none. -/
def turn (a b c : Point α) : Ordering :=
  let det := determinant a b c
  if det < 0 then .lt else if 0 < det then .gt else .eq

end PlasmaField.Orientation
