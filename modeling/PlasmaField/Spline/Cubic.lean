import PlasmaField.Tridiagonal

/-!
# Natural cubic splines

A `CubicSpline` interpolates values at increasing knots by a twice continuously differentiable
piecewise cubic whose second derivative vanishes at both ends. Beyond the knots it stays at the end
value. The second derivatives at the knots solve a tridiagonal system.
-/

namespace PlasmaField

open Scalar (nth)

namespace Spline

variable {α : Type} [Scalar α]

/-- The knots are usable: at least two, finite, and strictly increasing. -/
def checkKnots (axis : KnotAxis) (x : Array α) : Except (FieldError α) Unit := do
  if x.size < 2 then
    throw (.shape (.fewKnots axis x.size))
  if !x.all Scalar.isFinite then
    throw (.physics (.knotsNotFinite axis))
  if !Scalar.increasing x.toList then
    throw (.physics (.knotsNotIncreasing axis))

/-- The equation for the second derivative at interior knot `i`. -/
def curvatureRow (x y : Array α) (i : Nat) : Tridiagonal.Row α :=
  let h₀ := nth x i - nth x (i - 1)
  let h₁ := nth x (i + 1) - nth x i
  ⟨h₀, 2 * (h₀ + h₁), h₁,
    6 * ((nth y (i + 1) - nth y i) / h₁ - (nth y i - nth y (i - 1)) / h₀)⟩

/-- The second derivatives of the natural spline at its knots. -/
def curvatures (x y : Array α) : Except (FieldError α) (Array α) :=
  let n := x.size
  if n < 3 then .ok (Array.replicate n 0)
  else do
    let interior ← Tridiagonal.solveRows
      ((List.range (n - 2)).map fun i ↦ curvatureRow x y (i + 1))
    return (0 :: interior ++ [0]).toArray

/-- The first derivatives of the natural spline at its knots. The last one belongs to the left end
of no interval and is taken at the right end of the last interval. -/
def slopes (x y : Array α) : Except (FieldError α) (Array α) := do
  let m ← curvatures x y
  let n := x.size
  return Array.ofFn fun i : Fin n ↦
    if i.val + 1 < n then
      let h := nth x (i + 1) - nth x i
      (nth y (i + 1) - nth y i) / h - h * (2 * nth m i + nth m (i + 1)) / 6
    else
      let h := nth x (n - 1) - nth x (n - 2)
      (nth y (n - 1) - nth y (n - 2)) / h + h * (nth m (n - 2) + 2 * nth m (n - 1)) / 6

/-- The number of the knot interval that holds a value: the last one whose left knot is at most the
value, and the first one if there is none. -/
def interval (knots : Array α) (v : α) : Nat :=
  Min.min (knots.findIdx (fun k ↦ !(k ≤ v)) - 1) (knots.size - 2)

end Spline

/-- A natural cubic spline: its knots, its values and its second derivatives there. -/
structure CubicSpline (α : Type) where
  x : Array α
  y : Array α
  m : Array α

namespace CubicSpline

variable {α : Type} [Scalar α]

/-- The natural spline through the given values. -/
def through (x y : Array α) : Except (FieldError α) (CubicSpline α) := do
  Spline.checkKnots .single x
  if y.size != x.size then
    throw (.shape (.splineValues y.size x.size))
  if !y.all Scalar.isFinite then
    throw (.physics .splineValuesNotFinite)
  return ⟨x, y, ← Spline.curvatures x y⟩

/-- The first knot. -/
def xMin (s : CubicSpline α) : α :=
  nth s.x 0

/-- The last knot. -/
def xMax (s : CubicSpline α) : α :=
  nth s.x (s.x.size - 1)

/-- The value on interval `i`, from the second derivatives at its ends. -/
def evalOn (s : CubicSpline α) (i : Nat) (v : α) : α :=
  let h := nth s.x (i + 1) - nth s.x i
  let a := nth s.x (i + 1) - v
  let b := v - nth s.x i
  nth s.m i * Scalar.pow a 3 / (6 * h) + nth s.m (i + 1) * Scalar.pow b 3 / (6 * h)
    + (nth s.y i / h - nth s.m i * h / 6) * a
    + (nth s.y (i + 1) / h - nth s.m (i + 1) * h / 6) * b

/-- The spline's value; beyond the knots that of the nearest end. -/
def eval (s : CubicSpline α) (v : α) : α :=
  let v := Scalar.clamp s.xMin s.xMax v
  s.evalOn (Spline.interval s.x v) v

/-- The slope on interval `i`. -/
def derivativeOn (s : CubicSpline α) (i : Nat) (v : α) : α :=
  let h := nth s.x (i + 1) - nth s.x i
  let a := nth s.x (i + 1) - v
  let b := v - nth s.x i
  (-nth s.m i) * a * a / (2 * h) + nth s.m (i + 1) * b * b / (2 * h)
    + (nth s.y (i + 1) - nth s.y i) / h
    - (nth s.m (i + 1) - nth s.m i) * h / 6

/-- The spline's slope; zero beyond the knots, where the spline is constant. -/
def derivative (s : CubicSpline α) (v : α) : α :=
  if v < s.xMin || s.xMax < v then 0 else s.derivativeOn (Spline.interval s.x v) v

/-- The spline's values at many places. -/
def evalEach (s : CubicSpline α) (v : Array α) : Array α :=
  v.map s.eval

end CubicSpline

end PlasmaField
