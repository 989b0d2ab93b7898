import PlasmaField.Spline.Cubic
import PlasmaField.Table

/-!
# Bicubic splines

A `BicubicSpline` is the tensor product of natural cubic splines on a rectangular grid of knots. It
keeps the value, both first derivatives and the mixed derivative at every knot, which come from
one-dimensional splines along the rows and columns, and evaluates a cell as a bicubic Hermite
patch. Queries beyond the knots are moved to the edge.
-/

namespace PlasmaField

open Scalar (nth)

/-- A bicubic spline: knots along both axes, and the value, the derivatives along `x` and `y` and
the mixed derivative at every knot. Rows follow `y`. -/
structure BicubicSpline (α : Type) where
  x : Array α
  y : Array α
  f : Table α
  fx : Table α
  fy : Table α
  fxy : Table α

namespace BicubicSpline

variable {α : Type} [Scalar α]

/-- The slopes along each row of a table. -/
def rowSlopes (x : Array α) (t : Table α) : Except (FieldError α) (Table α) := do
  let slopes ← (List.range t.rows).mapM fun i ↦ Spline.slopes x (t.row i)
  return Table.ofFn t.rows t.cols fun i j ↦ nth (slopes.toArray.getD i #[]) j

/-- The slopes along each column of a table. -/
def colSlopes (y : Array α) (t : Table α) : Except (FieldError α) (Table α) := do
  let slopes ← (List.range t.cols).mapM fun j ↦ Spline.slopes y (t.col j)
  return Table.ofFn t.rows t.cols fun i j ↦ nth (slopes.toArray.getD j #[]) i

/-- The bicubic spline through a table of values with one row per `y` knot and one column per `x`
knot. -/
def through (x y : Array α) (f : Table α) : Except (FieldError α) (BicubicSpline α) := do
  Spline.checkKnots .first x
  Spline.checkKnots .second y
  if f.cols != x.size || f.rows != y.size then
    throw (.shape (.bicubicValues y.size x.size f.rows f.cols))
  if !f.data.all Scalar.isFinite then
    throw (.physics .bicubicValuesNotFinite)
  let fx ← rowSlopes x f
  let fy ← colSlopes y f
  let fxy ← colSlopes y fx
  return ⟨x, y, f, fx, fy, fxy⟩

/-- The weights of a cubic on the unit interval: of the value and the slope at its left end, and of
the value and the slope at its right end. -/
structure Weights (α : Type) where
  value₀ : α
  slope₀ : α
  value₁ : α
  slope₁ : α

/-- The Hermite weights at `t`. -/
def hermite (t : α) : Weights α :=
  let t2 := t * t
  let t3 := t2 * t
  ⟨2 * t3 - 3 * t2 + 1, t3 - 2 * t2 + t, -2 * t3 + 3 * t2, t3 - t2⟩

/-- The derivatives of the Hermite weights at `t`. -/
def hermiteSlope (t : α) : Weights α :=
  let t2 := t * t
  ⟨6 * t2 - 6 * t, 3 * t2 - 4 * t + 1, -6 * t2 + 6 * t, 3 * t2 - 2 * t⟩

/-- The weighted value and derivatives at the knot in row `j` and column `i`. -/
def corner (s : BicubicSpline α) (j i : Nat) (wx sx wy sy : α) : α :=
  s.f.get j i * wx * wy + s.fx.get j i * sx * wy + s.fy.get j i * wx * sy
    + s.fxy.get j i * sx * sy

/-- The patch of the cell in column `i` and row `j`, from the weights along both axes and the
lengths of the cell's sides, by which slopes are scaled. -/
def patch (s : BicubicSpline α) (i j : Nat) (bx bY : Weights α) (hx hy : α) : α :=
  0 + s.corner j i bx.value₀ (bx.slope₀ * hx) bY.value₀ (bY.slope₀ * hy)
    + s.corner j (i + 1) bx.value₁ (bx.slope₁ * hx) bY.value₀ (bY.slope₀ * hy)
    + s.corner (j + 1) i bx.value₀ (bx.slope₀ * hx) bY.value₁ (bY.slope₁ * hy)
    + s.corner (j + 1) (i + 1) bx.value₁ (bx.slope₁ * hx) bY.value₁ (bY.slope₁ * hy)

/-- Evaluates the patch that holds the query, moved into the rectangle of knots. Each axis gives its
weights from the place within the cell, and a last factor from the length of the cell's side. -/
def evalWith (s : BicubicSpline α) (weightsX weightsY : α → Weights α)
    (scaleX scaleY : α → α) (xq yq : α) : α :=
  let xq := Scalar.clamp (nth s.x 0) (nth s.x (s.x.size - 1)) xq
  let yq := Scalar.clamp (nth s.y 0) (nth s.y (s.y.size - 1)) yq
  let i := Spline.interval s.x xq
  let j := Spline.interval s.y yq
  let hx := nth s.x (i + 1) - nth s.x i
  let hy := nth s.y (j + 1) - nth s.y j
  let t := (xq - nth s.x i) / hx
  let u := (yq - nth s.y j) / hy
  s.patch i j (weightsX t) (weightsY u) hx hy * scaleX hx * scaleY hy

/-- The spline's value. -/
def value (s : BicubicSpline α) (x y : α) : α :=
  s.evalWith hermite hermite (fun _ ↦ 1) (fun _ ↦ 1) x y

/-- The derivative along `x`. -/
def derivativeX (s : BicubicSpline α) (x y : α) : α :=
  s.evalWith hermiteSlope hermite (fun hx ↦ 1 / hx) (fun _ ↦ 1) x y

/-- The derivative along `y`. -/
def derivativeY (s : BicubicSpline α) (x y : α) : α :=
  s.evalWith hermite hermiteSlope (fun _ ↦ 1) (fun hy ↦ 1 / hy) x y

end BicubicSpline

end PlasmaField
