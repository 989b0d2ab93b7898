import PlasmaField.Delaunay
import PlasmaField.Error

/-!
# Interpolation of scattered samples

Samples at scattered points are interpolated linearly on the triangles of the points' Delaunay
triangulation. Points that nearly coincide are merged into the first of them. A target takes its
weights from the first triangle, in the order of the triangulation, that holds it up to a small
slack; `Scattered.weightsOn?` is that test. The triangles to be tested are found through buckets
over the bounding box, which only shortens the search. Targets that no triangle holds get a fill
value.
-/

namespace PlasmaField

open Delaunay (Box boundingBox pointAt)

/-- Three input points with the weights that a target has with respect to them. -/
structure Stencil (α : Type) where
  i : Nat
  j : Nat
  k : Nat
  wi : α
  wj : α
  wk : α

/-- The weighted sum of the samples that a stencil names. -/
def Stencil.combine {α : Type} [Scalar α] (e : Stencil α) (values : Array α) : α :=
  e.wi * Scalar.nth values e.i + e.wj * Scalar.nth values e.j + e.wk * Scalar.nth values e.k

/-- Square buckets over the bounding box of a triangulation. Each lists the triangles whose own
bounding box reaches into it, in their order. -/
structure Buckets (α : Type) where
  x₀ : α
  y₀ : α
  cellX : α
  cellY : α
  side : Nat
  cells : Array (List (Triangle α))

namespace Buckets

variable {α : Type} [Scalar α]

/-- The number of buckets along a side, for about two triangles in a bucket: the least positive one
whose square is at least half the number of triangles. -/
def sideFor (triangles : Nat) : Nat :=
  Max.max 1 ((List.range (triangles + 1)).findIdx fun k ↦ triangles ≤ 2 * k * k)

/-- The column and row of the bucket that a point falls into; points beyond the buckets fall into
the nearest ones. -/
def cellOf (x₀ y₀ cellX cellY : α) (side : Nat) (x y : α) : Nat × Nat :=
  (Scalar.floorUpTo (side - 1) ((x - x₀) / cellX), Scalar.floorUpTo (side - 1) ((y - y₀) / cellY))

/-- The buckets for the triangles of the given points. -/
def ofTriangles (points : Array (Point α)) (triangles : List (Triangle α)) : Buckets α :=
  let box := boundingBox points.toList
  let side := sideFor triangles.length
  let cellX := Scalar.max ((box.x₁ - box.x₀) / Scalar.ofNat side) Scalar.tiny
  let cellY := Scalar.max ((box.y₁ - box.y₀) / Scalar.ofNat side) Scalar.tiny
  let reaches := triangles.map fun t ↦
    let own := boundingBox (t.corners.map (pointAt points))
    (t, cellOf box.x₀ box.y₀ cellX cellY side own.x₀ own.y₀,
      cellOf box.x₀ box.y₀ cellX cellY side own.x₁ own.y₁)
  ⟨box.x₀, box.y₀, cellX, cellY, side,
    Array.ofFn fun k : Fin (side * side) ↦
      let i := k.val % side
      let j := k.val / side
      (reaches.filter fun (_, low, high) ↦
        low.1 ≤ i && i ≤ high.1 && low.2 ≤ j && j ≤ high.2).map (·.1)⟩

/-- The triangles that may hold a point. -/
def candidates (b : Buckets α) (x y : α) : List (Triangle α) :=
  let (i, j) := cellOf b.x₀ b.y₀ b.cellX b.cellY b.side x y
  b.cells.getD (j * b.side + i) []

end Buckets

/-- A piecewise linear interpolant of scattered samples: the distinct points, their triangles, the
input point that each of them stands for, the number of input points, the input's bounding box, and
the buckets of the triangles. -/
structure Scattered (α : Type) where
  points : Array (Point α)
  triangles : List (Triangle α)
  representative : Array Nat
  inputs : Nat
  box : Box α
  buckets : Buckets α

namespace Scattered

variable {α : Type} [Scalar α]

/-- Points in one square of this fraction of the extent are merged. -/
def mergeDistance : α := 1e-10

/-- The slack allowed to a weight on the wrong side of an edge. -/
def slack : α := 1e-10

/-- The square of the merging grid that a point lies in, with the grid's origin and spacing. -/
def square (x₀ y₀ spacing : α) (p : Point α) : Int × Int :=
  (Scalar.nearest ((p.x - x₀) / spacing), Scalar.nearest ((p.y - y₀) / spacing))

/-- The input points that are kept, with their numbers: the first one in each square. -/
def distinct (x₀ y₀ spacing : α) (points : Array (Point α)) : List (Point α × Nat) :=
  ((points.toList.zipIdx.map fun p ↦ (square x₀ y₀ spacing p.1, p)).eraseDupsBy
    fun p q ↦ p.1 == q.1).map (·.2)

/-- The interpolant over the given points. -/
def ofPoints (points : Array (Point α)) : Except (FieldError α) (Scattered α) := do
  if points.any fun p ↦ !Scalar.isFinite p.x || !Scalar.isFinite p.y then
    throw (.physics .scatteredNotFinite)
  let box := boundingBox points.toList
  let extent := Scalar.max (box.x₁ - box.x₀) (box.y₁ - box.y₀)
  if points.isEmpty || !(0 < extent) then
    throw (.shape (.fewScattered points.size))
  let kept := distinct box.x₀ box.y₀ (extent * mergeDistance) points
  let unique := (kept.map (·.1)).toArray
  let triangles := Delaunay.triangulate unique
  if triangles.isEmpty then
    throw (.shape (.untriangulated unique.size))
  return ⟨unique, triangles, (kept.map (·.2)).toArray, points.size, box,
    Buckets.ofTriangles unique triangles⟩

/-- The weights of a target with respect to a triangle's corners, if the triangle is not too thin
and holds the target up to the slack. -/
def weightsOn? (points : Array (Point α)) (t : Triangle α) (x y : α) : Option (α × α × α) :=
  let a := pointAt points t.a
  let b := pointAt points t.b
  let c := pointAt points t.c
  let det := (b.y - c.y) * (a.x - c.x) + (c.x - b.x) * (a.y - c.y)
  if Scalar.abs det ≤
      Scalar.epsilon * Scalar.pow (Scalar.abs (a.x - c.x) + Scalar.abs (a.y - c.y)) 2 then
    none
  else
    let w₁ := ((b.y - c.y) * (x - c.x) + (c.x - b.x) * (y - c.y)) / det
    let w₂ := ((c.y - a.y) * (x - c.x) + (a.x - c.x) * (y - c.y)) / det
    let w₃ := 1 - w₁ - w₂
    if -slack ≤ w₁ && -slack ≤ w₂ && -slack ≤ w₃ then some (w₁, w₂, w₃) else none

/-- The stencil of a target on a triangle that holds it, in terms of input points. -/
def stencilOn? (s : Scattered α) (x y : α) (t : Triangle α) : Option (Stencil α) :=
  (weightsOn? s.points t x y).map fun (w₁, w₂, w₃) ↦
    ⟨s.representative.getD t.a 0, s.representative.getD t.b 0, s.representative.getD t.c 0,
      w₁, w₂, w₃⟩

/-- The stencil of a target on the first triangle that holds it. -/
def locate (s : Scattered α) (x y : α) : Option (Stencil α) :=
  if Scalar.within s.box.x₀ s.box.x₁ x && Scalar.within s.box.y₀ s.box.y₁ y then
    (s.buckets.candidates x y).findSome? (s.stencilOn? x y)
  else none

/-- The stencils of a list of targets. -/
def stencils (s : Scattered α) (targets : List (Point α)) : List (Option (Stencil α)) :=
  targets.map fun p ↦ s.locate p.x p.y

/-- Applies stencils to samples, one per input point. -/
def apply (s : Scattered α) (stencils : List (Option (Stencil α))) (values : Array α) (fill : α) :
    Except (FieldError α) (List α) :=
  if values.size != s.inputs then .error (.shape (.scatteredValues values.size s.inputs))
  else .ok (stencils.map fun e ↦ e.elim fill (·.combine values))

/-- The interpolated values at a list of targets. -/
def interpolate (s : Scattered α) (values : Array α) (targets : List (Point α)) (fill : α) :
    Except (FieldError α) (List α) :=
  s.apply (s.stencils targets) values fill

end Scattered

end PlasmaField
