import PlasmaField.ShapedArray
import PlasmaField.Spline.Cubic

/-!
# Multilinear interpolation on rectilinear grids

A `Multilinear` interpolant holds samples at the nodes of a grid with one increasing axis per
coordinate. Within the grid a value is the sum of the samples at the corners of the cell, each
weighted by its share along every axis; outside it is the fill value. Corners of weight zero are
left out, so an unusable sample spoils no neighbouring cell.
-/

namespace PlasmaField

open Scalar (nth)

/-- Samples on a rectilinear grid, with the value for queries outside it. -/
structure Multilinear (α : Type) where
  axes : List (Array α)
  samples : ShapedArray α
  fill : α

namespace Multilinear

variable {α : Type} [Scalar α]

/-- The greatest number of axes. -/
def maxAxes : Nat := 4

/-- Axis number `k` is usable for samples with the given number of entries along it. -/
def checkAxis (k : Nat) (axis : Array α) (entries : Nat) : Except (FieldError α) Unit := do
  if axis.size < 2 then
    throw (.shape (.shortAxis k axis.size))
  if axis.size != entries then
    throw (.shape (.axisLength k axis.size entries))
  if !axis.all Scalar.isFinite || !Scalar.increasing axis.toList then
    throw (.physics (.axisNotIncreasing k))

/-- Every axis, from number `k` on, is usable for samples of the given shape. -/
def checkAxes (k : Nat) : List (Array α) → List Nat → Except (FieldError α) Unit
  | axis :: axes, entries :: shape => do
    checkAxis k axis entries
    checkAxes (k + 1) axes shape
  | _, _ => return ()

/-- The interpolant of the given samples, which must have one dimension per axis. -/
def ofSamples (axes : List (Array α)) (samples : ShapedArray α) (fill : α) :
    Except (FieldError α) (Multilinear α) := do
  if axes.isEmpty || maxAxes < axes.length then
    throw (.shape (.axisCount axes.length))
  if samples.rank != axes.length then
    throw (.shape (.sampleRank axes.length samples.rank))
  checkAxes 0 axes samples.shape
  return ⟨axes, samples, fill⟩

/-- The number of axes. -/
def rank (g : Multilinear α) : Nat :=
  g.axes.length

/-- The cell of an axis that holds a coordinate, and the coordinate's place within it; `none`
outside the axis. -/
def cell? (axis : Array α) (v : α) : Option (Nat × α) :=
  if Scalar.within (nth axis 0) (nth axis (axis.size - 1)) v then
    let i := Spline.interval axis v
    some (i, (v - nth axis i) / (nth axis (i + 1) - nth axis i))
  else none

/-- A corner of a cell: its weight, and the place of its sample in row-major order. -/
structure Corner (α : Type) where
  weight : α
  place : Nat

/-- Splits every corner along one axis: first all lower corners, then all upper ones. -/
def splitAlong (corners : List (Corner α)) (i : Nat) (t : α) (stride : Nat) : List (Corner α) :=
  (corners.map fun c ↦ ⟨c.weight * (1 - t), c.place + i * stride⟩) ++
    (corners.map fun c ↦ ⟨c.weight * t, c.place + (i + 1) * stride⟩)

/-- The corners of the cell with the given number and inner place along every axis, the first axis
alternating fastest. -/
def cornersFrom (corners : List (Corner α)) :
    List (Nat × α) → List Nat → List (Corner α)
  | (i, t) :: cells, _ :: shape =>
    cornersFrom (splitAlong corners i t (ShapedArray.volume shape)) cells shape
  | _, _ => corners

/-- The cell's corners with their weights. -/
def corners (shape : List Nat) (cells : List (Nat × α)) : List (Corner α) :=
  cornersFrom [⟨1, 0⟩] cells shape

/-- The interpolated value at a point with one coordinate per axis. -/
def eval (g : Multilinear α) (point : List α) : α :=
  match (g.axes.zip point).mapM fun p ↦ cell? p.1 p.2 with
  | none => g.fill
  | some cells =>
    (corners g.samples.shape cells).foldl
      (fun acc c ↦ if c.weight == 0 then acc else acc + c.weight * nth g.samples.data c.place) 0

/-- The interpolated values at many points, given by one array per axis. The arrays share a shape,
which the result has too. -/
def evalShaped (g : Multilinear α) (coordinates : List (ShapedArray α)) :
    Except (FieldError α) (ShapedArray α) := do
  if coordinates.length != g.rank then
    throw (.shape (.coordinateCount g.rank coordinates.length))
  let shape := coordinates.head?.elim [] (·.shape)
  if coordinates.any (·.shape != shape) then
    throw (.shape .coordinateArrays)
  return ⟨shape,
    Array.ofFn fun k : Fin (ShapedArray.volume shape) ↦ g.eval (coordinates.map (nth ·.data k)),
    by simp⟩

end Multilinear

end PlasmaField
