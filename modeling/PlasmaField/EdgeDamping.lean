import PlasmaField.Grid
import PlasmaField.Parameters

/-!
# Damping near the walls of a box

Within a strip along each wall of a rectangular box the damping factor falls linearly from one at
the strip's inner line to zero at the wall; beyond the wall it is zero. In a corner the smaller
factor counts.
-/

namespace PlasmaField

/-- A strip along a wall, from its inner line to the wall. -/
structure Strip (α : Type) where
  inner : α
  outer : α

/-- The damped strips along the four walls of a box, and whether they are in force. -/
structure EdgeDamping (α : Type) where
  mode : DampingMode
  left : Strip α
  right : Strip α
  bottom : Strip α
  top : Strip α

/-- One at the strip's inner line and zero at the wall, linear in between and beyond. -/
def Strip.factor {α : Type} [Scalar α] (s : Strip α) (v : α) : α :=
  if s.inner == s.outer then 1 else (v - s.inner) / (s.inner - s.outer) + 1

namespace EdgeDamping

variable {α : Type} [Scalar α]

/-- The damping on a grid. Strips of opposite walls must leave part of the grid free. Widths are
doubled in 64-bit words. -/
def ofParameters (grid : Grid α) (p : DampingParameters) : Except (FieldError α) (EdgeDamping α) :=
  if grid.nr ≤ (2 * p.xBoundary).toNat || grid.nz ≤ (2 * p.zBoundary).toNat then
    .error (.config (.overlappingBuffers p.xBoundary p.zBoundary grid.nr grid.nz))
  else
    let wx := Scalar.ofNat p.xBoundary.toNat * grid.dr
    let wz := Scalar.ofNat p.zBoundary.toNat * grid.dz
    .ok
      { mode := p.mode
        left := ⟨grid.rMin + wx, grid.rMin⟩
        right := ⟨grid.rMax - wx, grid.rMax⟩
        bottom := ⟨grid.zMin + wz, grid.zMin⟩
        top := ⟨grid.zMax - wz, grid.zMax⟩ }

/-- Lowers a factor by the strip that holds a coordinate, if one does. -/
def lower (p : α) (low high : Strip α) (v : α) : α :=
  if v < low.inner then Scalar.min p (low.factor v)
  else if high.inner ≤ v then Scalar.min p (high.factor v)
  else p

/-- The damping factor at a point, between zero and one. -/
def factor (d : EdgeDamping α) (x z : α) : α :=
  Scalar.max (lower (lower 1 d.left d.right x) d.bottom d.top z) 0

/-- A poloidal component at a point as the wrapper reports it. -/
def apply (d : EdgeDamping α) (component x z : α) : α :=
  match d.mode with
  | .passThrough => component
  | .damped => component * d.factor x z

/-- A poloidal component at the points with the given coordinates as the wrapper reports it: each
element is multiplied by the factor at its point. -/
def applyEach (d : EdgeDamping α) (component x z : ShapedArray α) : ShapedArray α :=
  match d.mode with
  | .passThrough => component
  | .damped => component.mapIdx fun k b ↦ b * d.factor (Scalar.nth x.data k) (Scalar.nth z.data k)

/-- Damping keeps the shape of an array. -/
@[simp]
theorem shape_applyEach (d : EdgeDamping α) (component x z : ShapedArray α) :
    (d.applyEach component x z).shape = component.shape := by
  unfold applyEach
  split <;> rfl

end EdgeDamping

end PlasmaField
