import PlasmaField.Error
import PlasmaField.Table

/-!
# Rectangular grids in the poloidal plane

A `Grid` has equally spaced columns in the major radius and rows in the height. Samples on it are
tables with one row per height.
-/

namespace PlasmaField

/-- A rectangular grid: the coordinates of its columns and rows, and the spacing in each
direction. -/
structure Grid (α : Type) where
  r : Array α
  z : Array α
  dr : α
  dz : α

namespace Grid

open Scalar (nth)

variable {α : Type} [Scalar α]

/-- The spacing of equally spaced coordinates; the whole span if there are fewer than two. -/
def spacing (xs : Array α) (lower upper : α) : α :=
  if 1 < xs.size then nth xs 1 - nth xs 0 else upper - lower

/-- The grid with `nr` columns from `rMin` to `rMax` and `nz` rows from `zMin` to `zMax`. -/
def uniform (nr nz : Nat) (rMin rMax zMin zMax : α) : Grid α :=
  let r := Scalar.linspace rMin rMax nr
  let z := Scalar.linspace zMin zMax nz
  ⟨r, z, spacing r rMin rMax, spacing z zMin zMax⟩

/-- The grid as equilibrium files describe it: by its left edge and width in the major radius, and
by its middle and its extent in the height. -/
def ofExtents (nr nz : Nat) (rLeft rDim zMid zDim : α) : Except (FieldError α) (Grid α) := do
  if nr < 2 || nz < 2 then
    throw (.shape (.smallGrid nr nz))
  if !([rLeft, rDim, zMid, zDim].all Scalar.isFinite) then
    throw (.config .gridExtentsNotFinite)
  if rDim ≤ 0 || zDim ≤ 0 then
    throw (.config (.gridExtentsNotPositive rDim zDim))
  return uniform nr nz rLeft (rLeft + rDim) (zMid - 0.5 * zDim) (zMid + 0.5 * zDim)

/-- The number of columns. -/
def nr (g : Grid α) : Nat :=
  g.r.size

/-- The number of rows. -/
def nz (g : Grid α) : Nat :=
  g.z.size

/-- The major radius of every grid point. -/
def radii (g : Grid α) : Table α :=
  Table.ofFn g.nz g.nr fun _ j ↦ nth g.r j

/-- The height of every grid point. -/
def heights (g : Grid α) : Table α :=
  Table.ofFn g.nz g.nr fun i _ ↦ nth g.z i

/-- The left edge. -/
def rMin (g : Grid α) : α :=
  nth g.r 0

/-- The right edge. -/
def rMax (g : Grid α) : α :=
  nth g.r (g.nr - 1)

/-- The lower edge. -/
def zMin (g : Grid α) : α :=
  nth g.z 0

/-- The upper edge. -/
def zMax (g : Grid α) : α :=
  nth g.z (g.nz - 1)

end Grid

end PlasmaField
