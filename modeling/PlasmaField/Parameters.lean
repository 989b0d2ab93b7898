import PlasmaField.Error

/-!
# Parameters of fields, grids and wrappers

The parameters of the analytic fields, of the regular grid that a spectral equilibrium is resampled
on, and of the damping near the walls, with their defaults and the conditions under which they make
sense. `AnalyticField` is the choice among the analytic fields.
-/

namespace PlasmaField

/-- A sheared slab: the field along `y`, and the field along `z` with its value at `xCentre` and its
shear. -/
structure SlabParameters (α : Type) where
  bY : α
  bZ : α
  xCentre : α
  bZPrime : α
  deriving DecidableEq, Repr

/-- A sheared slab bent around a constant major radius. -/
structure CurvedSlabParameters (α : Type) where
  bY : α
  bZ : α
  xCentre : α
  bZPrime : α
  rMaj : α
  deriving DecidableEq, Repr

/-- Four coils at distance `radius` from the centre, which turn around it once per `yPeriod`, with
the current in each and the toroidal field strength. -/
structure StellaratorParameters (α : Type) where
  xCentre : α
  zCentre : α
  radius : α
  yPeriod : α
  iCoil : α
  bTor : α
  deriving DecidableEq, Repr

/-- The resolution of a spectral synthesis, where given, and of the regular grid behind it, and
whether the synthesized mesh is kept. -/
structure RegridParameters where
  nTheta : Option UInt64
  nZeta : Option UInt64
  nr : UInt64
  nz : UInt64
  retainMesh : Bool
  deriving DecidableEq, Repr

/-- What a damping wrapper does to the poloidal components. -/
inductive DampingMode where
  | passThrough
  | damped
  deriving DecidableEq, Repr

/-- The widths of the damped strips along the walls, in grid cells. -/
structure DampingParameters where
  xBoundary : UInt64
  zBoundary : UInt64
  mode : DampingMode
  deriving DecidableEq, Repr

/-- An analytic field by its kind and parameters. -/
inductive AnalyticField (α : Type) where
  | uniform
  | slab (parameters : SlabParameters α)
  | curvedSlab (parameters : CurvedSlabParameters α)
  | straightStellarator (parameters : StellaratorParameters α)
  | rotatingEllipse (parameters : StellaratorParameters α)
  deriving DecidableEq, Repr

/-- Fails for a parameter set in which some value is not finite. -/
def checkFinite {α : Type} [Scalar α] (parameters : ParameterSet) (values : List α) :
    Except (FieldError α) Unit :=
  if values.all Scalar.isFinite then .ok () else .error (.config (.notFinite parameters))

namespace SlabParameters

variable {α : Type} [Scalar α]

/-- The parameters that hold where none are given. -/
def default : SlabParameters α := ⟨1, 0.1, 0, 1⟩

/-- All parameters are finite. -/
def validate (p : SlabParameters α) : Except (FieldError α) Unit :=
  checkFinite .slab [p.bY, p.bZ, p.xCentre, p.bZPrime]

end SlabParameters

namespace CurvedSlabParameters

variable {α : Type} [Scalar α]

/-- The parameters that hold where none are given. -/
def default : CurvedSlabParameters α := ⟨1, 0.1, 0, 1, 1⟩

/-- All parameters are finite and the major radius is positive. -/
def validate (p : CurvedSlabParameters α) : Except (FieldError α) Unit := do
  checkFinite .curvedSlab [p.bY, p.bZ, p.xCentre, p.bZPrime, p.rMaj]
  if p.rMaj ≤ 0 then
    throw (.config (.majorRadius p.rMaj))

end CurvedSlabParameters

namespace StellaratorParameters

/-- The parameters that hold where none are given. -/
def default {α : Type} [ElementaryScalar α] : StellaratorParameters α :=
  ⟨0, 0, 0.8, ElementaryScalar.pi, 0.05, 1⟩

/-- All parameters are finite, the coils' distance is positive and the period is not zero. -/
def validate {α : Type} [Scalar α] (p : StellaratorParameters α) :
    Except (FieldError α) Unit := do
  checkFinite .stellarator [p.xCentre, p.zCentre, p.radius, p.yPeriod, p.iCoil, p.bTor]
  if p.radius ≤ 0 then
    throw (.config (.coilRadius p.radius))
  if p.yPeriod == 0 then
    throw (.config .zeroPeriod)

/-- The angle by which the coils turn per unit of `y`. -/
def iota {α : Type} [ElementaryScalar α] (p : StellaratorParameters α) : α :=
  2 * ElementaryScalar.pi / p.yPeriod

end StellaratorParameters

namespace RegridParameters

/-- The parameters that hold where none are given. -/
def default : RegridParameters := ⟨none, none, 32, 32, false⟩

/-- The grid has cells in both directions, and the angular resolutions that are given suffice. A
single toroidal slice does, for an axisymmetric equilibrium. -/
def validate {α : Type} (p : RegridParameters) : Except (FieldError α) Unit := do
  if p.nr < 2 || p.nz < 2 then
    throw (.config (.coarseRegrid p.nr p.nz))
  if p.nTheta.any (· < 2) then
    throw (.config .poloidalSamples)
  if p.nZeta = some 0 then
    throw (.config .toroidalSamples)

end RegridParameters

/-- The parameters that hold where none are given. -/
def DampingParameters.default : DampingParameters := ⟨4, 4, .damped⟩

/-- The parameters of an analytic field make sense. -/
def AnalyticField.validate {α : Type} [Scalar α] :
    AnalyticField α → Except (FieldError α) Unit
  | .uniform => .ok ()
  | .slab p => p.validate
  | .curvedSlab p => p.validate
  | .straightStellarator p => p.validate
  | .rotatingEllipse p => p.validate

end PlasmaField
