import PlasmaField.Boundary
import PlasmaField.Dataset
import PlasmaField.Grid
import PlasmaField.Spline.Bicubic

/-!
# Axisymmetric equilibria given by their poloidal flux

The poloidal flux `ψ` is sampled on a grid of the poloidal plane, and the profiles `f = R · B_φ` and
the pressure at equally spaced values of the normalized flux. The normalized flux is zero on the
magnetic axis and one at the edge of the plasma and everywhere outside it. Fluxes are interpolated
by bicubic and profiles by cubic splines.
-/

namespace PlasmaField

open Scalar (nth)

/-- The data of an axisymmetric equilibrium: the extents of its grid, the flux on the grid with one
row per height, the flux on the axis and at the edge, the profiles, the outline of the plasma, and
the outline of the limiter, where given. -/
structure FluxInput (α : Type) where
  rLeft : α
  rDim : α
  zMid : α
  zDim : α
  psi : Table α
  axisFlux : α
  edgeFlux : α
  fpol : Array α
  pressure : Array α
  coreR : Array α
  coreZ : Array α
  limiterR : Option (Array α)
  limiterZ : Option (Array α)

/-- An axisymmetric equilibrium: its grid, the flux and the normalized flux as splines, the profiles
over the normalized flux, and the domain within the limiter. -/
structure FluxEquilibrium (α : Type) where
  grid : Grid α
  psi : BicubicSpline α
  psiNorm : BicubicSpline α
  fpol : CubicSpline α
  pressure : CubicSpline α
  domain : Boundary α

/-- Takes the data from named arrays. -/
def FluxInput.ofNamed {α : Type} (arrays : Dataset α) :
    Except (FieldError α) (FluxInput α) := do
  return {
    rLeft := ← arrays.scalar "rleft"
    rDim := ← arrays.scalar "rdim"
    zMid := ← arrays.scalar "zmid"
    zDim := ← arrays.scalar "zdim"
    psi := ← arrays.table "psirz"
    axisFlux := ← arrays.scalar "simag"
    edgeFlux := ← arrays.scalar "sibry"
    fpol := ← arrays.vector "fpol"
    pressure := ← arrays.vector "pres"
    coreR := ← arrays.vector "rbbbs"
    coreZ := ← arrays.vector "zbbbs"
    limiterR := ← Dataset.optional Dataset.vector arrays "rlim"
    limiterZ := ← Dataset.optional Dataset.vector arrays "zlim" }

namespace FluxEquilibrium

variable {α : Type} [Scalar α]

/-- The normalized flux at the edge of the plasma and outside it. -/
def edge : α := 1

/-- A profile must have one sample per column of the grid. -/
def checkProfile (name : String) (profile : Array α) (nr : Nat) :
    Except (FieldError α) Unit :=
  if profile.size != nr then .error (.shape (.profileLength name profile.size nr)) else .ok ()

/-- The normalized flux at the grid points. -/
def normalizedFlux (grid : Grid α) (core : Polygon α) (psi : Table α) (axisFlux span : α) :
    Table α :=
  Table.ofFn psi.rows psi.cols fun i j ↦
    if core.contains ⟨nth grid.r j, nth grid.z i⟩ then (psi.get i j - axisFlux) / span else edge

/-- The domain within the limiter: unbounded where no limiter is given, or one without vertices. -/
def limiterDomain (r z : Option (Array α)) : Except (FieldError α) (Boundary α) :=
  match r, z with
  | some r, some z =>
    if r.isEmpty then .ok .unbounded else (Polygon.ofVertices r z).map .within
  | none, none => .ok .unbounded
  | _, _ => .error (.shape .halfLimiter)

/-- The equilibrium with the given data. -/
def ofInput (input : FluxInput α) : Except (FieldError α) (FluxEquilibrium α) := do
  let nr := input.psi.cols
  let grid ← Grid.ofExtents nr input.psi.rows input.rLeft input.rDim input.zMid input.zDim
  let span := input.edgeFlux - input.axisFlux
  if !Scalar.isFinite span || span == 0 then
    throw (.physics (.equalFluxes input.axisFlux input.edgeFlux))
  checkProfile "fpol" input.fpol nr
  checkProfile "pres" input.pressure nr
  let psi ← BicubicSpline.through grid.r grid.z input.psi
  let core ← Polygon.ofVertices input.coreR input.coreZ
  let psiNorm ← BicubicSpline.through grid.r grid.z
    (normalizedFlux grid core input.psi input.axisFlux span)
  let fluxes := Scalar.linspace 0 1 nr
  let fpol ← CubicSpline.through fluxes input.fpol
  let pressure ← CubicSpline.through fluxes input.pressure
  let domain ← limiterDomain input.limiterR input.limiterZ
  return ⟨grid, psi, psiNorm, fpol, pressure, domain⟩

/-- The radial component at a point, from the flux's derivative along the height. -/
def br (e : FluxEquilibrium α) (r z : α) : α :=
  -e.psi.derivativeY r z / r

/-- The vertical component at a point, from the flux's derivative along the radius. -/
def bz (e : FluxEquilibrium α) (r z : α) : α :=
  e.psi.derivativeX r z / r

/-- The toroidal component at a point. -/
def bphi (e : FluxEquilibrium α) (r z : α) : α :=
  e.fpol.eval (e.psiNorm.value r z) / r

/-- The pressure at a point. -/
def pressureAt (e : FluxEquilibrium α) (r z : α) : α :=
  e.pressure.eval (e.psiNorm.value r z)

end FluxEquilibrium

end PlasmaField
