import PlasmaField.EdgeDamping
import PlasmaField.Equilibrium.Flux
import PlasmaField.Equilibrium.Regridded
import PlasmaField.LineCurrent

/-!
# Magnetic fields

A `MagneticField` is one of a few analytic fields, an equilibrium, or another field whose poloidal
components are damped near the walls of a box. Every field has three components, a pressure, a
boundary of its domain and named attributes; a field in cylindrical geometry also has a major
radius. Everything is evaluated point by point. Whether there is a major radius, and which
attributes there are, depends on the field alone.
-/

namespace PlasmaField

/-- A place: the radial and the vertical coordinate, and the toroidal angle, or the axial coordinate
of a field without curvature. -/
structure Position (α : Type) where
  x : α
  z : α
  phi : α

/-- A magnetic field. -/
inductive MagneticField (α : Type) where
  | uniform
  | slab (parameters : SlabParameters α)
  | curvedSlab (parameters : CurvedSlabParameters α)
  | lineCurrents (coils : List (LineCurrent α))
  | straightStellarator (coils : List (LineCurrent α))
  | rotatingEllipse (coils : List (LineCurrent α)) (bTor : α)
  | flux (equilibrium : FluxEquilibrium α)
  | spectral (equilibrium : RegriddedField α)
  | smoothed (inner : MagneticField α) (damping : EdgeDamping α)

namespace MagneticField

variable {α : Type} [ElementaryScalar α]

/-- The field along `z` of a sheared slab. -/
def sheared (bZ xCentre bZPrime x : α) : α :=
  bZ + (x - xCentre) * bZPrime

/-- The radial component. -/
def radial : MagneticField α → Position α → α
  | .uniform, _ => 0
  | .slab _, _ => 0
  | .curvedSlab _, _ => 0
  | .lineCurrents coils, p => -(LineCurrent.potential coils p.x p.z p.phi).dz
  | .straightStellarator coils, p => -(LineCurrent.potential coils p.x p.z p.phi).dz
  | .rotatingEllipse coils _, p => -(LineCurrent.potential coils p.x p.z p.phi).dz
  | .flux e, p => e.br p.x p.z
  | .spectral e, p => RegriddedField.lookup e.br p.x p.z p.phi
  | .smoothed inner damping, p => damping.apply (inner.radial p) p.x p.z

/-- The toroidal or axial component. -/
def toroidal : MagneticField α → Position α → α
  | .uniform, _ => 1
  | .slab s, _ => s.bY
  | .curvedSlab s, _ => s.bY
  | .lineCurrents _, _ => 1
  | .straightStellarator _, _ => 1
  | .rotatingEllipse _ bTor, p => bTor / p.x
  | .flux e, p => e.bphi p.x p.z
  | .spectral e, p => RegriddedField.lookup e.bphi p.x p.z p.phi
  | .smoothed inner _, p => inner.toroidal p

/-- The vertical component. -/
def vertical : MagneticField α → Position α → α
  | .uniform, _ => 0
  | .slab s, p => sheared s.bZ s.xCentre s.bZPrime p.x
  | .curvedSlab s, p => sheared s.bZ s.xCentre s.bZPrime p.x
  | .lineCurrents coils, p => (LineCurrent.potential coils p.x p.z p.phi).dx
  | .straightStellarator coils, p => (LineCurrent.potential coils p.x p.z p.phi).dx
  | .rotatingEllipse coils _, p => (LineCurrent.potential coils p.x p.z p.phi).dx
  | .flux e, p => e.bz p.x p.z
  | .spectral e, p => RegriddedField.lookup e.bz p.x p.z p.phi
  | .smoothed inner damping, p => damping.apply (inner.vertical p) p.x p.z

/-- The magnitude. -/
def magnitude (field : MagneticField α) (p : Position α) : α :=
  let x := field.radial p
  let y := field.toroidal p
  let z := field.vertical p
  ElementaryScalar.sqrt (x * x + y * y + z * z)

/-- The major radius, for a field in cylindrical geometry. -/
def majorRadius? : MagneticField α → Option (Position α → α)
  | .curvedSlab s => some fun _ ↦ s.rMaj
  | .rotatingEllipse _ _ => some (·.x)
  | .flux _ => some (·.x)
  | .spectral _ => some (·.x)
  | .smoothed inner _ => inner.majorRadius?
  | _ => none

/-- The pressure. -/
def pressure : MagneticField α → Position α → α
  | .flux e, p => e.pressureAt p.x p.z
  | .smoothed inner _, p => inner.pressure p
  | _, _ => 0

/-- The boundary of the domain. -/
def boundary : MagneticField α → Boundary α
  | .flux e => e.domain
  | .smoothed inner _ => inner.boundary
  | _ => .unbounded

/-- The names of the attributes. -/
def attributes : MagneticField α → List String
  | .lineCurrents _ => ["A"]
  | .straightStellarator _ => ["A"]
  | .rotatingEllipse _ _ => ["A"]
  | .flux _ => ["psi", "psinorm"]
  | .smoothed inner _ => inner.attributes
  | _ => []

/-- The potential of line currents as an attribute. -/
def potentialAttribute? (coils : List (LineCurrent α)) (name : String) :
    Option (Position α → α) :=
  if name = "A" then some fun p ↦ (LineCurrent.potential coils p.x p.z p.phi).value else none

/-- The attribute with a name, if there is one. -/
def attribute? : MagneticField α → String → Option (Position α → α)
  | .lineCurrents coils, name => potentialAttribute? coils name
  | .straightStellarator coils, name => potentialAttribute? coils name
  | .rotatingEllipse coils _, name => potentialAttribute? coils name
  | .flux e, name =>
    if name = "psi" then some fun p ↦ e.psi.value p.x p.z
    else if name = "psinorm" then some fun p ↦ e.psiNorm.value p.x p.z
    else none
  | .smoothed inner _, name => inner.attribute? name
  | _, _ => none

/-- The coils of a field of line currents. -/
def coils? : MagneticField α → Option (List (LineCurrent α))
  | .lineCurrents coils => some coils
  | .straightStellarator coils => some coils
  | .rotatingEllipse coils _ => some coils
  | _ => none

/-- The field of the given line currents. -/
def ofCoils (coils : List (LineCurrent α)) : Except (FieldError α) (MagneticField α) :=
  (LineCurrent.check coils).map .lineCurrents

/-- Builds an analytic field, after a check of its parameters. -/
def build (field : AnalyticField α) : Except (FieldError α) (MagneticField α) := do
  field.validate
  match field with
  | .uniform => return .uniform
  | .slab p => return .slab p
  | .curvedSlab p => return .curvedSlab p
  | .straightStellarator p =>
    return .straightStellarator (← LineCurrent.check (LineCurrent.fourCoils p))
  | .rotatingEllipse p =>
    return .rotatingEllipse (← LineCurrent.check (LineCurrent.fourCoils p)) p.bTor

/-- The field of an axisymmetric equilibrium under the names of its data. -/
def ofFlux (arrays : Dataset α) : Except (FieldError α) (MagneticField α) := do
  return .flux (← FluxEquilibrium.ofInput (← FluxInput.ofNamed arrays))

/-- Damps a field near the walls of a grid's rectangle. -/
def smooth (inner : MagneticField α) (grid : Grid α) (p : DampingParameters) :
    Except (FieldError α) (MagneticField α) :=
  (EdgeDamping.ofParameters grid p).map (.smoothed inner)

end MagneticField

end PlasmaField
