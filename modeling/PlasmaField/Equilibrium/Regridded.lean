import PlasmaField.Equilibrium.Spectral
import PlasmaField.Multilinear
import PlasmaField.Scattered

/-!
# Spectral equilibria on a regular grid

For quick look-up the field of a spectral equilibrium is resampled on a regular grid of the major
radius, the height and the toroidal angle. Each toroidal slice of the mesh is interpolated as
scattered samples; outside the mesh the poloidal components are zero and the toroidal component is
one, which keeps field lines defined. Later queries interpolate on the regular grid, with the
toroidal angle wrapped into one turn.
-/

namespace PlasmaField

open Scalar (nth)

/-- A spectral equilibrium resampled on a regular grid, with its mesh where that is kept. -/
structure RegriddedField (α : Type) where
  br : Multilinear α
  bz : Multilinear α
  bphi : Multilinear α
  mesh : Option (SurfaceMesh α)

namespace RegriddedField

variable {α : Type} [ElementaryScalar α]

/-- The value of the poloidal components outside the mesh. -/
def outsidePoloidal : α := 0

/-- The value of the toroidal component outside the mesh. -/
def outsideToroidal : α := 1

/-- The toroidal angle of a full turn. -/
def fullTurn : α := 2 * ElementaryScalar.pi

/-- The resampled components of one toroidal slice, by column of the regular grid and then by
height. -/
structure Slice (α : Type) where
  br : Array α
  bz : Array α
  bphi : Array α

/-- Resamples toroidal slice `k` of a mesh at the given radii and heights. -/
def resample (mesh : SurfaceMesh α) (r z : Array α) (k : Nat) :
    Except (FieldError α) (Slice α) := do
  let points := (mesh.r.slice k).zipWith (fun r z ↦ (⟨r, z⟩ : Point α)) (mesh.z.slice k)
  let scattered ← Scattered.ofPoints points
  let targets := r.toList.flatMap fun x ↦ z.toList.map fun y ↦ (⟨x, y⟩ : Point α)
  let stencils := scattered.stencils targets
  let br ← scattered.apply stencils (mesh.br.slice k) outsidePoloidal
  let bz ← scattered.apply stencils (mesh.bz.slice k) outsidePoloidal
  let bphi ← scattered.apply stencils (mesh.bphi.slice k) outsideToroidal
  return ⟨br.toArray, bz.toArray, bphi.toArray⟩

/-- One component of all slices as samples on the regular grid. -/
def stack (nr nz : Nat) (slices : List (Array α)) : ShapedArray α :=
  let slices := slices.toArray
  (Cube.ofFn nr nz slices.size fun i j k ↦ nth (slices.getD k #[]) (i * nz + j)).toShaped

/-- The range of one coordinate of a mesh is not a single point. -/
def hasExtent : Option (α × α) → Bool
  | some (lower, upper) => lower < upper
  | none => false

/-- Resamples the equilibrium. A single toroidal slice stands for all angles: it is used at both
ends of the turn. -/
def ofInput (input : SpectralInput α) (p : RegridParameters) :
    Except (FieldError α) (RegriddedField α) := do
  p.validate
  let (nTheta, nZeta) ← input.resolution p
  let mesh ← SurfaceMesh.synthesize input nTheta.toNat nZeta.toNat
  let rRange := Scalar.range? mesh.r.data.toList
  let zRange := Scalar.range? mesh.z.data.toList
  if !hasExtent rRange || !hasExtent zRange then
    throw (.physics (.flatMesh rRange zRange))
  let (rMin, rMax) := rRange.getD (0, 0)
  let (zMin, zMax) := zRange.getD (0, 0)
  let nr := p.nr.toNat
  let nz := p.nz.toNat
  let r := Scalar.linspace rMin rMax nr
  let z := Scalar.linspace zMin zMax nz
  let resampled ← (List.range nZeta.toNat).mapM (resample mesh r z)
  let (zeta, slices) :=
    if nZeta = 1 then (#[0, fullTurn], resampled ++ resampled) else (mesh.zeta, resampled)
  let axes := [r, z, zeta]
  let br ← Multilinear.ofSamples axes (stack nr nz (slices.map (·.br))) outsidePoloidal
  let bz ← Multilinear.ofSamples axes (stack nr nz (slices.map (·.bz))) outsidePoloidal
  let bphi ← Multilinear.ofSamples axes (stack nr nz (slices.map (·.bphi))) outsideToroidal
  return ⟨br, bz, bphi, if p.retainMesh then some mesh else none⟩

/-- Resamples the equilibrium that is given by named arrays. The second component counts the
warnings about absent asymmetric terms. -/
def ofNamed (arrays : Dataset α) (p : RegridParameters) :
    Except (FieldError α) (RegriddedField α × Nat) := do
  let (input, warnings) ← SpectralInput.ofNamed arrays
  let field ← ofInput input p
  return (field, warnings)

/-- Axis number `k` of the regular grid. -/
def axis (f : RegriddedField α) (k : Nat) : Array α :=
  f.br.axes.getD k #[]

/-- A component at a point. -/
def lookup (component : Multilinear α) (x z phi : α) : α :=
  component.eval [x, z, Scalar.wrap fullTurn phi]

end RegriddedField

end PlasmaField
