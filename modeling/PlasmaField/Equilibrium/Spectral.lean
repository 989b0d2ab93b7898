import PlasmaField.Dataset
import PlasmaField.Harmonics
import PlasmaField.Parameters

/-!
# Equilibria given by harmonic series

The flux surfaces of a three-dimensional equilibrium and the contravariant components of its field
are given by the coefficients of harmonic series, one row per surface. `SurfaceMesh.synthesize`
sums the series on an angular grid and turns the contravariant components into cylindrical ones with
the angular derivatives of the surfaces.
-/

namespace PlasmaField

open Scalar (nth)

/-- The coefficients of the terms that break the stellarator symmetry. -/
structure AsymmetricTerms (α : Type) where
  rSine : Table α
  zCosine : Table α

/-- The data of a spectral equilibrium: the mode numbers of the surfaces and, where they differ,
those of the field; the series of the surfaces and of the contravariant field components; the
asymmetric terms, where given; and the numbers of modes, where given. -/
structure SpectralInput (α : Type) where
  xm : Array α
  xn : Array α
  fieldModes : Option (Array α × Array α)
  rCosine : Table α
  zSine : Table α
  poloidal : Table α
  toroidal : Table α
  asymmetric : Option (AsymmetricTerms α)
  mpol : Option UInt64
  ntor : Option UInt64

namespace SpectralInput

variable {α : Type} [Scalar α]

/-- A count given by a number, which must be natural. Counts saturate at 64 bits. -/
def count? (arrays : Dataset α) (name : String) :
    Except (FieldError α) (Option UInt64) := do
  match ← Dataset.optional Dataset.scalar arrays name with
  | none => return none
  | some v =>
    match Scalar.natural? v with
    | some n => return some (UInt64.ofNat (Min.min n (Nat.pow 2 64 - 1)))
    | none => throw (.config (.notACount name v))

/-- Coefficients must have one row per surface and one column per mode, and be finite. -/
def checkCoefficients (name : String) (t : Table α) (ns mn : Nat) :
    Except (FieldError α) Unit := do
  if t.rows != ns || t.cols != mn then
    throw (.shape (.coefficients name ns mn [t.rows, t.cols]))
  if !t.data.all Scalar.isFinite then
    throw (.physics (.coefficientsNotFinite name))

/-- The coefficients under a name. -/
def coefficients (arrays : Dataset α) (name : String) (ns mn : Nat) :
    Except (FieldError α) (Table α) := do
  let t ← arrays.table name
  checkCoefficients name t ns mn
  return t

/-- The coefficients under a name, or zeros and a warning where there are none. -/
def coefficientsOrZero (arrays : Dataset α) (name : String) (ns mn : Nat) :
    Except (FieldError α) (Table α × Nat) := do
  match ← Dataset.optional Dataset.table arrays name with
  | some t =>
    checkCoefficients name t ns mn
    return (t, 0)
  | none => return (Table.ofFn ns mn fun _ _ ↦ 0, 1)

/-- The mode numbers of the field, which are given together or not at all. -/
def fieldModes? (arrays : Dataset α) :
    Except (FieldError α) (Option (Array α × Array α)) := do
  let xm ← Dataset.optional Dataset.vector arrays "xm_nyq"
  let xn ← Dataset.optional Dataset.vector arrays "xn_nyq"
  match xm, xn with
  | some xm, some xn =>
    if xm.size = xn.size then return some (xm, xn) else throw (.shape .fieldModes)
  | none, none => return none
  | _, _ => throw (.shape .fieldModes)

/-- The asymmetric terms, which are used if `iasym` is given and not zero, with the number of
warnings about absent ones. -/
def asymmetric? (arrays : Dataset α) (ns mn : Nat) :
    Except (FieldError α) (Option (AsymmetricTerms α) × Nat) := do
  let iasym := (← Dataset.optional Dataset.scalar arrays "iasym").getD 0
  if iasym == 0 then
    return (none, 0)
  else
    let (rSine, w₁) ← coefficientsOrZero arrays "rmns" ns mn
    let (zCosine, w₂) ← coefficientsOrZero arrays "zmnc" ns mn
    return (some ⟨rSine, zCosine⟩, w₁ + w₂)

/-- Takes the data from named arrays. The second component counts the warnings about absent
asymmetric terms. -/
def ofNamed (arrays : Dataset α) : Except (FieldError α) (SpectralInput α × Nat) := do
  let xm ← arrays.vector "xm"
  let xn ← arrays.vector "xn"
  if xm.size != xn.size then
    throw (.shape (.modeNumbers xm.size xn.size))
  let mn := xm.size
  let rCosine ← arrays.table "rmnc"
  let ns := ((← count? arrays "ns").map UInt64.toNat).getD rCosine.rows
  if ns < 3 then
    throw (.shape (.fewSurfaces ns))
  checkCoefficients "rmnc" rCosine ns mn
  let zSine ← coefficients arrays "zmns" ns mn
  let modes ← fieldModes? arrays
  let fieldCount := modes.elim mn (·.1.size)
  let poloidal ← coefficients arrays "bsupumnc" ns fieldCount
  let toroidal ← coefficients arrays "bsupvmnc" ns fieldCount
  let (asymmetric, warnings) ← asymmetric? arrays ns mn
  let mpol ← count? arrays "mpol"
  let ntor ← count? arrays "ntor"
  return (⟨xm, xn, modes, rCosine, zSine, poloidal, toroidal, asymmetric, mpol, ntor⟩, warnings)

/-- The number of flux surfaces. -/
def surfaces (input : SpectralInput α) : Nat :=
  input.rCosine.rows

/-- The numbers of poloidal and toroidal angles: those asked for, or else `mpol` and `ntor + 1`, in
64-bit words. -/
def resolution (input : SpectralInput α) (p : RegridParameters) :
    Except (FieldError α) (UInt64 × UInt64) := do
  let nTheta ← match p.nTheta, input.mpol with
    | some n, _ => pure n
    | none, some n => pure n
    | none, none => throw (.missingArray "mpol")
  let nZeta ← match p.nZeta, input.ntor with
    | some n, _ => pure n
    | none, some ntor => pure (ntor + 1)
    | none, none => throw (.missingArray "ntor")
  if nTheta < 2 || nZeta < 1 then
    throw (.config (.angularResolution nTheta nZeta))
  return (nTheta, nZeta)

end SpectralInput

/-- Moves radial profiles from half-way points onto the surfaces. Inner values are means of their
neighbours; the values on the axis and on the last surface are extrapolated. -/
def halfToFull {α : Type} [Scalar α] (profiles : Table α) :
    Except (FieldError α) (Table α) :=
  let ns := profiles.rows
  if ns < 3 then .error (.shape (.fewRadialPoints ns))
  else
    .ok (Table.ofFn ns profiles.cols fun i k ↦
      let f (j : Nat) := profiles.get j k
      if i = 0 then f 1 - 0.5 * f 2
      else if i + 1 < ns then 0.5 * (f i + f (i + 1))
      else 2 * f (ns - 2) - f (ns - 3))

/-- The surfaces and the cylindrical field components on an angular grid. The indices are the
surface, the poloidal angle and the toroidal angle. -/
structure SurfaceMesh (α : Type) where
  theta : Array α
  zeta : Array α
  r : Cube α
  z : Cube α
  br : Cube α
  bz : Cube α
  bphi : Cube α

namespace SurfaceMesh

variable {α : Type} [ElementaryScalar α]

/-- The positions of the surfaces and their derivatives along both angles. -/
structure Geometry (α : Type) where
  r : Cube α
  z : Cube α
  drTheta : Cube α
  drZeta : Cube α
  dzTheta : Cube α
  dzZeta : Cube α

/-- Entries with their signs changed. -/
def negated (xs : Array α) : Array α :=
  xs.map (-·)

/-- The surfaces of the symmetric series. -/
def symmetricGeometry (input : SpectralInput α) (basis : HarmonicBasis α) :
    Except (FieldError α) (Geometry α) := do
  let r ← basis.cosines input.rCosine
  let z ← basis.sines input.zSine
  let drTheta ← basis.sines (scaleColumns input.rCosine (negated input.xm))
  let drZeta ← basis.sines (scaleColumns input.rCosine (negated input.xn))
  let dzTheta ← basis.cosines (scaleColumns input.zSine input.xm)
  let dzZeta ← basis.cosines (scaleColumns input.zSine input.xn)
  return ⟨r, z, drTheta, drZeta, dzTheta, dzZeta⟩

/-- Adds the asymmetric series to the surfaces. -/
def addAsymmetric (input : SpectralInput α) (basis : HarmonicBasis α) (g : Geometry α)
    (terms : AsymmetricTerms α) : Except (FieldError α) (Geometry α) := do
  let add := Cube.zipWith (α := α) (· + ·)
  let r ← basis.sines terms.rSine
  let drTheta ← basis.cosines (scaleColumns terms.rSine input.xm)
  let drZeta ← basis.cosines (scaleColumns terms.rSine input.xn)
  let z ← basis.cosines terms.zCosine
  let dzTheta ← basis.sines (scaleColumns terms.zCosine (negated input.xm))
  let dzZeta ← basis.sines (scaleColumns terms.zCosine (negated input.xn))
  return ⟨add g.r r, add g.z z, add g.drTheta drTheta, add g.drZeta drZeta,
    add g.dzTheta dzTheta, add g.dzZeta dzZeta⟩

/-- Sums two products of blocks element by element. -/
def combine (a b c d : Cube α) : Cube α :=
  (a.zipWith (· * ·) b).zipWith (· + ·) (c.zipWith (· * ·) d)

/-- Sums the series of an equilibrium on an angular grid that closes the full turn. -/
def synthesize (input : SpectralInput α) (nTheta nZeta : Nat) :
    Except (FieldError α) (SurfaceMesh α) := do
  let basis ← HarmonicBasis.onClosedAngles input.xm input.xn nTheta nZeta
  let fieldBasis ← match input.fieldModes with
    | some (xm, xn) => HarmonicBasis.onClosedAngles xm xn nTheta nZeta
    | none => pure basis
  let symmetric ← symmetricGeometry input basis
  let g ← match input.asymmetric with
    | some terms => addAsymmetric input basis symmetric terms
    | none => pure symmetric
  let bu ← fieldBasis.cosines (← halfToFull input.poloidal)
  let bv ← fieldBasis.cosines (← halfToFull input.toroidal)
  return {
    theta := basis.theta
    zeta := basis.zeta
    r := g.r
    z := g.z
    br := combine bu g.drTheta bv g.drZeta
    bz := combine bu g.dzTheta bv g.dzZeta
    bphi := g.r.zipWith (· * ·) bv }

end SurfaceMesh

end PlasmaField
