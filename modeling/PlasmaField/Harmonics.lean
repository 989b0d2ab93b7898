import PlasmaField.Cube
import PlasmaField.Error

/-!
# Harmonic series on a torus

A quantity on nested flux surfaces is given by coefficients `a[s, k]` of the modes `(m_k, n_k)`.
`HarmonicBasis.cosines` sums `a[s, k] · cos(m_k θ + n_k ζ)` over the modes on every point of an
angular grid, `HarmonicBasis.sines` the same series of sines. Both split the angle by the addition
theorems and sum the modes in their order, in blocks whose sums are added up.
-/

namespace PlasmaField

open Scalar (nth)

/-- The modes of a series and the angular grid on which it is summed. -/
structure HarmonicBasis (α : Type) where
  xm : Array α
  xn : Array α
  theta : Array α
  zeta : Array α

/-- The `n` angles from zero to a full turn, both included. A single angle is zero. -/
def closedAngles {α : Type} [ElementaryScalar α] (n : Nat) : Array α :=
  if n = 1 then #[0] else Scalar.linspace 0 (2 * ElementaryScalar.pi) n

namespace HarmonicBasis

variable {α : Type} [ElementaryScalar α]

/-- The basis with the given mode numbers and angles. -/
def ofModes (xm xn theta zeta : Array α) : Except (FieldError α) (HarmonicBasis α) := do
  if xm.size != xn.size then
    throw (.shape (.modeArrays xm.size xn.size))
  if xm.isEmpty || theta.isEmpty || zeta.isEmpty then
    throw (.shape .emptyBasis)
  return ⟨xm, xn, theta, zeta⟩

/-- The basis on equally spaced angles that close the full turn. -/
def onClosedAngles (xm xn : Array α) (ntheta nzeta : Nat) :
    Except (FieldError α) (HarmonicBasis α) :=
  ofModes xm xn (closedAngles ntheta) (closedAngles nzeta)

/-- The number of modes. -/
def modes (b : HarmonicBasis α) : Nat :=
  b.xm.size

/-- The number of modes in a block of a series. -/
def blockSize : Nat := 256

/-- The sum of the given terms, one for each mode. Blocks of consecutive modes are summed first, and
then their sums, both in order. -/
def sumModes (b : HarmonicBasis α) (term : Nat → α) : α :=
  (List.range ((b.modes + blockSize - 1) / blockSize)).foldl
    (fun total block ↦
      let start := block * blockSize
      total + (List.range (Min.min blockSize (b.modes - start))).foldl
        (fun acc k ↦ acc + term (start + k)) 0) 0

/-- The sum over the modes of the coefficient times a function of `m θ` and one of `n ζ`. -/
def modeSum (b : HarmonicBasis α) (f g : α → α) (coefficient : Nat → α) (theta zeta : α) : α :=
  b.sumModes fun k ↦ f (nth b.xm k * theta) * coefficient k * g (nth b.xn k * zeta)

/-- The cosine series at one pair of angles. -/
def cosineAt (b : HarmonicBasis α) (coefficient : Nat → α) (theta zeta : α) : α :=
  b.modeSum ElementaryScalar.cos ElementaryScalar.cos coefficient theta zeta -
    b.modeSum ElementaryScalar.sin ElementaryScalar.sin coefficient theta zeta

/-- The sine series at one pair of angles. -/
def sineAt (b : HarmonicBasis α) (coefficient : Nat → α) (theta zeta : α) : α :=
  b.modeSum ElementaryScalar.sin ElementaryScalar.cos coefficient theta zeta +
    b.modeSum ElementaryScalar.cos ElementaryScalar.sin coefficient theta zeta

/-- Evaluates a series on every surface and at every point of the angular grid. -/
def synthesize (b : HarmonicBasis α) (series : (Nat → α) → α → α → α) (coeffs : Table α) :
    Except (FieldError α) (Cube α) :=
  if coeffs.cols != b.modes then
    .error (.shape (.modeCount coeffs.cols b.modes))
  else
    .ok (Cube.ofFn coeffs.rows b.theta.size b.zeta.size fun s i j ↦
      series (coeffs.get s) (nth b.theta i) (nth b.zeta j))

/-- The cosine series with the given coefficients, one row per surface. -/
def cosines (b : HarmonicBasis α) (coeffs : Table α) : Except (FieldError α) (Cube α) :=
  b.synthesize b.cosineAt coeffs

/-- The sine series with the given coefficients, one row per surface. -/
def sines (b : HarmonicBasis α) (coeffs : Table α) : Except (FieldError α) (Cube α) :=
  b.synthesize b.sineAt coeffs

end HarmonicBasis

/-- Multiplies the coefficients of every surface by one factor per mode. A single factor serves all
modes. -/
def scaleColumns {α : Type} [Scalar α] (coeffs : Table α) (factor : Array α) : Table α :=
  Table.ofFn coeffs.rows coeffs.cols fun s k ↦
    coeffs.get s k * nth factor (if factor.size = 1 then 0 else k)

end PlasmaField
