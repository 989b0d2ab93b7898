import Mathlib
import PlasmaField.Proofs.Equilibrium.Synthesis

/-!
# The shape of a mesh

Over every type of scalars the synthesis succeeds for data that are taken from named arrays, if
there is a mode of the surfaces and one of the field, and all its blocks have one layer for each
surface and one element for each pair of angles, `synthesize_of_ofNamed`. The sums and products of
blocks read the second operand at the indices of the first, so it matters that the operands have one
shape: nothing is cut off, and no missing element is read as zero.
-/

namespace PlasmaField

open Outcome (bind_eq_ok_iff)
open HarmonicBasis (cosineAt sineAt)
open SpectralInput (HasShape)
open scoped Exact Elementary

variable {α : Type}

/-- A block with the given numbers of indices. -/
def Cube.HasShape (c : Cube α) (n m l : ℕ) : Prop :=
  c.n = n ∧ c.m = m ∧ c.l = l

variable [ElementaryScalar α]

/-- A series with one column of coefficients per mode is summed on every surface and at every pair
of angles. -/
theorem HarmonicBasis.exists_synthesize (b : HarmonicBasis α) (series : (ℕ → α) → α → α → α)
    {coeffs : Table α} (h : coeffs.cols = b.modes) : ∃ c, b.synthesize series coeffs = .ok c ∧
      c.HasShape coeffs.rows b.theta.size b.zeta.size := by
  unfold synthesize
  rw [if_neg (by simp [h])]
  exact ⟨_, rfl, rfl, rfl, rfl⟩

namespace SurfaceMesh

/-- The positions on the surfaces and all their derivatives have the given numbers of indices. -/
structure Geometry.HasShape (g : Geometry α) (n m l : ℕ) : Prop where
  r : g.r.HasShape n m l
  z : g.z.HasShape n m l
  drTheta : g.drTheta.HasShape n m l
  drZeta : g.drZeta.HasShape n m l
  dzTheta : g.dzTheta.HasShape n m l
  dzZeta : g.dzZeta.HasShape n m l

/-- The series of the asymmetric terms. -/
def asymmetricGeometry (input : SpectralInput α) (basis : HarmonicBasis α)
    (terms : AsymmetricTerms α) : Except (FieldError α) (Geometry α) := do
  let r ← basis.sines terms.rSine
  let drTheta ← basis.cosines (scaleColumns terms.rSine input.xm)
  let drZeta ← basis.cosines (scaleColumns terms.rSine input.xn)
  let z ← basis.cosines terms.zCosine
  let dzTheta ← basis.sines (scaleColumns terms.zCosine (negated input.xm))
  let dzZeta ← basis.sines (scaleColumns terms.zCosine (negated input.xn))
  return ⟨r, z, drTheta, drZeta, dzTheta, dzZeta⟩

/-- The sum of two positions and of their derivatives. -/
def Geometry.add (g g' : Geometry α) : Geometry α where
  r := g.r.zipWith (· + ·) g'.r
  z := g.z.zipWith (· + ·) g'.z
  drTheta := g.drTheta.zipWith (· + ·) g'.drTheta
  drZeta := g.drZeta.zipWith (· + ·) g'.drZeta
  dzTheta := g.dzTheta.zipWith (· + ·) g'.dzTheta
  dzZeta := g.dzZeta.zipWith (· + ·) g'.dzZeta

/-- A sum has the shape of its first operand. -/
theorem Geometry.HasShape.add {g : Geometry α} {n m l : ℕ} (h : g.HasShape n m l)
    (g' : Geometry α) : (g.add g').HasShape n m l :=
  ⟨h.r, h.z, h.drTheta, h.drZeta, h.dzTheta, h.dzZeta⟩

/-- The asymmetric series are summed and then added. -/
theorem addAsymmetric_eq (input : SpectralInput α) (basis : HarmonicBasis α) (g : Geometry α)
    (terms : AsymmetricTerms α) : addAsymmetric input basis g terms =
      asymmetricGeometry input basis terms >>= fun g' ↦ .ok (g.add g') := by
  unfold addAsymmetric asymmetricGeometry
  simp only [bind_assoc]
  rfl

section Blocks

variable {ns : ℕ} (nTheta nZeta : ℕ)

/-- A series on a closed angular grid, with one row of coefficients per surface. -/
theorem exists_series {xm : Array α} (xn : Array α)
    (series : HarmonicBasis α → (ℕ → α) → α → α → α) {c : Table α} (hc : HasShape c ns xm.size) :
    ∃ b, (closedBasis nTheta nZeta xm xn).synthesize (series (closedBasis nTheta nZeta xm xn)) c =
      .ok b ∧ b.HasShape ns nTheta nZeta := by
  have hcols : c.cols = (closedBasis nTheta nZeta xm xn).modes := hc.2
  obtain ⟨b, hb, hn, hm, hl⟩ :=
    HarmonicBasis.exists_synthesize _ (series (closedBasis nTheta nZeta xm xn)) hcols
  exact ⟨b, hb, hn.trans hc.1, hm.trans (size_closedAngles nTheta),
    hl.trans (size_closedAngles nZeta)⟩

omit [ElementaryScalar α] in
/-- Scaled coefficients have the same shape. -/
theorem hasShape_scaleColumns [Scalar α] {mn : ℕ} {c : Table α} (hc : HasShape c ns mn)
    (factor : Array α) : HasShape (scaleColumns c factor) ns mn :=
  hc

end Blocks

/-- A mesh with one layer for each surface and one element for each pair of angles. The same holds
for all series that are added or multiplied element by element to obtain it. -/
structure Conforms (mesh : SurfaceMesh α) (input : SpectralInput α) (nTheta nZeta : ℕ) : Prop where
  shape : ∀ c ∈ [mesh.r, mesh.z, mesh.br, mesh.bz, mesh.bphi],
    c.HasShape input.surfaces nTheta nZeta
  symmetric : ∃ g,
    symmetricGeometry input (closedBasis nTheta nZeta input.xm input.xn) = .ok g ∧
      g.HasShape input.surfaces nTheta nZeta
  asymmetric : ∀ terms ∈ input.asymmetric, ∃ g,
    asymmetricGeometry input (closedBasis nTheta nZeta input.xm input.xn) terms = .ok g ∧
      g.HasShape input.surfaces nTheta nZeta
  field : ∀ coeffs ∈ [input.poloidal, input.toroidal], ∃ full b,
    halfToFull coeffs = .ok full ∧
      (closedBasis nTheta nZeta input.fieldXm input.fieldXn).cosines full = .ok b ∧
      b.HasShape input.surfaces nTheta nZeta

section Mesh

variable {input : SpectralInput α} (h : input.Consistent) (nTheta nZeta : ℕ)
include h

/-- The symmetric series are summed. -/
theorem exists_symmetricGeometry : ∃ g,
    symmetricGeometry input (closedBasis nTheta nZeta input.xm input.xn) = .ok g ∧
      g.HasShape input.surfaces nTheta nZeta := by
  obtain ⟨r, hr, hrShape⟩ := exists_series nTheta nZeta input.xn cosineAt h.rCosine
  obtain ⟨z, hz, hzShape⟩ := exists_series nTheta nZeta input.xn sineAt h.zSine
  obtain ⟨drTheta, hdrTheta, hdrThetaShape⟩ :=
    exists_series nTheta nZeta input.xn sineAt (hasShape_scaleColumns h.rCosine (negated input.xm))
  obtain ⟨drZeta, hdrZeta, hdrZetaShape⟩ :=
    exists_series nTheta nZeta input.xn sineAt (hasShape_scaleColumns h.rCosine (negated input.xn))
  obtain ⟨dzTheta, hdzTheta, hdzThetaShape⟩ :=
    exists_series nTheta nZeta input.xn cosineAt (hasShape_scaleColumns h.zSine input.xm)
  obtain ⟨dzZeta, hdzZeta, hdzZetaShape⟩ :=
    exists_series nTheta nZeta input.xn cosineAt (hasShape_scaleColumns h.zSine input.xn)
  refine ⟨⟨r, z, drTheta, drZeta, dzTheta, dzZeta⟩, ?_,
    ⟨hrShape, hzShape, hdrThetaShape, hdrZetaShape, hdzThetaShape, hdzZetaShape⟩⟩
  unfold symmetricGeometry HarmonicBasis.cosines HarmonicBasis.sines
  rw [hr, hz, hdrTheta, hdrZeta, hdzTheta, hdzZeta]
  rfl

/-- The asymmetric series are summed. -/
theorem exists_asymmetricGeometry {terms : AsymmetricTerms α} (hterms : terms ∈ input.asymmetric) :
    ∃ g, asymmetricGeometry input (closedBasis nTheta nZeta input.xm input.xn) terms = .ok g ∧
      g.HasShape input.surfaces nTheta nZeta := by
  obtain ⟨hrSine, hzCosine⟩ := h.asymmetric terms hterms
  obtain ⟨r, hr, hrShape⟩ := exists_series nTheta nZeta input.xn sineAt hrSine
  obtain ⟨drTheta, hdrTheta, hdrThetaShape⟩ :=
    exists_series nTheta nZeta input.xn cosineAt (hasShape_scaleColumns hrSine input.xm)
  obtain ⟨drZeta, hdrZeta, hdrZetaShape⟩ :=
    exists_series nTheta nZeta input.xn cosineAt (hasShape_scaleColumns hrSine input.xn)
  obtain ⟨z, hz, hzShape⟩ := exists_series nTheta nZeta input.xn cosineAt hzCosine
  obtain ⟨dzTheta, hdzTheta, hdzThetaShape⟩ :=
    exists_series nTheta nZeta input.xn sineAt (hasShape_scaleColumns hzCosine (negated input.xm))
  obtain ⟨dzZeta, hdzZeta, hdzZetaShape⟩ :=
    exists_series nTheta nZeta input.xn sineAt (hasShape_scaleColumns hzCosine (negated input.xn))
  refine ⟨⟨r, z, drTheta, drZeta, dzTheta, dzZeta⟩, ?_,
    ⟨hrShape, hzShape, hdrThetaShape, hdrZetaShape, hdzThetaShape, hdzZetaShape⟩⟩
  unfold asymmetricGeometry HarmonicBasis.cosines HarmonicBasis.sines
  rw [hr, hdrTheta, hdrZeta, hz, hdzTheta, hdzZeta]
  rfl

/-- The surfaces are found, with their asymmetric terms. -/
theorem exists_geometryOf : ∃ g,
    geometryOf input (closedBasis nTheta nZeta input.xm input.xn) = .ok g ∧
      g.HasShape input.surfaces nTheta nZeta := by
  obtain ⟨g, hg, hshape⟩ := exists_symmetricGeometry h nTheta nZeta
  unfold geometryOf
  rw [hg]
  cases hasymmetric : input.asymmetric with
  | none => exact ⟨g, rfl, hshape⟩
  | some terms =>
      obtain ⟨g', hg', -⟩ := exists_asymmetricGeometry h nTheta nZeta hasymmetric
      refine ⟨g.add g', ?_, hshape.add g'⟩
      show addAsymmetric _ _ _ _ = _
      rw [addAsymmetric_eq, hg']
      rfl

/-- A contravariant component is moved onto the surfaces and summed. -/
theorem exists_fieldSeries {coeffs : Table α}
    (hcoeffs : HasShape coeffs input.surfaces input.fieldXm.size) : ∃ full b,
      halfToFull coeffs = .ok full ∧
        (closedBasis nTheta nZeta input.fieldXm input.fieldXn).cosines full = .ok b ∧
        b.HasShape input.surfaces nTheta nZeta := by
  obtain ⟨full, hfull, hrows, hcols⟩ := halfToFull_eq_ok (hcoeffs.1 ▸ h.three_le)
  obtain ⟨b, hb, hshape⟩ := exists_series nTheta nZeta input.fieldXn cosineAt
    (⟨hrows.trans hcoeffs.1, hcols.trans hcoeffs.2⟩ : HasShape full _ _)
  exact ⟨full, b, hfull, hb, hshape⟩

/-- The synthesis succeeds for coefficients that fit together, if there are modes and angles. -/
theorem exists_synthesize (hmodes : 0 < input.xm.size) (hfield : 0 < input.fieldXm.size)
    (htheta : 0 < nTheta) (hzeta : 0 < nZeta) :
    ∃ mesh, synthesize input nTheta nZeta = .ok mesh ∧ mesh.Conforms input nTheta nZeta := by
  have hbasis := HarmonicBasis.onClosedAngles_eq_ok h.xn_size hmodes htheta hzeta
  obtain ⟨g, hg, hgShape⟩ := exists_geometryOf h nTheta nZeta
  obtain ⟨u, bu, hu, hbu, hbuShape⟩ := exists_fieldSeries h nTheta nZeta h.poloidal
  obtain ⟨w, bv, hw, hbv, hbvShape⟩ := exists_fieldSeries h nTheta nZeta h.toroidal
  let mesh : SurfaceMesh α := {
    theta := closedAngles nTheta
    zeta := closedAngles nZeta
    r := g.r
    z := g.z
    br := combine bu g.drTheta bv g.drZeta
    bz := combine bu g.dzTheta bv g.dzZeta
    bphi := g.r.zipWith (· * ·) bv }
  have hmesh : synthesize input nTheta nZeta = .ok mesh := by
    rw [synthesize_eq]
    refine bind_eq_ok_iff.mpr ⟨_, hbasis, ?_⟩
    refine bind_eq_ok_iff.mpr ⟨_, fieldBasisOf_eq_ok h hfield htheta hzeta, ?_⟩
    refine bind_eq_ok_iff.mpr ⟨g, hg, ?_⟩
    refine bind_eq_ok_iff.mpr ⟨u, hu, ?_⟩
    refine bind_eq_ok_iff.mpr ⟨bu, hbu, ?_⟩
    refine bind_eq_ok_iff.mpr ⟨w, hw, ?_⟩
    exact bind_eq_ok_iff.mpr ⟨bv, hbv, rfl⟩
  refine ⟨mesh, hmesh, ?_, exists_symmetricGeometry h nTheta nZeta,
    fun _ hterms ↦ exists_asymmetricGeometry h nTheta nZeta hterms, ?_⟩
  · intro c hc
    simp only [List.mem_cons, List.not_mem_nil, or_false] at hc
    rcases hc with rfl | rfl | rfl | rfl | rfl
    exacts [hgShape.r, hgShape.z, hbuShape, hbuShape, hgShape.r]
  · intro coeffs hcoeffs
    simp only [List.mem_cons, List.not_mem_nil, or_false] at hcoeffs
    rcases hcoeffs with rfl | rfl
    exacts [exists_fieldSeries h nTheta nZeta h.poloidal,
      exists_fieldSeries h nTheta nZeta h.toroidal]

end Mesh

/-- Data that are taken from named arrays fit together: one row of finite coefficients for each of
three or more surfaces, one column for each mode. If there is a mode of the surfaces and one of the
field, the synthesis succeeds for all numbers of angles, and every block of the mesh has one layer
for each surface and one element for each pair of angles. -/
theorem synthesize_of_ofNamed [OrdinaryZero α] {arrays : Dataset α} {input : SpectralInput α}
    {warnings : ℕ} (h : SpectralInput.ofNamed arrays = .ok (input, warnings)) :
    SpectralInput.WellFormed arrays input ∧ (1 ≤ input.xm.size → 1 ≤ input.fieldXm.size →
      ∀ nTheta nZeta, 1 ≤ nTheta → 1 ≤ nZeta →
        ∃ mesh, synthesize input nTheta nZeta = .ok mesh ∧ mesh.Conforms input nTheta nZeta) :=
  ⟨SpectralInput.wellFormed_of_ofNamed h, fun hmodes hfield nTheta nZeta htheta hzeta ↦
    exists_synthesize (SpectralInput.consistent_of_ofNamed h) nTheta nZeta hmodes hfield htheta
      hzeta⟩

/-- The tilted equilibrium is well formed and has a mesh on a grid of four by five angles. -/
theorem tilted_wellFormed :
    SpectralInput.ofNamed tiltedArrays = .ok (tilted, 0) ∧
      SpectralInput.WellFormed tiltedArrays tilted ∧
      ∃ mesh, synthesize tilted 4 5 = .ok mesh ∧ mesh.Conforms tilted 4 5 := by
  obtain ⟨hwellFormed, hmesh⟩ := synthesize_of_ofNamed ofNamed_tiltedArrays
  exact ⟨ofNamed_tiltedArrays, hwellFormed,
    hmesh (by decide) (by decide) 4 5 (by decide) (by decide)⟩

end SurfaceMesh

end PlasmaField
