import Mathlib
import PlasmaField.Proofs.Equilibrium.Coefficients
import PlasmaField.Proofs.Harmonics

/-!
# The mesh of a spectral equilibrium

The surfaces of an equilibrium are given by two series, `surfaceR` and `surfaceZ`, and its field by
the two contravariant components, `fieldSeries`. A mesh holds these on a grid of angles: the
cylindrical components of the field are the contravariant ones times the partial derivatives of the
surfaces. `SurfaceMesh.synthesize_eq_ok` says that the synthesis gives this mesh for all
coefficients that fit together, and `SurfaceMesh.synthesize_samples` reads its entries for data
that are taken from named arrays.
-/

namespace PlasmaField

open Scalar (nth)
open scoped Exact Elementary

namespace SpectralInput

variable (input : SpectralInput ℝ)

/-- The major radius on a surface as a function of the angles. -/
noncomputable def surfaceR (s : ℕ) (t v : ℝ) : ℝ :=
  cosineSeries input.xm input.xn (input.rCosine.get s) t v +
    input.asymmetric.elim 0 fun terms ↦ sineSeries input.xm input.xn (terms.rSine.get s) t v

/-- The height on a surface as a function of the angles. -/
noncomputable def surfaceZ (s : ℕ) (t v : ℝ) : ℝ :=
  sineSeries input.xm input.xn (input.zSine.get s) t v +
    input.asymmetric.elim 0 fun terms ↦ cosineSeries input.xm input.xn (terms.zCosine.get s) t v

/-- A component of the field on a surface as a function of the angles, with its coefficients. -/
noncomputable def fieldSeries (coeffs : Table ℝ) (s : ℕ) (t v : ℝ) : ℝ :=
  cosineSeries input.fieldXm input.fieldXn (coeffs.get s) t v

/-- The major radius on a surface is differentiable. -/
theorem differentiable_surfaceR (s : ℕ) :
    Differentiable ℝ fun p : ℝ × ℝ ↦ input.surfaceR s p.1 p.2 := by
  unfold surfaceR
  cases input.asymmetric with
  | none => exact (differentiable_cosineSeries _ _ _).add_const 0
  | some terms => exact (differentiable_cosineSeries _ _ _).add (differentiable_sineSeries _ _ _)

/-- The height on a surface is differentiable. -/
theorem differentiable_surfaceZ (s : ℕ) :
    Differentiable ℝ fun p : ℝ × ℝ ↦ input.surfaceZ s p.1 p.2 := by
  unfold surfaceZ
  cases input.asymmetric with
  | none => exact (differentiable_sineSeries _ _ _).add_const 0
  | some terms => exact (differentiable_sineSeries _ _ _).add (differentiable_cosineSeries _ _ _)

end SpectralInput

/-- Three or more radial profiles are moved onto the surfaces. -/
theorem halfToFull_eq_ok {α : Type} [Scalar α] {profiles : Table α} (h : 3 ≤ profiles.rows) :
    ∃ full, halfToFull profiles = .ok full ∧
      SpectralInput.HasShape full profiles.rows profiles.cols := by
  unfold halfToFull
  rw [if_neg h.not_gt]
  exact ⟨_, rfl, rfl, rfl⟩

namespace SurfaceMesh

open Outcome (bind_eq_ok_iff)
open SpectralInput (HasShape)

/-- The derivative along the poloidal angle of a function of the surface and both angles. -/
noncomputable def alongTheta (f : ℕ → ℝ → ℝ → ℝ) (s : ℕ) (t v : ℝ) : ℝ :=
  deriv (fun t ↦ f s t v) t

/-- The derivative along the toroidal angle of a function of the surface and both angles. -/
noncomputable def alongZeta (f : ℕ → ℝ → ℝ → ℝ) (s : ℕ) (t v : ℝ) : ℝ :=
  deriv (fun v ↦ f s t v) v

section Sums

variable {f g : ℕ → ℝ → ℝ → ℝ} (hf : ∀ s, Differentiable ℝ fun p : ℝ × ℝ ↦ f s p.1 p.2)
  (hg : ∀ s, Differentiable ℝ fun p : ℝ × ℝ ↦ g s p.1 p.2)
include hf

/-- A differentiable function is differentiable along the poloidal angle. -/
theorem differentiable_left (s : ℕ) (v : ℝ) : Differentiable ℝ fun t ↦ f s t v :=
  (hf s).comp (differentiable_id.prodMk (differentiable_const v))

/-- A differentiable function is differentiable along the toroidal angle. -/
theorem differentiable_right (s : ℕ) (t : ℝ) : Differentiable ℝ fun v ↦ f s t v :=
  (hf s).comp ((differentiable_const t).prodMk differentiable_id)

include hg

/-- The derivative of a sum along the poloidal angle. -/
theorem alongTheta_add : alongTheta (fun s t v ↦ f s t v + g s t v) =
    fun s t v ↦ alongTheta f s t v + alongTheta g s t v := by
  funext s t v
  exact deriv_fun_add (differentiable_left hf s v t) (differentiable_left hg s v t)

/-- The derivative of a sum along the toroidal angle. -/
theorem alongZeta_add : alongZeta (fun s t v ↦ f s t v + g s t v) =
    fun s t v ↦ alongZeta f s t v + alongZeta g s t v := by
  funext s t v
  exact deriv_fun_add (differentiable_right hf s t v) (differentiable_right hg s t v)

end Sums

section Grid

variable (ns nTheta nZeta : ℕ)

/-- The values of a function of the surface and both angles on a closed angular grid. -/
noncomputable def onGrid (f : ℕ → ℝ → ℝ → ℝ) : Cube ℝ :=
  Cube.ofFn ns nTheta nZeta fun s i j ↦
    f s (nth (closedAngles nTheta) i) (nth (closedAngles nZeta) j)

/-- Positions on the surfaces, with their derivatives, on a closed angular grid. -/
noncomputable def Geometry.ofSurfaces (r z : ℕ → ℝ → ℝ → ℝ) : Geometry ℝ where
  r := onGrid ns nTheta nZeta r
  z := onGrid ns nTheta nZeta z
  drTheta := onGrid ns nTheta nZeta (alongTheta r)
  drZeta := onGrid ns nTheta nZeta (alongZeta r)
  dzTheta := onGrid ns nTheta nZeta (alongTheta z)
  dzZeta := onGrid ns nTheta nZeta (alongZeta z)

/-- The basis of the given modes on a closed angular grid. -/
def closedBasis {α : Type} [ElementaryScalar α] (xm xn : Array α) : HarmonicBasis α where
  xm := xm
  xn := xn
  theta := closedAngles nTheta
  zeta := closedAngles nZeta

variable {ns nTheta nZeta}

/-- The values on a grid only depend on the surfaces of the grid. -/
theorem onGrid_congr {f g : ℕ → ℝ → ℝ → ℝ} (h : ∀ s < ns, f s = g s) :
    onGrid ns nTheta nZeta f = onGrid ns nTheta nZeta g :=
  Cube.ofFn_congr fun s _ _ hs _ _ ↦ by rw [h s hs]

/-- Combining the values of two functions on a grid. -/
theorem zipWith_onGrid (op : ℝ → ℝ → ℝ) (f g : ℕ → ℝ → ℝ → ℝ) :
    (onGrid ns nTheta nZeta f).zipWith op (onGrid ns nTheta nZeta g) =
      onGrid ns nTheta nZeta fun s t v ↦ op (f s t v) (g s t v) :=
  Cube.zipWith_ofFn op _ _

/-- The products of two contravariant components with the derivatives of a coordinate. -/
theorem combine_onGrid (a b c d : ℕ → ℝ → ℝ → ℝ) :
    combine (onGrid ns nTheta nZeta a) (onGrid ns nTheta nZeta b) (onGrid ns nTheta nZeta c)
      (onGrid ns nTheta nZeta d) =
      onGrid ns nTheta nZeta fun s t v ↦ a s t v * b s t v + c s t v * d s t v := by
  unfold combine
  rw [zipWith_onGrid, zipWith_onGrid, zipWith_onGrid]

/-- The value of a function at a node of the grid. -/
theorem get_onGrid (f : ℕ → ℝ → ℝ → ℝ) {s i j : ℕ} (hs : s < ns) (hi : i < nTheta)
    (hj : j < nZeta) : (onGrid ns nTheta nZeta f).get s i j =
      f s (nth (closedAngles nTheta) i) (nth (closedAngles nZeta) j) :=
  Cube.get_ofFn _ hs hi hj

end Grid

/-! ## The twelve series -/

section Series

variable {ns nTheta nZeta : ℕ} {xm xn : Array ℝ} {c : Table ℝ} (hc : HasShape c ns xm.size)
include hc

/-- The series of cosines on a closed angular grid. -/
theorem cosines_closedBasis : (closedBasis nTheta nZeta xm xn).cosines c =
    .ok (onGrid ns nTheta nZeta fun s ↦ cosineSeries xm xn (c.get s)) := by
  obtain ⟨hrows, hcols⟩ := hc
  rw [HarmonicBasis.cosines_eq_ok _ hcols, hrows]
  simp only [closedBasis, size_closedAngles]
  rfl

/-- The series of sines on a closed angular grid. -/
theorem sines_closedBasis : (closedBasis nTheta nZeta xm xn).sines c =
    .ok (onGrid ns nTheta nZeta fun s ↦ sineSeries xm xn (c.get s)) := by
  obtain ⟨hrows, hcols⟩ := hc
  rw [HarmonicBasis.sines_eq_ok _ hcols, hrows]
  simp only [closedBasis, size_closedAngles]
  rfl

variable {factor : Array ℝ} (hfactor : factor.size = xm.size)
include hfactor

/-- The series of cosines with scaled coefficients. -/
theorem cosines_scaled : (closedBasis nTheta nZeta xm xn).cosines (scaleColumns c factor) =
    .ok (onGrid ns nTheta nZeta fun s ↦
      cosineSeries xm xn fun k ↦ c.get s k * nth factor k) := by
  have hshape : HasShape (scaleColumns c factor) ns xm.size := hc
  obtain ⟨hrows, hcols⟩ := hc
  rw [cosines_closedBasis hshape]
  refine congrArg _ (onGrid_congr fun s hs ↦ funext₂ fun t v ↦ ?_)
  refine cosineSeries_congr (fun k hk ↦ ?_) xn t v
  exact get_scaleColumns (hfactor.trans hcols.symm) (hrows ▸ hs) (hcols ▸ hk)

/-- The series of sines with scaled coefficients. -/
theorem sines_scaled : (closedBasis nTheta nZeta xm xn).sines (scaleColumns c factor) =
    .ok (onGrid ns nTheta nZeta fun s ↦
      sineSeries xm xn fun k ↦ c.get s k * nth factor k) := by
  have hshape : HasShape (scaleColumns c factor) ns xm.size := hc
  obtain ⟨hrows, hcols⟩ := hc
  rw [sines_closedBasis hshape]
  refine congrArg _ (onGrid_congr fun s hs ↦ funext₂ fun t v ↦ ?_)
  refine sineSeries_congr (fun k hk ↦ ?_) xn t v
  exact get_scaleColumns (hfactor.trans hcols.symm) (hrows ▸ hs) (hcols ▸ hk)

end Series

/-- An entry of an array with changed signs. -/
theorem nth_negated (xs : Array ℝ) (k : ℕ) : nth (negated xs) k = -nth xs k := by
  simp only [Exact.nth_eq_getD, negated, Array.getD_eq_getD_getElem?, Array.getElem?_map]
  cases xs[k]? <;> simp

section Derivatives

variable {ns nTheta nZeta : ℕ} {xm xn : Array ℝ} {c : Table ℝ} (hc : HasShape c ns xm.size)
include hc

/-- The derivative of a series of cosines along the poloidal angle. -/
theorem sines_negated_xm :
    (closedBasis nTheta nZeta xm xn).sines (scaleColumns c (negated xm)) =
      .ok (onGrid ns nTheta nZeta (alongTheta fun s ↦ cosineSeries xm xn (c.get s))) := by
  rw [sines_scaled hc (by simp [negated])]
  refine congrArg _ (onGrid_congr fun s _ ↦ funext₂ fun t v ↦ ?_)
  simp only [nth_negated]
  exact (hasDerivAt_cosineSeries_left xm xn (c.get s) t v).deriv.symm

/-- The derivative of a series of sines along the poloidal angle. -/
theorem cosines_xm : (closedBasis nTheta nZeta xm xn).cosines (scaleColumns c xm) =
    .ok (onGrid ns nTheta nZeta (alongTheta fun s ↦ sineSeries xm xn (c.get s))) := by
  rw [cosines_scaled hc rfl]
  refine congrArg _ (onGrid_congr fun s _ ↦ funext₂ fun t v ↦ ?_)
  exact (hasDerivAt_sineSeries_left xm xn (c.get s) t v).deriv.symm

variable (hx : xm.size = xn.size)
include hx

/-- The derivative of a series of cosines along the toroidal angle. -/
theorem sines_negated_xn :
    (closedBasis nTheta nZeta xm xn).sines (scaleColumns c (negated xn)) =
      .ok (onGrid ns nTheta nZeta (alongZeta fun s ↦ cosineSeries xm xn (c.get s))) := by
  rw [sines_scaled hc (by simp [negated, hx])]
  refine congrArg _ (onGrid_congr fun s _ ↦ funext₂ fun t v ↦ ?_)
  simp only [nth_negated]
  exact (hasDerivAt_cosineSeries_right xm xn (c.get s) t v).deriv.symm

/-- The derivative of a series of sines along the toroidal angle. -/
theorem cosines_xn : (closedBasis nTheta nZeta xm xn).cosines (scaleColumns c xn) =
    .ok (onGrid ns nTheta nZeta (alongZeta fun s ↦ sineSeries xm xn (c.get s))) := by
  rw [cosines_scaled hc hx.symm]
  refine congrArg _ (onGrid_congr fun s _ ↦ funext₂ fun t v ↦ ?_)
  exact (hasDerivAt_sineSeries_right xm xn (c.get s) t v).deriv.symm

end Derivatives

/-! ## The mesh -/

/-- A basis on closed angles that is built has these modes and angles. -/
theorem eq_closedBasis {α : Type} [ElementaryScalar α] {xm xn : Array α} {nTheta nZeta : ℕ}
    {basis : HarmonicBasis α} (h : HarmonicBasis.onClosedAngles xm xn nTheta nZeta = .ok basis) :
    basis = closedBasis nTheta nZeta xm xn :=
  (HarmonicBasis.ofModes_eq_ok_iff.mp h).2

section Steps

variable {α : Type} [ElementaryScalar α] (input : SpectralInput α) (basis : HarmonicBasis α)
  (nTheta nZeta : ℕ)

/-- The basis of the field, which is that of the surfaces where the field has no modes of its
own. -/
def fieldBasisOf : Except (FieldError α) (HarmonicBasis α) :=
  match input.fieldModes with
  | some (xm, xn) => HarmonicBasis.onClosedAngles xm xn nTheta nZeta
  | none => pure basis

/-- The surfaces with their asymmetric terms, if there are any. -/
def geometryOf : Except (FieldError α) (Geometry α) :=
  symmetricGeometry input basis >>= fun symmetric ↦
    match input.asymmetric with
    | some terms => addAsymmetric input basis symmetric terms
    | none => pure symmetric

/-- The mesh of given surfaces. -/
def meshOf (fieldBasis : HarmonicBasis α) (g : Geometry α) :
    Except (FieldError α) (SurfaceMesh α) := do
  let bu ← fieldBasis.cosines (← halfToFull input.poloidal)
  let bv ← fieldBasis.cosines (← halfToFull input.toroidal)
  return {
    theta := basis.theta
    zeta := basis.zeta
    r := g.r
    z := g.z
    br := combine bu g.drTheta bv g.drZeta
    bz := combine bu g.dzTheta bv g.dzZeta
    bphi := g.r.zipWith (· * ·) bv }

/-- The synthesis finds both bases, then the surfaces, then the mesh. -/
theorem synthesize_eq : synthesize input nTheta nZeta =
    HarmonicBasis.onClosedAngles input.xm input.xn nTheta nZeta >>= fun basis ↦
      fieldBasisOf input basis nTheta nZeta >>= fun fieldBasis ↦
        geometryOf input basis >>= meshOf input basis fieldBasis := by
  unfold synthesize fieldBasisOf geometryOf
  cases input.fieldModes <;> cases input.asymmetric <;> simp only [bind_assoc] <;> rfl

/-- The basis of the field on a closed angular grid. -/
theorem fieldBasisOf_eq_ok {input : SpectralInput α} (h : input.Consistent) {nTheta nZeta : ℕ}
    (hfield : 0 < input.fieldXm.size) (htheta : 0 < nTheta) (hzeta : 0 < nZeta) :
    fieldBasisOf input (closedBasis nTheta nZeta input.xm input.xn) nTheta nZeta =
      .ok (closedBasis nTheta nZeta input.fieldXm input.fieldXn) := by
  have hbasis := HarmonicBasis.onClosedAngles_eq_ok h.fieldXn_size hfield htheta hzeta
  unfold fieldBasisOf SpectralInput.fieldXm SpectralInput.fieldXn at *
  cases hmodes : input.fieldModes with
  | none => rfl
  | some modes =>
      rw [hmodes] at hbasis
      exact hbasis

end Steps

/-- The mesh of an equilibrium: its surfaces, and the field with the given contravariant
components. -/
noncomputable def ofSeries (input : SpectralInput ℝ) (u w : Table ℝ) (nTheta nZeta : ℕ) :
    SurfaceMesh ℝ where
  theta := closedAngles nTheta
  zeta := closedAngles nZeta
  r := onGrid input.surfaces nTheta nZeta input.surfaceR
  z := onGrid input.surfaces nTheta nZeta input.surfaceZ
  br := onGrid input.surfaces nTheta nZeta fun s t v ↦
    input.fieldSeries u s t v * alongTheta input.surfaceR s t v +
      input.fieldSeries w s t v * alongZeta input.surfaceR s t v
  bz := onGrid input.surfaces nTheta nZeta fun s t v ↦
    input.fieldSeries u s t v * alongTheta input.surfaceZ s t v +
      input.fieldSeries w s t v * alongZeta input.surfaceZ s t v
  bphi := onGrid input.surfaces nTheta nZeta fun s t v ↦
    input.surfaceR s t v * input.fieldSeries w s t v

section Mesh

variable {input : SpectralInput ℝ} (h : input.Consistent) {nTheta nZeta : ℕ}
include h

/-- The surfaces without asymmetric terms are those of the symmetric series. -/
theorem symmetricGeometry_eq_ok :
    symmetricGeometry input (closedBasis nTheta nZeta input.xm input.xn) =
      .ok (Geometry.ofSurfaces input.surfaces nTheta nZeta
        (fun s ↦ cosineSeries input.xm input.xn (input.rCosine.get s))
        (fun s ↦ sineSeries input.xm input.xn (input.zSine.get s))) := by
  unfold symmetricGeometry
  rw [cosines_closedBasis h.rCosine, sines_closedBasis h.zSine, sines_negated_xm h.rCosine,
    sines_negated_xn h.rCosine h.xn_size, cosines_xm h.zSine, cosines_xn h.zSine h.xn_size]
  rfl

/-- The asymmetric series are added to the surfaces, and their derivatives to the derivatives. -/
theorem addAsymmetric_eq_ok {terms : AsymmetricTerms ℝ} (hterms : terms ∈ input.asymmetric)
    {r z : ℕ → ℝ → ℝ → ℝ} (hr : ∀ s, Differentiable ℝ fun p : ℝ × ℝ ↦ r s p.1 p.2)
    (hz : ∀ s, Differentiable ℝ fun p : ℝ × ℝ ↦ z s p.1 p.2) :
    addAsymmetric input (closedBasis nTheta nZeta input.xm input.xn)
      (Geometry.ofSurfaces input.surfaces nTheta nZeta r z) terms =
      .ok (Geometry.ofSurfaces input.surfaces nTheta nZeta
        (fun s t v ↦ r s t v + sineSeries input.xm input.xn (terms.rSine.get s) t v)
        (fun s t v ↦ z s t v + cosineSeries input.xm input.xn (terms.zCosine.get s) t v)) := by
  obtain ⟨hrSine, hzCosine⟩ := h.asymmetric terms hterms
  have hsines := fun s ↦ differentiable_sineSeries input.xm input.xn (terms.rSine.get s)
  have hcosines := fun s ↦ differentiable_cosineSeries input.xm input.xn (terms.zCosine.get s)
  unfold addAsymmetric Geometry.ofSurfaces
  rw [sines_closedBasis hrSine, cosines_xm hrSine, cosines_xn hrSine h.xn_size,
    cosines_closedBasis hzCosine, sines_negated_xm hzCosine, sines_negated_xn hzCosine h.xn_size,
    alongTheta_add hr hsines, alongZeta_add hr hsines, alongTheta_add hz hcosines,
    alongZeta_add hz hcosines]
  simp only [← zipWith_onGrid]
  rfl

/-- The surfaces of an equilibrium on a closed angular grid. -/
theorem geometryOf_eq_ok :
    geometryOf input (closedBasis nTheta nZeta input.xm input.xn) =
      .ok (Geometry.ofSurfaces input.surfaces nTheta nZeta input.surfaceR input.surfaceZ) := by
  unfold geometryOf SpectralInput.surfaceR SpectralInput.surfaceZ
  refine bind_eq_ok_iff.mpr ⟨_, symmetricGeometry_eq_ok h, ?_⟩
  cases hasymmetric : input.asymmetric with
  | none =>
      simp only [Option.elim_none, add_zero]
      rfl
  | some terms =>
      exact addAsymmetric_eq_ok h hasymmetric (fun s ↦ differentiable_cosineSeries _ _ _)
        (fun s ↦ differentiable_sineSeries _ _ _)

/-- Summing the series of an equilibrium gives the mesh of its surfaces and its field. -/
theorem synthesize_eq_ok (hmodes : 0 < input.xm.size) (hfield : 0 < input.fieldXm.size)
    (htheta : 0 < nTheta) (hzeta : 0 < nZeta) : ∃ u w,
      halfToFull input.poloidal = .ok u ∧ halfToFull input.toroidal = .ok w ∧
      synthesize input nTheta nZeta = .ok (ofSeries input u w nTheta nZeta) := by
  obtain ⟨u, hu, hushape⟩ := halfToFull_eq_ok (h.poloidal.1 ▸ h.three_le)
  obtain ⟨w, hw, hwshape⟩ := halfToFull_eq_ok (h.toroidal.1 ▸ h.three_le)
  rw [h.poloidal.1, h.poloidal.2] at hushape
  rw [h.toroidal.1, h.toroidal.2] at hwshape
  have hbasis := HarmonicBasis.onClosedAngles_eq_ok h.xn_size hmodes htheta hzeta
  refine ⟨u, w, hu, hw, ?_⟩
  rw [synthesize_eq]
  refine bind_eq_ok_iff.mpr ⟨_, hbasis, ?_⟩
  refine bind_eq_ok_iff.mpr ⟨_, fieldBasisOf_eq_ok h hfield htheta hzeta, ?_⟩
  refine bind_eq_ok_iff.mpr ⟨_, geometryOf_eq_ok h, ?_⟩
  refine bind_eq_ok_iff.mpr ⟨_, hu, ?_⟩
  refine bind_eq_ok_iff.mpr ⟨_, cosines_closedBasis hushape, ?_⟩
  refine bind_eq_ok_iff.mpr ⟨_, hw, ?_⟩
  refine bind_eq_ok_iff.mpr ⟨_, cosines_closedBasis hwshape, ?_⟩
  unfold Geometry.ofSurfaces
  simp only [combine_onGrid, zipWith_onGrid]
  rfl

end Mesh

/-- A mesh holds the surfaces of an equilibrium and, at every node of the closed angular grid, the
field with the given contravariant components. -/
structure Samples (mesh : SurfaceMesh ℝ) (input : SpectralInput ℝ) (u w : Table ℝ)
    (nTheta nZeta : ℕ) : Prop where
  theta : mesh.theta = closedAngles nTheta
  zeta : mesh.zeta = closedAngles nZeta
  shape : ∀ c ∈ [mesh.r, mesh.z, mesh.br, mesh.bz, mesh.bphi],
    c.n = input.surfaces ∧ c.m = nTheta ∧ c.l = nZeta
  value : ∀ s < input.surfaces, ∀ i < nTheta, ∀ j < nZeta,
    let t := nth mesh.theta i
    let v := nth mesh.zeta j
    let bu := input.fieldSeries u s t v
    let bv := input.fieldSeries w s t v
    mesh.r.get s i j = input.surfaceR s t v ∧
    mesh.z.get s i j = input.surfaceZ s t v ∧
    mesh.br.get s i j = bu * deriv (fun t ↦ input.surfaceR s t v) t +
      bv * deriv (fun v ↦ input.surfaceR s t v) v ∧
    mesh.bz.get s i j = bu * deriv (fun t ↦ input.surfaceZ s t v) t +
      bv * deriv (fun v ↦ input.surfaceZ s t v) v ∧
    mesh.bphi.get s i j = input.surfaceR s t v * bv

/-- The entries of the mesh of an equilibrium. -/
theorem samples_ofSeries (input : SpectralInput ℝ) (u w : Table ℝ) (nTheta nZeta : ℕ) :
    (ofSeries input u w nTheta nZeta).Samples input u w nTheta nZeta where
  theta := rfl
  zeta := rfl
  shape := by
    intro c hc
    simp only [List.mem_cons, List.not_mem_nil, or_false] at hc
    rcases hc with rfl | rfl | rfl | rfl | rfl <;> exact ⟨rfl, rfl, rfl⟩
  value s hs i hi j hj := ⟨get_onGrid _ hs hi hj, get_onGrid _ hs hi hj, get_onGrid _ hs hi hj,
    get_onGrid _ hs hi hj, get_onGrid _ hs hi hj⟩

/-- For data that are taken from named arrays the synthesis gives a mesh whose entries are the
positions on the surfaces and the cylindrical components of the field. The contravariant
components are moved onto the surfaces first, and the derivatives of the surfaces are true ones. -/
theorem synthesize_samples {arrays : Dataset ℝ} {input : SpectralInput ℝ} {warnings : ℕ}
    (h : SpectralInput.ofNamed arrays = .ok (input, warnings)) (hmodes : 0 < input.xm.size)
    (hfield : 0 < input.fieldXm.size) {nTheta nZeta : ℕ} (htheta : 1 ≤ nTheta)
    (hzeta : 1 ≤ nZeta) : ∃ mesh u w,
      synthesize input nTheta nZeta = .ok mesh ∧
      halfToFull input.poloidal = .ok u ∧ halfToFull input.toroidal = .ok w ∧
      mesh.Samples input u w nTheta nZeta ∧
      ∀ s, (Differentiable ℝ fun p : ℝ × ℝ ↦ input.surfaceR s p.1 p.2) ∧
        Differentiable ℝ fun p : ℝ × ℝ ↦ input.surfaceZ s p.1 p.2 := by
  have hconsistent := SpectralInput.consistent_of_ofNamed h
  obtain ⟨u, w, hu, hw, hmesh⟩ := synthesize_eq_ok hconsistent hmodes hfield htheta hzeta
  refine ⟨_, u, w, hmesh, hu, hw, samples_ofSeries input u w nTheta nZeta, fun s ↦ ?_⟩
  exact ⟨input.differentiable_surfaceR s, input.differentiable_surfaceZ s⟩

/-! ## A tilted equilibrium -/

/-- Arrays of an equilibrium with two modes, modes of its own for the field, and both asymmetric
terms. -/
def tiltedArrays : Dataset ℝ where
  entries := [
    ("xm", ⟨[2], #[1, 2], rfl⟩), ("xn", ⟨[2], #[1, -3], rfl⟩),
    ("rmnc", ⟨[3, 2], #[3, 0, 3, 1, 3, 2], rfl⟩), ("zmns", ⟨[3, 2], #[1, 0, 2, 1, 3, 2], rfl⟩),
    ("xm_nyq", ⟨[1], #[2], rfl⟩), ("xn_nyq", ⟨[1], #[1], rfl⟩),
    ("bsupumnc", ⟨[3, 1], #[0, 1, 2], rfl⟩), ("bsupvmnc", ⟨[3, 1], #[0, 3, 4], rfl⟩),
    ("iasym", ⟨[], #[1], rfl⟩),
    ("rmns", ⟨[3, 2], #[0, 1, 0, 2, 0, 3], rfl⟩), ("zmnc", ⟨[3, 2], #[1, 0, 2, 0, 3, 1], rfl⟩)]

/-- The data that are taken from these arrays. -/
def tilted : SpectralInput ℝ where
  xm := #[1, 2]
  xn := #[1, -3]
  fieldModes := some (#[2], #[1])
  rCosine := ⟨3, 2, #[3, 0, 3, 1, 3, 2], rfl⟩
  zSine := ⟨3, 2, #[1, 0, 2, 1, 3, 2], rfl⟩
  poloidal := ⟨3, 1, #[0, 1, 2], rfl⟩
  toroidal := ⟨3, 1, #[0, 3, 4], rfl⟩
  asymmetric := some ⟨⟨3, 2, #[0, 1, 0, 2, 0, 3], rfl⟩, ⟨3, 2, #[1, 0, 2, 0, 3, 1], rfl⟩⟩
  mpol := none
  ntor := none

open SpectralInput (coefficients_eq_ok_iff coefficientsOrZero_of_some checkCoefficients_eq_ok_iff)

/-- Both asymmetric terms are taken from the arrays. -/
theorem asymmetric?_tiltedArrays :
    SpectralInput.asymmetric? tiltedArrays 3 2 = .ok (tilted.asymmetric, 0) := by
  refine bind_eq_ok_iff.mpr ⟨some 1, rfl, ?_⟩
  simp only [Option.getD_some, beq_iff_eq, Exact.literal_zero, one_ne_zero, if_false]
  refine bind_eq_ok_iff.mpr
    ⟨_, coefficientsOrZero_of_some rfl ⟨rfl, rfl⟩ (Exact.all_isFinite _), ?_⟩
  refine bind_eq_ok_iff.mpr
    ⟨_, coefficientsOrZero_of_some rfl ⟨rfl, rfl⟩ (Exact.all_isFinite _), ?_⟩
  rfl

/-- The arrays are accepted. -/
theorem ofNamed_tiltedArrays : SpectralInput.ofNamed tiltedArrays = .ok (tilted, 0) := by
  refine bind_eq_ok_iff.mpr ⟨#[1, 2], rfl, ?_⟩
  refine bind_eq_ok_iff.mpr ⟨#[1, -3], rfl, ?_⟩
  refine Outcome.guard_eq_ok_iff.mpr ⟨by decide, ?_⟩
  refine bind_eq_ok_iff.mpr ⟨tilted.rCosine, rfl, ?_⟩
  refine bind_eq_ok_iff.mpr ⟨none, rfl, ?_⟩
  refine Outcome.guard_eq_ok_iff.mpr ⟨by decide, ?_⟩
  refine bind_eq_ok_iff.mpr
    ⟨(), checkCoefficients_eq_ok_iff.mpr ⟨⟨rfl, rfl⟩, Exact.all_isFinite _⟩, ?_⟩
  refine bind_eq_ok_iff.mpr ⟨tilted.zSine,
    coefficients_eq_ok_iff.mpr ⟨rfl, ⟨rfl, rfl⟩, Exact.all_isFinite _⟩, ?_⟩
  refine bind_eq_ok_iff.mpr ⟨tilted.fieldModes, rfl, ?_⟩
  refine bind_eq_ok_iff.mpr ⟨tilted.poloidal,
    coefficients_eq_ok_iff.mpr ⟨rfl, ⟨rfl, rfl⟩, Exact.all_isFinite _⟩, ?_⟩
  refine bind_eq_ok_iff.mpr ⟨tilted.toroidal,
    coefficients_eq_ok_iff.mpr ⟨rfl, ⟨rfl, rfl⟩, Exact.all_isFinite _⟩, ?_⟩
  exact bind_eq_ok_iff.mpr ⟨_, asymmetric?_tiltedArrays, rfl⟩

/-- The mesh of the tilted equilibrium on a grid of three by two angles. -/
theorem synthesize_tilted_samples :
    SpectralInput.ofNamed tiltedArrays = .ok (tilted, 0) ∧ ∃ mesh u w,
      synthesize tilted 3 2 = .ok mesh ∧
      halfToFull tilted.poloidal = .ok u ∧ halfToFull tilted.toroidal = .ok w ∧
      mesh.Samples tilted u w 3 2 ∧
      ∀ s, (Differentiable ℝ fun p : ℝ × ℝ ↦ tilted.surfaceR s p.1 p.2) ∧
        Differentiable ℝ fun p : ℝ × ℝ ↦ tilted.surfaceZ s p.1 p.2 :=
  ⟨ofNamed_tiltedArrays, synthesize_samples ofNamed_tiltedArrays (by decide) (by decide)
    (by decide) (by decide)⟩

end SurfaceMesh

end PlasmaField
