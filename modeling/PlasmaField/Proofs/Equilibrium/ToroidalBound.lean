import Mathlib
import PlasmaField.Proofs.Equilibrium.Regridded
import PlasmaField.Proofs.Equilibrium.Symmetry
import PlasmaField.Proofs.Field.Tangent
import PlasmaField.Proofs.Scattered.Embedding
import PlasmaField.Proofs.Scattered.Reproduction

/-!
# The toroidal component of a resampled equilibrium

Every sample of the toroidal component is the value outside the mesh or lies in the range of the
mesh, up to the slack of the weights, `toroidal_samples`. A query takes a mean of such samples.
Where the mesh is positive the mean keeps away from zero, and so it does where the mesh is negative
and the mean is not one of the mesh and the outside, which is positive, `staysClear_of_ofInput`.
-/

namespace PlasmaField

open Outcome (bind_eq_ok_iff)
open Scalar (nth)
open SurfaceMesh (onGrid)
open scoped Exact Elementary

namespace SurfaceMesh

/-- A series of cosines has the toroidal angles of its basis. -/
theorem l_of_cosines {basis : HarmonicBasis ℝ} {coeffs : Table ℝ} {c : Cube ℝ}
    (h : basis.cosines coeffs = .ok c) : c.l = basis.zeta.size := by
  unfold HarmonicBasis.cosines HarmonicBasis.synthesize at h
  split at h
  · cases h
  · cases h
    rfl

/-- The surfaces have the toroidal angles of their basis. -/
theorem r_l_of_geometryOf {input : SpectralInput ℝ} {basis : HarmonicBasis ℝ} {g : Geometry ℝ}
    (h : geometryOf input basis = .ok g) : g.r.l = basis.zeta.size := by
  obtain ⟨symmetric, hsymmetric, h⟩ := bind_eq_ok_iff.mp h
  have hl : symmetric.r.l = basis.zeta.size := by
    obtain ⟨r, hr, hsymmetric⟩ := bind_eq_ok_iff.mp hsymmetric
    obtain ⟨_, -, hsymmetric⟩ := bind_eq_ok_iff.mp hsymmetric
    obtain ⟨_, -, hsymmetric⟩ := bind_eq_ok_iff.mp hsymmetric
    obtain ⟨_, -, hsymmetric⟩ := bind_eq_ok_iff.mp hsymmetric
    obtain ⟨_, -, hsymmetric⟩ := bind_eq_ok_iff.mp hsymmetric
    obtain ⟨_, -, hsymmetric⟩ := bind_eq_ok_iff.mp hsymmetric
    cases hsymmetric
    exact l_of_cosines hr
  cases hterms : input.asymmetric with
  | none =>
      rw [hterms] at h
      cases h
      exact hl
  | some terms =>
      rw [hterms] at h
      obtain ⟨_, -, h⟩ := bind_eq_ok_iff.mp h
      obtain ⟨_, -, h⟩ := bind_eq_ok_iff.mp h
      obtain ⟨_, -, h⟩ := bind_eq_ok_iff.mp h
      obtain ⟨_, -, h⟩ := bind_eq_ok_iff.mp h
      obtain ⟨_, -, h⟩ := bind_eq_ok_iff.mp h
      obtain ⟨_, -, h⟩ := bind_eq_ok_iff.mp h
      cases h
      exact hl

/-- The mesh has the toroidal angles that are asked for. -/
theorem bphi_l_of_synthesize {input : SpectralInput ℝ} {nTheta nZeta : ℕ} {mesh : SurfaceMesh ℝ}
    (h : synthesize input nTheta nZeta = .ok mesh) : mesh.bphi.l = nZeta := by
  rw [synthesize_eq] at h
  obtain ⟨basis, hbasis, h⟩ := bind_eq_ok_iff.mp h
  obtain ⟨fieldBasis, -, h⟩ := bind_eq_ok_iff.mp h
  obtain ⟨g, hg, h⟩ := bind_eq_ok_iff.mp h
  obtain ⟨_, -, h⟩ := bind_eq_ok_iff.mp h
  obtain ⟨_, -, h⟩ := bind_eq_ok_iff.mp h
  obtain ⟨_, -, h⟩ := bind_eq_ok_iff.mp h
  obtain ⟨_, -, h⟩ := bind_eq_ok_iff.mp h
  cases h
  obtain rfl := eq_closedBasis hbasis
  exact (r_l_of_geometryOf hg).trans (size_closedAngles nZeta)

end SurfaceMesh

namespace RegriddedField

variable {input : SpectralInput ℝ} {p : RegridParameters} {s : Resampling} (hs : s.Valid p input)
include hs

/-- The slices of the regular grid are slices of the mesh. -/
theorem exists_resample {slice : Slice ℝ} (hslice : slice ∈ s.slicesAtAngles.2) :
    ∃ k < s.nZeta.toNat, resample s.mesh (s.radii p) (s.heights p) k = .ok slice := by
  have hmem : slice ∈ s.slices := by
    unfold Resampling.slicesAtAngles at hslice
    split at hslice
    · simpa using hslice
    · exact hslice
  obtain ⟨k, hk, hresample⟩ := Outcome.exists_of_mem_mapM hs.slices hmem
  exact ⟨k, List.mem_range.mp hk, hresample⟩

/-- A sample of the toroidal component is the value outside the mesh or lies in the range of the
mesh, up to the slack of the weights. -/
theorem toroidal_samples {lower upper : ℝ}
    (hmesh : ∀ b ∈ s.mesh.bphi.data, lower ≤ b ∧ b ≤ upper) :
    ∀ v ∈ (s.field p).bphi.samples.data, v = outsideToroidal ∨
      lower - 3 / 10 ^ 10 * (upper - lower) ≤ v ∧ v ≤ upper + 3 / 10 ^ 10 * (upper - lower) := by
  intro v hv
  have hsize : ∀ xs ∈ s.slicesAtAngles.2.map Slice.bphi, xs.size = p.nr.toNat * p.nz.toNat := by
    intro xs hxs
    obtain ⟨slice, hslice, rfl⟩ := List.mem_map.mp hxs
    obtain ⟨k, -, hresample⟩ := exists_resample hs hslice
    obtain ⟨scattered, -, -, rfl⟩ := resample_eq_ok_iff.mp hresample
    rw [size_valuesAt, Resampling.size_radii, Resampling.size_heights]
  obtain ⟨xs, hxs, hv⟩ := exists_of_mem_stack hsize hv
  obtain ⟨slice, hslice, rfl⟩ := List.mem_map.mp hxs
  obtain ⟨k, hk, hresample⟩ := exists_resample hs hslice
  obtain ⟨scattered, hscattered, hsizes, rfl⟩ := resample_eq_ok_iff.mp hresample
  obtain ⟨q, -, hq⟩ := List.mem_map.mp (Array.mem_toList_iff.mpr hv)
  obtain ⟨-, -, -, rfl⟩ := Scattered.ofPoints_eq_ok_iff.mp hscattered
  have hbphi : (s.mesh.bphi.slice k).size = (pointsOf s.mesh k).size := hsizes _ (by simp)
  cases hlocate : (Scattered.interpolantOf (pointsOf s.mesh k)).locate q.x q.y with
  | none =>
      refine .inl ?_
      rw [← hq, hlocate]
      rfl
  | some e =>
      refine .inr ?_
      rw [← hq, hlocate]
      refine (Scattered.weighs_of_locate hlocate).combine_mem fun i hi ↦ hmesh _ ?_
      refine s.mesh.bphi.nth_slice_mem ?_ (hbphi ▸ hi)
      rwa [SurfaceMesh.bphi_l_of_synthesize hs.mesh]

omit hs in
/-- The value outside the mesh is one. -/
theorem outsideToroidal_eq : (outsideToroidal : ℝ) = 1 :=
  Exact.literal_one

/-- The toroidal component at a place is the value outside the mesh, or a mean of samples. -/
theorem toroidal_cases (x z phi : ℝ) :
    lookup (s.field p).bphi x z phi = outsideToroidal ∨
      Multilinear.IsMean ((s.field p).bphi.cornersAt [x, z, Scalar.wrap fullTurn phi]) 1
        (s.field p).bphi.samples.data.size ∧
      lookup (s.field p).bphi x z phi =
        (((s.field p).bphi.cornersAt [x, z, Scalar.wrap fullTurn phi]).map fun c ↦
          c.weight * nth (s.field p).bphi.samples.data c.place).sum := by
  have husable : List.Forall₂ Multilinear.Usable (s.field p).bphi.axes
      (s.field p).bphi.samples.shape := by
    have hshape : (s.field p).bphi.samples.shape =
        [p.nr.toNat, p.nz.toNat, s.slicesAtAngles.2.length] := by
      simp [Resampling.field, interpolants, stack, Cube.toShaped, Cube.ofFn]
    rw [hshape]
    exact hs.usable
  exact (Multilinear.eval_cases husable rfl).imp And.right id

/-- A place at which the toroidal component mixes the value outside the mesh with others: both
belong to corners of the place's cell that have a weight. -/
def MixesOutside (e : RegriddedField ℝ) (x z phi : ℝ) : Prop :=
  ∃ c ∈ e.bphi.cornersAt [x, z, Scalar.wrap fullTurn phi],
    ∃ d ∈ e.bphi.cornersAt [x, z, Scalar.wrap fullTurn phi], c.weight ≠ 0 ∧ d.weight ≠ 0 ∧
      nth e.bphi.samples.data c.place = outsideToroidal ∧
      nth e.bphi.samples.data d.place ≠ outsideToroidal

section Bounds

variable {m : ℝ} (hm : m ≤ 1)
include hm

/-- If no sample is below a bound, neither is the toroidal component. -/
theorem le_toroidal (hsamples : ∀ v ∈ (s.field p).bphi.samples.data, v = outsideToroidal ∨ m ≤ v)
    (x z phi : ℝ) : m ≤ lookup (s.field p).bphi x z phi := by
  rcases toroidal_cases hs x z phi with houtside | ⟨hmean, hsum⟩
  · rw [houtside, outsideToroidal_eq]
    exact hm
  · rw [hsum]
    refine hmean.le_sum fun c hc _ ↦ ?_
    rcases hsamples _ (hmean.nth_mem hc) with houtside | hle
    · rw [houtside, outsideToroidal_eq]
      exact hm
    · exact hle

/-- If no sample but the value outside the mesh is above the negative of a bound, the toroidal
component keeps away from zero where it does not mix the two. -/
theorem le_abs_toroidal
    (hsamples : ∀ v ∈ (s.field p).bphi.samples.data, v = outsideToroidal ∨ v ≤ -m)
    {x z phi : ℝ} (hclear : ¬ (s.field p).MixesOutside x z phi) :
    m ≤ |lookup (s.field p).bphi x z phi| := by
  rcases toroidal_cases hs x z phi with houtside | ⟨hmean, hsum⟩
  · rw [houtside, outsideToroidal_eq, abs_one]
    exact hm
  · rw [hsum]
    by_cases hcorner : ∃ c ∈ (s.field p).bphi.cornersAt [x, z, Scalar.wrap fullTurn phi],
        c.weight ≠ 0 ∧ nth (s.field p).bphi.samples.data c.place = outsideToroidal
    · -- one corner with a weight is outside, and so are all of them
      obtain ⟨c, hc, hweight, houtside⟩ := hcorner
      refine (hmean.le_sum fun d hd hne ↦ ?_).trans (le_abs_self _)
      have hd : nth (s.field p).bphi.samples.data d.place = outsideToroidal := by
        by_contra hinside
        exact hclear ⟨c, hc, d, hd, hweight, hne, houtside, hinside⟩
      rw [hd, outsideToroidal_eq]
      exact hm
    · refine le_abs.mpr (.inr (le_neg.mp (hmean.sum_le fun c hc hne ↦ ?_)))
      exact (hsamples _ (hmean.nth_mem hc)).resolve_left fun houtside ↦
        hcorner ⟨c, hc, hne, houtside⟩

end Bounds

/-- The toroidal component keeps away from zero at the places of a region: its magnitude reaches the
threshold, batches of such places have their tangents without warnings, and none is degenerate. -/
structure StaysClear (e : RegriddedField ℝ) (region : ℝ → ℝ → ℝ → Prop) : Prop where
  magnitude : ∀ x z phi, region x z phi →
    MagneticField.degeneracyThreshold ≤ |lookup e.bphi x z phi|
  tangents : ∀ positions places y, positions.places = .ok places →
    (∀ q ∈ places.data, region q.1 q.2 y) →
    ∃ t, (MagneticField.spectral e).tangents positions y .fail = .ok (t, 0)
  never : ∀ positions y,
    (∀ places, positions.places = .ok places → ∀ q ∈ places.data, region q.1 q.2 y) →
    ∀ count least threshold, (MagneticField.spectral e).tangents positions y .fail ≠
      .error (.degenerate count least threshold)

omit hs in
/-- A bound on the magnitude is enough. -/
theorem staysClear_of_magnitude {e : RegriddedField ℝ} {region : ℝ → ℝ → ℝ → Prop}
    (h : ∀ x z phi, region x z phi →
      MagneticField.degeneracyThreshold ≤ |lookup e.bphi x z phi|) : StaysClear e region where
  magnitude := h
  tangents positions places y hplaces hregion := by
    have hbound : ∀ q ∈ places.data, MagneticField.degeneracyThreshold ≤
        |(MagneticField.spectral e).toroidal ⟨q.1, q.2, y⟩| := fun q hq ↦ h _ _ _ (hregion q hq)
    exact MagneticField.tangents_eq_ok hplaces hbound .fail
  never positions y hregion count least threshold hdegenerate := by
    obtain ⟨places, hplaces, q, hq, hsmall⟩ :=
      MagneticField.tangents_degenerate_iff.mp ⟨count, least, threshold, hdegenerate⟩
    exact hsmall.not_ge (h _ _ _ (hregion places hplaces q hq))

omit hs in
/-- If the toroidal component of the mesh is positive and neither small nor large, that of the
resampled equilibrium is nowhere degenerate. If it is negative, degenerate places can only be those
that mix the mesh with the outside, where the component is positive. -/
theorem staysClear_of_ofInput {e : RegriddedField ℝ} (h : ofInput input p = .ok e)
    {nTheta nZeta : UInt64} (hresolution : input.resolution p = .ok (nTheta, nZeta))
    {mesh : SurfaceMesh ℝ}
    (hmesh : SurfaceMesh.synthesize input nTheta.toNat nZeta.toNat = .ok mesh) :
    ((∀ b ∈ mesh.bphi.data, 1 / 1000 ≤ b ∧ b ≤ 1000) → StaysClear e fun _ _ _ ↦ True) ∧
      ((∀ b ∈ mesh.bphi.data, -1000 ≤ b ∧ b ≤ -(1 / 1000)) →
        StaysClear e fun x z phi ↦ ¬ e.MixesOutside x z phi) := by
  obtain ⟨s, hs, rfl⟩ := ofInput_eq_ok_iff.mp h
  obtain ⟨rfl, rfl⟩ : s.nTheta = nTheta ∧ s.nZeta = nZeta := by
    simpa using hs.resolution.symm.trans hresolution
  obtain rfl : s.mesh = mesh := Except.ok.inj (hs.mesh.symm.trans hmesh)
  have hthreshold : (MagneticField.degeneracyThreshold : ℝ) ≤ 9 / 10000 := by
    unfold MagneticField.degeneracyThreshold
    rw [Exact.literal_scientific, Exact.decimal_eq]
    norm_num
  constructor
  · intro hpositive
    refine staysClear_of_magnitude fun x z phi _ ↦ ?_
    have hsamples := toroidal_samples hs hpositive
    have hle := le_toroidal hs (m := 9 / 10000) (by norm_num)
      (fun v hv ↦ (hsamples v hv).imp id fun hrange ↦ by linarith [hrange.1]) x z phi
    exact hthreshold.trans (hle.trans (le_abs_self _))
  · intro hnegative
    refine staysClear_of_magnitude fun x z phi hclear ↦ ?_
    have hsamples := toroidal_samples hs hnegative
    exact hthreshold.trans (le_abs_toroidal hs (by norm_num)
      (fun v hv ↦ (hsamples v hv).imp id fun hrange ↦ by linarith [hrange.2]) hclear)

/-! ## A wedge -/

omit hs

/-- An axisymmetric equilibrium whose surfaces are the corners of a triangle, with a toroidal
component that is the same everywhere. -/
noncomputable def wedge (b : ℝ) : SpectralInput ℝ where
  xm := #[0]
  xn := #[0]
  fieldModes := none
  rCosine := ⟨3, 1, #[1, 2, 1], rfl⟩
  zSine := ⟨3, 1, #[0, 0, 0], rfl⟩
  poloidal := ⟨3, 1, #[0, 0, 0], rfl⟩
  toroidal := ⟨3, 1, #[b, b, 0], rfl⟩
  asymmetric := some ⟨⟨3, 1, #[0, 0, 0], rfl⟩, ⟨3, 1, #[0, 0, 1], rfl⟩⟩
  mpol := none
  ntor := none

/-- The wedge is resampled at the corners of a square. -/
def wedgeGrid : RegridParameters :=
  ⟨some 2, some 1, 2, 2, false⟩

/-- The wedge is resampled at the corners of a square and at a number of toroidal angles. -/
def wedgeGridAt (nZeta : UInt64) : RegridParameters :=
  ⟨some 2, some nZeta, 2, 2, false⟩

/-- The grid of the wedge makes sense, over every type of scalars. -/
theorem validate_wedgeGridAt {α : Type} {nZeta : UInt64} (hn : 0 < nZeta) :
    (wedgeGridAt nZeta).validate = (.ok () : Except (FieldError α) Unit) := by
  unfold wedgeGridAt RegridParameters.validate
  simp [UInt64.pos_iff_ne_zero.mp hn, pure, Except.pure]

/-- The numbers of angles of the wedge, over every type of scalars. -/
theorem resolution_wedgeGridAt {α : Type} (input : SpectralInput α) {nZeta : UInt64}
    (hn : 0 < nZeta) : input.resolution (wedgeGridAt nZeta) = .ok (2, nZeta) := by
  have hpos : 0 < nZeta.toNat := UInt64.lt_iff_toNat_lt.mp hn
  show (if (2 : UInt64) < 2 || nZeta < 1 then _ else _) = _
  rw [if_neg (by simpa [UInt64.lt_iff_toNat_lt] using hpos.ne')]
  rfl

/-- The points of the wedge. -/
def wedgePoints : Array (Point ℚ) :=
  #[⟨1, 0⟩, ⟨1, 0⟩, ⟨2, 0⟩, ⟨2, 0⟩, ⟨1, 1⟩, ⟨1, 1⟩]

/-- The coefficients of the wedge fit together. -/
theorem consistent_wedge (b : ℝ) : (wedge b).Consistent where
  three_le := le_rfl
  xn_size := rfl
  rCosine := ⟨rfl, rfl⟩
  zSine := ⟨rfl, rfl⟩
  fieldXn_size := rfl
  poloidal := ⟨rfl, rfl⟩
  toroidal := ⟨rfl, rfl⟩
  asymmetric := by
    intro terms hterms
    cases hterms
    exact ⟨⟨rfl, rfl⟩, rfl, rfl⟩

/-- A series of one mode without angles is its coefficient, and the series of sines is zero. -/
theorem series_constant (a : ℕ → ℝ) (t v : ℝ) :
    cosineSeries #[0] #[0] a t v = a 0 ∧ sineSeries #[0] #[0] a t v = 0 := by
  simp [cosineSeries, sineSeries, Exact.nth_eq_getD]

/-- The mesh of the wedge. -/
theorem synthesize_wedge (b : ℝ) {n : ℕ} (hn : 0 < n) :
    ∃ mesh, SurfaceMesh.synthesize (wedge b) 2 n = .ok mesh ∧
      mesh.r = onGrid 3 2 n (fun s _ _ ↦ (#[1, 2, 1] : Array ℝ).getD s 0) ∧
      mesh.z = onGrid 3 2 n (fun s _ _ ↦ (#[0, 0, 1] : Array ℝ).getD s 0) ∧
      mesh.bphi = onGrid 3 2 n (fun _ _ _ ↦ b) ∧
      ∀ c ∈ [mesh.br, mesh.bz, mesh.bphi], ∀ k, (c.slice k).size = 6 := by
  obtain ⟨u, w, -, hw, hmesh⟩ := SurfaceMesh.synthesize_eq_ok (consistent_wedge b) one_pos one_pos
    two_pos hn
  have hr : ∀ s < 3, (wedge b).surfaceR s = fun _ _ ↦ (#[1, 2, 1] : Array ℝ).getD s 0 := by
    intro s hs
    funext t v
    simp only [SpectralInput.surfaceR, wedge, series_constant, Option.elim_some, add_zero]
    interval_cases s <;> rfl
  have hz : ∀ s < 3, (wedge b).surfaceZ s = fun _ _ ↦ (#[0, 0, 1] : Array ℝ).getD s 0 := by
    intro s hs
    funext t v
    simp only [SpectralInput.surfaceZ, wedge, series_constant, Option.elim_some, zero_add]
    interval_cases s <;> rfl
  have hbphi : ∀ s < 3,
      (fun t v ↦ (wedge b).surfaceR s t v * (wedge b).fieldSeries w s t v) = fun _ _ ↦ b := by
    intro s hs
    funext t v
    have hseries : (wedge b).fieldSeries w s t v = w.get s 0 := (series_constant _ _ _).1
    have hrows : s < (wedge b).toroidal.rows := hs
    have hcols : 0 < (wedge b).toroidal.cols := one_pos
    obtain rfl : _ = w := Except.ok.inj hw
    rw [hseries, hr s hs, Table.get_ofFn _ hrows hcols]
    interval_cases s <;> simp [wedge, Table.get] <;> ring
  refine ⟨_, hmesh, SurfaceMesh.onGrid_congr hr, SurfaceMesh.onGrid_congr hz,
    SurfaceMesh.onGrid_congr hbphi, fun c hc k ↦ ?_⟩
  simp only [List.mem_cons, List.not_mem_nil, or_false] at hc
  rcases hc with rfl | rfl | rfl <;> exact Array.size_ofFn

/-- Three corners of the square are located on the wedge, and the fourth one is not. -/
theorem ofPoints_wedge : ∃ s,
    Scattered.ofPoints (wedgePoints.map (Point.map (Rat.castHom ℝ))) = .ok s ∧ s.inputs = 6 ∧
    (s.locate 1 0).isSome ∧ (s.locate 1 1).isSome ∧ (s.locate 2 0).isSome ∧
    s.locate 2 1 = none := by
  have hok : Scattered.ofPoints wedgePoints = .ok (Scattered.interpolantOf wedgePoints) :=
    Scattered.ofPoints_of_isOk (by decide +kernel)
  obtain ⟨s, hs, hinputs, hlocate⟩ :=
    Scattered.ofPoints_map (f := Rat.castHom ℝ) Rat.cast_strictMono _ hok
  have h₁₀ := hlocate 1 0
  have h₁₁ := hlocate 1 1
  have h₂₀ := hlocate 2 0
  have h₂₁ := hlocate 2 1
  simp only [map_one, map_zero, map_ofNat] at h₁₀ h₁₁ h₂₀ h₂₁
  refine ⟨s, hs, hinputs, ?_, ?_, ?_, ?_⟩
  · rw [h₁₀, Option.isSome_map]
    decide +kernel
  · rw [h₁₁, Option.isSome_map]
    decide +kernel
  · rw [h₂₀, Option.isSome_map]
    decide +kernel
  · rw [h₂₁, Option.map_eq_none_iff]
    exact Option.isNone_iff_eq_none.mp (by decide +kernel)

/-- The toroidal component of the resampled wedge at the corners of the square, by column. -/
def wedgeCorners (b : ℝ) : Array ℝ :=
  #[b, b, b, 1]

/-- A slice of the wedge. Three samples are those of the mesh, and the fourth one is the value
outside it. -/
theorem resample_wedge {b : ℝ} {n : ℕ} {mesh : SurfaceMesh ℝ}
    (hr : mesh.r = onGrid 3 2 n fun s _ _ ↦ (#[1, 2, 1] : Array ℝ).getD s 0)
    (hz : mesh.z = onGrid 3 2 n fun s _ _ ↦ (#[0, 0, 1] : Array ℝ).getD s 0)
    (hbphi : mesh.bphi = onGrid 3 2 n fun _ _ _ ↦ b) {k : ℕ} (hk : k < n)
    (hsizes : ∀ c ∈ [mesh.br, mesh.bz, mesh.bphi], (c.slice k).size = 6) :
    ∃ slice, resample mesh #[1, 2] #[0, 1] k = .ok slice ∧ slice.bphi = wedgeCorners b := by
  obtain ⟨scattered, hscattered, hinputs, h₁₀, h₁₁, h₂₀, h₂₁⟩ := ofPoints_wedge
  have hslice : ∀ f : ℕ → ℝ, (onGrid 3 2 n fun s _ _ ↦ f s).slice k =
      #[f 0, f 0, f 1, f 1, f 2, f 2] := fun f ↦ (Cube.slice_ofFn _ hk).trans rfl
  have hpoints : pointsOf mesh k = wedgePoints.map (Point.map (Rat.castHom ℝ)) := by
    unfold pointsOf
    rw [hr, hz, hslice, hslice]
    simp [wedgePoints, Point.map]
  -- where a target is located, the samples of the mesh are all the same
  have hlocated : ∀ {x y : ℝ}, (scattered.locate x y).isSome →
      (scattered.locate x y).elim outsideToroidal (·.combine (mesh.bphi.slice k)) = b := by
    intro x y hlocate
    obtain ⟨e, he⟩ := Option.isSome_iff_exists.mp hlocate
    obtain ⟨-, -, -, rfl⟩ := Scattered.ofPoints_eq_ok_iff.mp hscattered
    rw [he]
    refine (Scattered.weighs_of_locate he).combine_constant fun i hi ↦ ?_
    have hi : i < 6 := by simpa [wedgePoints] using hi
    rw [hbphi, hslice]
    interval_cases i <;> rfl
  have hnodes : nodesOf #[1, 2] #[0, 1] = [⟨1, 0⟩, ⟨1, 1⟩, ⟨2, 0⟩, ⟨2, 1⟩] := rfl
  refine ⟨_, resample_eq_ok_iff.mpr ⟨scattered, hpoints ▸ hscattered,
    fun c hc ↦ (hsizes c hc).trans hinputs.symm, rfl⟩, ?_⟩
  unfold valuesAt
  simp only [hnodes, List.map_cons, List.map_nil, hlocated h₁₀, hlocated h₁₁, hlocated h₂₀, h₂₁,
    Option.elim_none]
  rw [outsideToroidal_eq]
  rfl

/-- Two or more angles of a closed turn are an axis. -/
theorem usable_closedAngles {n : ℕ} (hn : 2 ≤ n) : Multilinear.Usable (closedAngles n : Array ℝ) n
    where
  two_le := hn.trans_eq (size_closedAngles n).symm
  size := size_closedAngles n
  increasing := fun _ hi ↦ nth_closedAngles_lt_succ (hi.trans_eq (size_closedAngles n))

/-- The angles of a resampling are an axis for their slices. -/
theorem Resampling.usable_angles {s : Resampling} (hzeta : s.mesh.zeta = closedAngles s.nZeta.toNat)
    (hlength : s.slices.length = s.nZeta.toNat) (hpos : 0 < s.nZeta.toNat) :
    Multilinear.Usable s.slicesAtAngles.1 s.slicesAtAngles.2.length := by
  unfold Resampling.slicesAtAngles
  split
  next hone =>
    rw [hone] at hlength
    rw [List.length_append, hlength]
    exact Multilinear.usable_pair Real.two_pi_pos
  next hone =>
    have hne : s.nZeta.toNat ≠ 1 := fun h ↦ hone (UInt64.toNat_inj.mp h)
    rw [hzeta, hlength]
    exact usable_closedAngles (by omega)

/-- The range of a coordinate that only depends on the surface. -/
theorem range?_onGrid {f : ℕ → ℝ} {surfaces nTheta nZeta i j : ℕ} (hi : i < surfaces)
    (hj : j < surfaces) (hbound : ∀ s < surfaces, f i ≤ f s ∧ f s ≤ f j) (htheta : 0 < nTheta)
    (hzeta : 0 < nZeta) :
    Scalar.range? (onGrid surfaces nTheta nZeta fun s _ _ ↦ f s).data.toList =
      some (f i, f j) := by
  refine Exact.range?_eq_some (Array.mem_toList_iff.mpr (Cube.mem_ofFn _ hi htheta hzeta))
    (Array.mem_toList_iff.mpr (Cube.mem_ofFn _ hj htheta hzeta)) fun x hx ↦ ?_
  obtain ⟨s, _, _, hs, -, -, rfl⟩ := Cube.exists_of_mem_ofFn (Array.mem_toList_iff.mp hx)
  exact hbound s hs

/-- The wedge can be resampled at any number of toroidal angles. -/
theorem exists_valid_wedge (b : ℝ) {nZeta : UInt64} (hn : 0 < nZeta) :
    ∃ s : Resampling, s.Valid (wedgeGridAt nZeta) (wedge b) ∧ s.nTheta = 2 ∧ s.nZeta = nZeta ∧
      s.radii (wedgeGridAt nZeta) = #[1, 2] ∧ s.heights (wedgeGridAt nZeta) = #[0, 1] ∧
      (∀ v ∈ s.mesh.bphi.data, v = b) ∧ ∀ slice ∈ s.slices, slice.bphi = wedgeCorners b := by
  have hpos : 0 < nZeta.toNat := UInt64.lt_iff_toNat_lt.mp hn
  obtain ⟨mesh, hmesh, hr, hz, hbphi, hsizes⟩ := synthesize_wedge b hpos
  have hslices : ∀ k, ∃ slice, k < nZeta.toNat →
      resample mesh #[1, 2] #[0, 1] k = .ok slice ∧ slice.bphi = wedgeCorners b := by
    intro k
    by_cases hk : k < nZeta.toNat
    · obtain ⟨slice, hslice⟩ := resample_wedge hr hz hbphi hk fun c hc ↦ hsizes c hc k
      exact ⟨slice, fun _ ↦ hslice⟩
    · exact ⟨⟨#[], #[], #[]⟩, fun hlt ↦ absurd hlt hk⟩
  choose slice hslice using hslices
  have hpair : ∀ a b : ℝ, Scalar.linspace a b 2 = #[a, b] := by
    intro a b
    simp [Scalar.linspace, Array.ofFn_succ]
  let s : Resampling := ⟨2, nZeta, mesh, (1, 2), (0, 1), (List.range nZeta.toNat).map slice⟩
  have hradii : s.radii (wedgeGridAt nZeta) = #[1, 2] := hpair 1 2
  have hheights : s.heights (wedgeGridAt nZeta) = #[0, 1] := hpair 0 1
  have hangles := Resampling.usable_angles (s := s) (SurfaceMesh.zeta_of_synthesize hmesh)
    ((List.length_map _).trans List.length_range) hpos
  have hs : s.Valid (wedgeGridAt nZeta) (wedge b) := {
    parameters := validate_wedgeGridAt hn
    resolution := resolution_wedgeGridAt _ hn
    mesh := hmesh
    rRange := by
      show Scalar.range? mesh.r.data.toList = some (1, 2)
      rw [hr]
      refine range?_onGrid (f := fun s ↦ (#[1, 2, 1] : Array ℝ).getD s 0) (i := 0) (j := 1)
        (by decide) (by decide) (fun s hs ↦ ?_) two_pos hpos
      interval_cases s <;> simp
    zRange := by
      show Scalar.range? mesh.z.data.toList = some (0, 1)
      rw [hz]
      refine range?_onGrid (f := fun s ↦ (#[0, 0, 1] : Array ℝ).getD s 0) (i := 0) (j := 2)
        (by decide) (by decide) (fun s hs ↦ ?_) two_pos hpos
      interval_cases s <;> simp
    rExtent := one_lt_two
    zExtent := zero_lt_one
    slices := by
      rw [hradii, hheights]
      exact Outcome.mapM_eq_map fun k hk ↦ (hslice k (List.mem_range.mp hk)).1
    usable := by
      unfold Resampling.axes
      rw [hradii, hheights]
      exact .cons (Multilinear.usable_pair one_lt_two)
        (.cons (Multilinear.usable_pair zero_lt_one) (.cons hangles .nil)) }
  refine ⟨s, hs, rfl, rfl, hradii, hheights, ?_, fun x hx ↦ ?_⟩
  · intro v hv
    rw [hbphi] at hv
    obtain ⟨_, _, _, -, -, -, rfl⟩ := Cube.exists_of_mem_ofFn hv
    rfl
  · obtain ⟨k, hk, rfl⟩ := List.mem_map.mp hx
    exact (hslice k (List.mem_range.mp hk)).2

/-- The wedge can be resampled. -/
theorem ofInput_wedge (b : ℝ) : ∃ e mesh, ofInput (wedge b) wedgeGrid = .ok e ∧
    SurfaceMesh.synthesize (wedge b) 2 1 = .ok mesh ∧ (∀ v ∈ mesh.bphi.data, v = b) ∧
    e.bphi = ⟨[#[1, 2], #[0, 1], #[0, fullTurn]],
      stack 2 2 [wedgeCorners b, wedgeCorners b], outsideToroidal⟩ := by
  obtain ⟨s, hs, htheta, hzeta, hradii, hheights, hmesh, hslices⟩ :=
    exists_valid_wedge b (show 0 < (1 : UInt64) by decide)
  have hsynthesize := hs.mesh
  rw [htheta, hzeta] at hsynthesize
  obtain ⟨slice, hslice⟩ : ∃ slice, s.slices = [slice] := by
    have hlength := (Outcome.forall₂_of_mapM hs.slices).length_eq
    rw [hzeta] at hlength
    exact List.length_eq_one_iff.mp (by simpa using hlength.symm)
  have hangles : s.slicesAtAngles = (#[0, fullTurn], [slice, slice]) := by
    unfold Resampling.slicesAtAngles
    rw [if_pos hzeta, hslice]
    rfl
  refine ⟨s.field wedgeGrid, s.mesh, ofInput_eq_ok_iff.mpr ⟨s, hs, rfl⟩, hsynthesize, hmesh, ?_⟩
  unfold Resampling.field interpolants Resampling.axes
  rw [hangles, show s.radii wedgeGrid = #[1, 2] from hradii,
    show s.heights wedgeGrid = #[0, 1] from hheights]
  simp only [List.map_cons, List.map_nil, hslices slice (by simp [hslice])]
  rfl

/-- Half way between the last corner of the square and the one below it the toroidal component is
the mean of the mesh and the outside. -/
theorem lookup_wedge (b : ℝ) : lookup ⟨[#[1, 2], #[0, 1], #[0, fullTurn]],
    stack 2 2 [wedgeCorners b, wedgeCorners b], outsideToroidal⟩ 2 (1 / 2) 0 = (b + 1) / 2 := by
  have hwrap : Scalar.wrap fullTurn (0 : ℝ) = 0 := by
    simp [Scalar.wrap, Scalar.remainder, Exact.truncate]
  have hcells : ([#[1, 2], #[0, 1], #[0, fullTurn]].zip [2, 1 / 2, (0 : ℝ)]).mapM
      (fun p ↦ Multilinear.cell? p.1 p.2) = some [(0, 1), (0, 1 / 2), (0, 0)] := by
    have hturn : (0 : ℝ) ≤ fullTurn := (mul_pos two_pos Real.pi_pos).le
    simp only [List.zip_cons_cons, List.zip_nil_right, List.mapM_cons, List.mapM_nil]
    rw [Multilinear.cell?_pair (by norm_num) (by norm_num),
      Multilinear.cell?_pair (by norm_num) (by norm_num), Multilinear.cell?_pair le_rfl hturn]
    norm_num
  have hdata : (stack 2 2 [wedgeCorners b, wedgeCorners b]).data = #[b, b, b, b, b, b, 1, 1] := by
    rw [stack_data]
    simp [wedgeCorners, Cube.ofFn, Array.ofFn_succ, Exact.nth_eq_getD]
  have hshape : (stack 2 2 [wedgeCorners b, wedgeCorners b]).shape = [2, 2, 2] := rfl
  unfold lookup Multilinear.eval
  rw [hwrap, hcells]
  dsimp only
  simp only [Exact.literal_zero, Multilinear.foldl_corners, hdata, hshape]
  simp [Multilinear.corners, Multilinear.cornersFrom, Multilinear.splitAlong, ShapedArray.volume,
    Exact.nth_eq_getD]
  ring

/-- The wedge with a positive component is nowhere degenerate, and the one with a negative component
only where it mixes the mesh with the outside. -/
theorem staysClear_wedge :
    (∃ e, ofInput (wedge 1) wedgeGrid = .ok e ∧ StaysClear e fun _ _ _ ↦ True) ∧
      ∃ e, ofInput (wedge (-1)) wedgeGrid = .ok e ∧
        StaysClear e fun x z phi ↦ ¬ e.MixesOutside x z phi := by
  obtain ⟨e, mesh, he, hmesh, hbphi, -⟩ := ofInput_wedge 1
  obtain ⟨e', mesh', he', hmesh', hbphi', -⟩ := ofInput_wedge (-1)
  refine ⟨⟨e, he, (staysClear_of_ofInput he rfl hmesh).1 fun v hv ↦ ?_⟩,
    e', he', (staysClear_of_ofInput he' rfl hmesh').2 fun v hv ↦ ?_⟩
  · rw [hbphi v hv]
    norm_num
  · rw [hbphi' v hv]
    norm_num

/-- The wedge with a negative component is degenerate half way between the mesh and the outside. -/
theorem wedge_degenerate : ∃ e mesh, ofInput (wedge (-1)) wedgeGrid = .ok e ∧
    (wedge (-1)).resolution wedgeGrid = .ok (2, 1) ∧
    SurfaceMesh.synthesize (wedge (-1)) 2 1 = .ok mesh ∧ (∀ v ∈ mesh.bphi.data, v = -1) ∧
    ∃ count least threshold, (MagneticField.spectral e).tangents (.flat #[2, 1 / 2]) 0 .fail =
      .error (.degenerate count least threshold) := by
  obtain ⟨e, mesh, he, hmesh, hdata, hbphi⟩ := ofInput_wedge (-1)
  refine ⟨e, mesh, he, rfl, hmesh, hdata, MagneticField.tangents_degenerate_iff.mpr ⟨_, rfl, ?_⟩⟩
  have hzero : (MagneticField.spectral e).toroidal ⟨2, 1 / 2, 0⟩ = 0 := by
    show lookup e.bphi 2 (1 / 2) 0 = 0
    rw [hbphi, lookup_wedge]
    norm_num
  refine ⟨(2, 1 / 2), Array.mem_ofFn.mpr ⟨⟨0, one_pos⟩, rfl⟩, ?_⟩
  rw [hzero, abs_zero]
  exact MagneticField.degeneracyThreshold_pos

end RegriddedField

end PlasmaField
