import Mathlib
import PlasmaField.Field
import PlasmaField.Proofs.Elementary
import PlasmaField.Proofs.Equilibrium.Flux
import PlasmaField.Proofs.Orientation
import PlasmaField.Proofs.Spline.Gradient

/-!
# An axisymmetric equilibrium at its grid points

At a grid point the reported flux is the one given there, and the reported normalized flux is the
given one, scaled to the plasma, within the outline of the plasma and one outside of it. The
toroidal field times the major radius and the pressure are the natural splines through their
profiles at that normalized flux, `nodeValues_of_ofInput`.
-/

namespace PlasmaField

open CubicSpline (IsNaturalSpline)
open Scalar (nth)
open scoped Exact Elementary

/-! ## Profiles -/

/-- The values of the normalized flux at which a profile with `n` samples is given. -/
noncomputable def unitKnots (n : ℕ) : Array ℝ :=
  Array.ofFn fun k : Fin n ↦ (k : ℝ) / ((n - 1 : ℕ) : ℝ)

/-- The function is the natural spline through the samples of a profile, continued by the samples at
its ends. -/
def IsProfile (samples : Array ℝ) (f : ℝ → ℝ) : Prop :=
  ∃ f', IsNaturalSpline (unitKnots samples.size) samples f f'

/-- Equally spaced numbers from zero to one. -/
theorem linspace_unit {n : ℕ} (hn : 1 < n) : Scalar.linspace 0 1 n = unitKnots n := by
  unfold Scalar.linspace unitKnots
  simp only [if_pos hn]
  refine congrArg Array.ofFn (funext fun k ↦ ?_)
  show (0 : ℝ) + (1 - 0) / ((n - 1 : ℕ) : ℝ) * (k : ℕ) = _
  ring

/-- The last value of the normalized flux is one. -/
theorem nth_unitKnots_last {n : ℕ} (hn : 1 < n) : nth (unitKnots n) (n - 1) = 1 := by
  unfold unitKnots
  rw [Exact.nth_ofFn _ (by omega)]
  exact div_self (Nat.cast_ne_zero.mpr (Nat.sub_pos_of_lt hn).ne')

/-- At the edge of the plasma a profile has its last sample. -/
theorem IsProfile.eval_one {samples : Array ℝ} {f : ℝ → ℝ} (h : IsProfile samples f)
    (hn : 1 < samples.size) : f 1 = nth samples (samples.size - 1) := by
  obtain ⟨f', hf⟩ := h
  have hsize : (unitKnots samples.size).size = samples.size := Array.size_ofFn
  rw [← nth_unitKnots_last hn]
  exact hf.interpolates _ (by omega)

/-- The spline through the samples of a profile. -/
theorem isProfile_of_through {samples : Array ℝ} {s : CubicSpline ℝ}
    (h : CubicSpline.through (Scalar.linspace 0 1 samples.size) samples = .ok s) :
    IsProfile samples s.eval := by
  obtain ⟨hn, hx, -, m, hm, rfl⟩ := (CubicSpline.through_eq_ok_iff _ _ _).mp h
  have hsize : (Scalar.linspace (0 : ℝ) 1 samples.size).size = samples.size := Array.size_ofFn
  refine ⟨CubicSpline.derivative ⟨Scalar.linspace 0 1 samples.size, samples, m⟩, ?_⟩
  rw [← linspace_unit (hn.trans_eq hsize)]
  exact CubicSpline.isNaturalSpline_of_isCurvature (s := ⟨_, samples, m⟩) hn hx
    (Spline.isCurvature_of_curvatures hn hm).2

namespace FluxEquilibrium

/-! ## Grid points -/

/-- The grid point in row `i` and column `j`, at a toroidal angle. -/
noncomputable def node (e : FluxEquilibrium ℝ) (i j : ℕ) (phi : ℝ) : Position ℝ :=
  ⟨nth e.grid.r j, nth e.grid.z i, phi⟩

/-- What the field of an equilibrium is at the grid point in row `i` and column `j`, by the data,
the outline `core` of the plasma and the profiles `f` and `g`. -/
structure NodeValues (input : FluxInput ℝ) (e : FluxEquilibrium ℝ) (core : Polygon ℝ)
    (f g : ℝ → ℝ) (psi psiNorm : Position ℝ → ℝ) (i j : ℕ) (p : Position ℝ) : Prop where
  radius : p.x = input.rLeft + input.rDim / ((input.psi.cols - 1 : ℕ) : ℝ) * j
  height : p.z =
    input.zMid - input.zDim / 2 + input.zDim / ((input.psi.rows - 1 : ℕ) : ℝ) * i
  psi_eq : psi p = input.psi.get i j
  psiNorm_within : core.contains ⟨p.x, p.z⟩ = true →
    psiNorm p = (input.psi.get i j - input.axisFlux) / (input.edgeFlux - input.axisFlux)
  psiNorm_outside : core.contains ⟨p.x, p.z⟩ = false → psiNorm p = 1
  toroidal : p.x ≠ 0 → (MagneticField.flux e).toroidal p * p.x = f (psiNorm p)
  pressure : (MagneticField.flux e).pressure p = g (psiNorm p)
  toroidal_outside : p.x ≠ 0 → core.contains ⟨p.x, p.z⟩ = false →
    (MagneticField.flux e).toroidal p * p.x = nth input.fpol (input.psi.cols - 1)
  pressure_outside : core.contains ⟨p.x, p.z⟩ = false →
    (MagneticField.flux e).pressure p = nth input.pressure (input.psi.cols - 1)

/-- The coordinates of the grid points. -/
theorem Parts.node_coordinates {input : FluxInput ℝ} {e : FluxEquilibrium ℝ} (h : Parts input e)
    {i j : ℕ} (hi : i < input.psi.rows) (hj : j < input.psi.cols) :
    nth e.grid.r j = input.rLeft + input.rDim / ((input.psi.cols - 1 : ℕ) : ℝ) * j ∧
      nth e.grid.z i =
        input.zMid - input.zDim / 2 + input.zDim / ((input.psi.rows - 1 : ℕ) : ℝ) * i := by
  obtain ⟨hr, hz, -, -, hgrid⟩ := Grid.ofExtents_eq_ok_iff.mp h.grid
  rw [hgrid]
  refine ⟨(Exact.nth_linspace _ _ hr hj).trans ?_, (Exact.nth_linspace _ _ hz hi).trans ?_⟩
  · rw [add_sub_cancel_left]
  · ring

/-- The flux at the grid points. -/
theorem Parts.psi_node {input : FluxInput ℝ} {e : FluxEquilibrium ℝ} (h : Parts input e)
    {i j : ℕ} (hi : i < input.psi.rows) (hj : j < input.psi.cols) :
    e.psi.value (nth e.grid.r j) (nth e.grid.z i) = input.psi.get i j := by
  obtain ⟨hx, hy, hf, hs⟩ := BicubicSpline.isTensor_of_through h.psi
  have hcols := hf ▸ hs.cols
  have hrows := hf ▸ hs.rows
  rw [← hx, ← hy, hs.value_knot (hcols ▸ hj) (hrows ▸ hi), hf]

/-- The normalized flux at the grid points. -/
theorem Parts.psiNorm_node {input : FluxInput ℝ} {e : FluxEquilibrium ℝ} (h : Parts input e)
    {core : Polygon ℝ} (hcore : Polygon.ofVertices input.coreR input.coreZ = .ok core)
    {i j : ℕ} (hi : i < input.psi.rows) (hj : j < input.psi.cols) :
    e.psiNorm.value (nth e.grid.r j) (nth e.grid.z i) =
      if core.contains ⟨nth e.grid.r j, nth e.grid.z i⟩ then
        (input.psi.get i j - input.axisFlux) / (input.edgeFlux - input.axisFlux) else 1 := by
  -- the outline is determined by the data
  obtain ⟨core', hcore', hthrough⟩ := h.psiNorm
  obtain rfl : core = core' := Except.ok.inj (hcore.symm.trans hcore')
  obtain ⟨hx, hy, hf, hs⟩ := BicubicSpline.isTensor_of_through hthrough
  have hcols : input.psi.cols = e.psiNorm.x.size := (congrArg Table.cols hf).symm.trans hs.cols
  have hrows : input.psi.rows = e.psiNorm.y.size := (congrArg Table.rows hf).symm.trans hs.rows
  rw [← hx, ← hy, hs.value_knot (hcols ▸ hj) (hrows ▸ hi), hf, hx, hy]
  unfold normalizedFlux
  rw [Table.get_ofFn _ hi hj, edge, Exact.literal_one]

/-- **An equilibrium takes the values of its data at the grid points.** -/
theorem nodeValues_of_ofInput {input : FluxInput ℝ} {e : FluxEquilibrium ℝ}
    (h : ofInput input = .ok e) :
    ∃ core f g psi psiNorm, Polygon.ofVertices input.coreR input.coreZ = .ok core ∧
      IsProfile input.fpol f ∧ IsProfile input.pressure g ∧
      (MagneticField.flux e).attribute? "psi" = some psi ∧
      (MagneticField.flux e).attribute? "psinorm" = some psiNorm ∧
      ∀ i < input.psi.rows, ∀ j < input.psi.cols, ∀ phi,
        NodeValues input e core f g psi psiNorm i j (e.node i j phi) := by
  have hparts := ofInput_eq_ok_iff.mp h
  obtain ⟨core, hcore, -⟩ := hparts.psiNorm
  have hfpol : IsProfile input.fpol e.fpol.eval :=
    isProfile_of_through (hparts.fpol_size ▸ hparts.fpol)
  have hpressure : IsProfile input.pressure e.pressure.eval :=
    isProfile_of_through (hparts.pressure_size ▸ hparts.pressure)
  refine ⟨core, _, _, _, _, hcore, hfpol, hpressure, rfl, rfl, fun i hi j hj phi ↦ ?_⟩
  obtain ⟨hradius, hheight⟩ := hparts.node_coordinates hi hj
  have hpsiNorm := hparts.psiNorm_node hcore hi hj
  -- outside of the outline the normalized flux is that of the last sample
  have houtside (h : core.contains ⟨nth e.grid.r j, nth e.grid.z i⟩ = false) :
      e.psiNorm.value (nth e.grid.r j) (nth e.grid.z i) = 1 := by
    rw [hpsiNorm, h]
    rfl
  have hcols : 1 < input.psi.cols := (Grid.ofExtents_eq_ok_iff.mp hparts.grid).1
  have htoroidal (hx : nth e.grid.r j ≠ 0) : (MagneticField.flux e).toroidal (e.node i j phi) *
      nth e.grid.r j = e.fpol.eval (e.psiNorm.value (nth e.grid.r j) (nth e.grid.z i)) :=
    div_mul_cancel₀ _ hx
  exact {
    radius := hradius
    height := hheight
    psi_eq := hparts.psi_node hi hj
    psiNorm_within := fun h ↦ hpsiNorm.trans (if_pos h)
    psiNorm_outside := houtside
    toroidal := htoroidal
    pressure := rfl
    toroidal_outside := fun hx h ↦ by
      refine (htoroidal hx).trans ?_
      rw [houtside h, hfpol.eval_one (hparts.fpol_size ▸ hcols), hparts.fpol_size]
    pressure_outside := fun h ↦ by
      show e.pressure.eval (e.psiNorm.value (nth e.grid.r j) (nth e.grid.z i)) = _
      rw [houtside h, hpressure.eval_one (hparts.pressure_size ▸ hcols), hparts.pressure_size] }

/-! ## An equilibrium on three columns and four rows -/

/-- A flux with different values at most of the grid points, and an outline of the plasma that holds
one of them. -/
noncomputable def uneven : FluxInput ℝ where
  rLeft := 1
  rDim := 1
  zMid := 0
  zDim := 6
  psi := ⟨4, 3, #[6, 2, 6, 2, 1, 6, 6, 2, 1, 2, 6, 6], rfl⟩
  axisFlux := 0
  edgeFlux := 2
  fpol := #[6, 2, 1]
  pressure := #[2, 1, 0]
  coreR := #[1, 2, 2]
  coreZ := #[-2, -2, 2]
  limiterR := none
  limiterZ := none

/-- The outline of the plasma, a triangle. -/
noncomputable def unevenCore : Polygon ℝ :=
  ⟨[⟨1, -2⟩, ⟨2, -2⟩, ⟨2, 2⟩, ⟨1, -2⟩]⟩

/-- The triangle is the outline in the data. -/
theorem ofVertices_uneven :
    Polygon.ofVertices uneven.coreR uneven.coreZ = .ok unevenCore := by
  have hring : Polygon.close ((uneven.coreR.toList.zip uneven.coreZ.toList).map
      fun p ↦ ⟨p.1, p.2⟩) = unevenCore.ring := by
    simp [uneven, unevenCore, Polygon.close, Point.samePlace]
  unfold Polygon.ofVertices
  refine Outcome.guard_eq_ok_iff.mpr ⟨by decide, Outcome.guard_eq_ok_iff.mpr ⟨by decide, ?_⟩⟩
  refine Outcome.guard_eq_ok_iff.mpr ⟨by simp, ?_⟩
  rw [hring]
  rfl

/-- The triangle winds around one of the grid points. -/
theorem contains_unevenCore : unevenCore.contains ⟨3 / 2, -1⟩ = true := by
  norm_num [unevenCore, Polygon.contains, Polygon.winding?, Polygon.edges, Polygon.crossing,
    Orientation.turn_eq_cmp, cmp_eq_gt_iff, cmp_eq_lt_iff, cmp_eq_eq_iff]

/-- The triangle does not wind around the lower left grid point. -/
theorem not_contains_unevenCore : unevenCore.contains ⟨1, -3⟩ = false := by
  norm_num [unevenCore, Polygon.contains, Polygon.winding?, Polygon.edges, Polygon.crossing,
    Orientation.turn_eq_cmp, cmp_eq_gt_iff, cmp_eq_lt_iff, cmp_eq_eq_iff]

/-- The equilibrium is built. -/
theorem exists_ofInput_uneven : ∃ e, ofInput uneven = .ok e := by
  have hthreshold : (Tridiagonal.pivotThreshold : ℝ) ≤ 1 / 2 := by
    have hpower : (2 : ℝ) ≤ 10 ^ 300 := le_trans (by norm_num) (le_self_pow₀ (by norm_num)
      (by norm_num : 300 ≠ 0))
    refine (Exact.decimal_eq 1 300).trans_le ?_
    rw [Nat.cast_one]
    exact one_div_le_one_div_of_le two_pos hpower
  obtain ⟨e, he, -⟩ := exists_ofInput (show 2 ≤ uneven.psi.cols by decide) (by decide)
    (hthreshold.trans (by norm_num [uneven])) (hthreshold.trans (by norm_num [uneven]))
    (hthreshold.trans (by norm_num [uneven])) (by norm_num [uneven]) rfl rfl ofVertices_uneven rfl
  exact ⟨e, he⟩

/-- Within the triangle the flux and the normalized flux are those of the data, and at the lower
left grid point, which is outside of it, the profiles have their last samples. -/
theorem nodeValues_uneven : ∃ e psi psiNorm, ofInput uneven = .ok e ∧
    (MagneticField.flux e).attribute? "psi" = some psi ∧
    (MagneticField.flux e).attribute? "psinorm" = some psiNorm ∧
    psi ⟨3 / 2, -1, 0⟩ = 1 ∧ psiNorm ⟨3 / 2, -1, 0⟩ = 1 / 2 ∧
    (MagneticField.flux e).toroidal ⟨1, -3, 0⟩ * 1 = 1 ∧
    (MagneticField.flux e).pressure ⟨1, -3, 0⟩ = 0 := by
  obtain ⟨e, he⟩ := exists_ofInput_uneven
  obtain ⟨core, f, g, psi, psiNorm, hcore, -, -, hpsi, hpsiNorm, hnodes⟩ := nodeValues_of_ofInput he
  obtain rfl : core = unevenCore := Except.ok.inj (hcore.symm.trans ofVertices_uneven)
  have hinner := hnodes 1 (by decide) 1 (by decide) 0
  have houter := hnodes 0 (by decide) 0 (by decide) 0
  have hinnerAt : e.node 1 1 0 = ⟨3 / 2, -1, 0⟩ := congrArg₂ (Position.mk · · 0)
    (hinner.radius.trans (by norm_num [uneven])) (hinner.height.trans (by norm_num [uneven]))
  have houterAt : e.node 0 0 0 = ⟨1, -3, 0⟩ := congrArg₂ (Position.mk · · 0)
    (houter.radius.trans (by norm_num [uneven])) (houter.height.trans (by norm_num [uneven]))
  rw [hinnerAt] at hinner
  rw [houterAt] at houter
  refine ⟨e, psi, psiNorm, he, hpsi, hpsiNorm, hinner.psi_eq.trans ?_,
    (hinner.psiNorm_within contains_unevenCore).trans ?_,
    (houter.toroidal_outside one_ne_zero not_contains_unevenCore).trans ?_,
    (houter.pressure_outside not_contains_unevenCore).trans ?_⟩
  · norm_num [uneven, Table.get]
  · norm_num [uneven, Table.get]
  · norm_num [uneven, Exact.nth_eq_getD]
  · norm_num [uneven, Exact.nth_eq_getD]

end FluxEquilibrium

end PlasmaField
