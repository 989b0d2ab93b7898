import Mathlib
import PlasmaField.Equilibrium.Flux
import PlasmaField.Proofs.Spline.Tensor

/-!
# The construction of an axisymmetric equilibrium

Over exact scalars an equilibrium is built when its parts are: the grid, the splines of the flux and
of the normalized flux on the grid, the splines of the profiles, and the domain,
`ofInput_eq_ok_iff`. They are when the data are consistent and the knots are not too close together,
`exists_ofInput`.
-/

namespace PlasmaField

open Outcome (bind_eq_ok_iff guard_eq_ok_iff)
open Scalar (nth)
open scoped Exact

variable {K : Type} [Field K] [LinearOrder K] [FloorRing K]

/-- A grid is built from two or more columns and rows and positive extents. -/
theorem Grid.ofExtents_eq_ok_iff {nr nz : ℕ} {rLeft rDim zMid zDim : K} {g : Grid K} :
    ofExtents nr nz rLeft rDim zMid zDim = .ok g ↔ 2 ≤ nr ∧ 2 ≤ nz ∧ 0 < rDim ∧ 0 < zDim ∧
      g = uniform nr nz rLeft (rLeft + rDim) (zMid - 0.5 * zDim) (zMid + 0.5 * zDim) := by
  have hfinite : ([rLeft, rDim, zMid, zDim].all Scalar.isFinite) = true := rfl
  unfold ofExtents
  rw [guard_eq_ok_iff, hfinite]
  constructor
  · rintro ⟨hsize, h⟩
    obtain ⟨-, h⟩ := guard_eq_ok_iff.mp h
    obtain ⟨hdim, h⟩ := guard_eq_ok_iff.mp h
    cases h
    simp only [Bool.or_eq_true, decide_eq_true_eq, not_or, not_lt] at hsize
    simp only [Bool.or_eq_true, decide_eq_true_eq, not_or, not_le, Exact.literal_zero] at hdim
    exact ⟨hsize.1, hsize.2, hdim.1, hdim.2, rfl⟩
  · rintro ⟨hr, hz, hrDim, hzDim, rfl⟩
    refine ⟨by simp [Nat.lt_of_succ_le hr, Nat.lt_of_succ_le hz], ?_⟩
    refine guard_eq_ok_iff.mpr ⟨by simp, guard_eq_ok_iff.mpr ⟨?_, rfl⟩⟩
    simp [hrDim, hzDim]

/-- The grid that the extents describe. -/
def FluxInput.grid (input : FluxInput K) : Grid K :=
  Grid.uniform input.psi.cols input.psi.rows input.rLeft (input.rLeft + input.rDim)
    (input.zMid - 0.5 * input.zDim) (input.zMid + 0.5 * input.zDim)

/-- Equally spaced numbers are knots with solvable systems for the curvatures when their spacing is
not below the threshold for pivots. -/
theorem Spline.knots_linspace [IsStrictOrderedRing K] {a b : K} {n : ℕ} (hn : 2 ≤ n)
    (hspacing : Tridiagonal.pivotThreshold ≤ (b - a) / ((n - 1 : ℕ) : K)) :
    (2 ≤ (Scalar.linspace a b n).size ∧ Increasing (Scalar.linspace a b n)) ∧
      ∀ z, ∃ m, curvatures (Scalar.linspace a b n) z = .ok m := by
  have hsize : (Scalar.linspace a b n).size = n := Array.size_ofFn
  have hgap : ∀ i, i + 1 < (Scalar.linspace a b n).size →
      Tridiagonal.pivotThreshold ≤ gap (Scalar.linspace a b n) i := by
    intro i hi
    unfold gap
    rw [Exact.nth_linspace a b hn (hsize ▸ hi), Exact.nth_linspace a b hn (by omega), Nat.cast_succ]
    exact hspacing.trans_eq (by ring)
  have hincreasing : Increasing (Scalar.linspace a b n) := fun i hi ↦
    sub_pos.mp (Tridiagonal.pivotThreshold_pos.trans_le (hgap i hi))
  have htwo := hn.trans_eq hsize.symm
  exact ⟨⟨htwo, hincreasing⟩, curvatures_of_gaps htwo hgap⟩

namespace FluxEquilibrium

/-- The parts of an equilibrium are built from the data. -/
structure Parts (input : FluxInput K) (e : FluxEquilibrium K) : Prop where
  grid : Grid.ofExtents input.psi.cols input.psi.rows input.rLeft input.rDim input.zMid
    input.zDim = .ok e.grid
  span : input.edgeFlux - input.axisFlux ≠ 0
  fpol_size : input.fpol.size = input.psi.cols
  pressure_size : input.pressure.size = input.psi.cols
  psi : BicubicSpline.through e.grid.r e.grid.z input.psi = .ok e.psi
  psiNorm : ∃ core, Polygon.ofVertices input.coreR input.coreZ = .ok core ∧
    BicubicSpline.through e.grid.r e.grid.z (normalizedFlux e.grid core input.psi input.axisFlux
      (input.edgeFlux - input.axisFlux)) = .ok e.psiNorm
  fpol : CubicSpline.through (Scalar.linspace 0 1 input.psi.cols) input.fpol = .ok e.fpol
  pressure : CubicSpline.through (Scalar.linspace 0 1 input.psi.cols) input.pressure =
    .ok e.pressure
  domain : limiterDomain input.limiterR input.limiterZ = .ok e.domain

omit [LinearOrder K] [FloorRing K] [Field K] in
/-- A profile passes the check when it has one sample per column. -/
theorem checkProfile_eq_ok_iff {name : String} {profile : Array K} {nr : ℕ} :
    checkProfile name profile nr = .ok () ↔ profile.size = nr := by
  unfold checkProfile
  split <;> simp_all

/-- An equilibrium is built when its parts are. -/
theorem ofInput_eq_ok_iff {input : FluxInput K} {e : FluxEquilibrium K} :
    ofInput input = .ok e ↔ Parts input e := by
  unfold ofInput
  simp only [Exact.literal_zero, Exact.literal_one]
  constructor
  · intro h
    obtain ⟨grid, hgrid, h⟩ := bind_eq_ok_iff.mp h
    obtain ⟨hspan, h⟩ := guard_eq_ok_iff.mp h
    obtain ⟨_, hfpol, h⟩ := bind_eq_ok_iff.mp h
    obtain ⟨_, hpressure, h⟩ := bind_eq_ok_iff.mp h
    obtain ⟨psi, hpsi, h⟩ := bind_eq_ok_iff.mp h
    obtain ⟨core, hcore, h⟩ := bind_eq_ok_iff.mp h
    obtain ⟨psiNorm, hpsiNorm, h⟩ := bind_eq_ok_iff.mp h
    obtain ⟨fpol, hfpol', h⟩ := bind_eq_ok_iff.mp h
    obtain ⟨pressure, hpressure', h⟩ := bind_eq_ok_iff.mp h
    obtain ⟨domain, hdomain, h⟩ := bind_eq_ok_iff.mp h
    cases h
    exact ⟨hgrid, by simpa using hspan, checkProfile_eq_ok_iff.mp hfpol,
      checkProfile_eq_ok_iff.mp hpressure, hpsi, ⟨core, hcore, hpsiNorm⟩, hfpol', hpressure',
      hdomain⟩
  · rintro ⟨hgrid, hspan, hfpol, hpressure, hpsi, ⟨core, hcore, hpsiNorm⟩, hfpol', hpressure',
      hdomain⟩
    refine bind_eq_ok_iff.mpr ⟨e.grid, hgrid, ?_⟩
    refine guard_eq_ok_iff.mpr ⟨by simpa using hspan, ?_⟩
    refine bind_eq_ok_iff.mpr ⟨(), checkProfile_eq_ok_iff.mpr hfpol, ?_⟩
    refine bind_eq_ok_iff.mpr ⟨(), checkProfile_eq_ok_iff.mpr hpressure, ?_⟩
    refine bind_eq_ok_iff.mpr ⟨e.psi, hpsi, ?_⟩
    refine bind_eq_ok_iff.mpr ⟨core, hcore, ?_⟩
    refine bind_eq_ok_iff.mpr ⟨e.psiNorm, hpsiNorm, ?_⟩
    refine bind_eq_ok_iff.mpr ⟨e.fpol, hfpol', ?_⟩
    refine bind_eq_ok_iff.mpr ⟨e.pressure, hpressure', ?_⟩
    exact bind_eq_ok_iff.mpr ⟨e.domain, hdomain, rfl⟩

/-- An equilibrium is built from consistent data: a grid and profiles whose spacing is not below the
threshold for pivots, different fluxes on the axis and at the edge, an outline, and a limiter that
is complete or missing. -/
theorem exists_ofInput [IsStrictOrderedRing K] {input : FluxInput K} {core : Polygon K}
    {domain : Boundary K} (hr : 2 ≤ input.psi.cols) (hz : 2 ≤ input.psi.rows)
    (hrDim : Tridiagonal.pivotThreshold ≤ input.rDim / ((input.psi.cols - 1 : ℕ) : K))
    (hzDim : Tridiagonal.pivotThreshold ≤ input.zDim / ((input.psi.rows - 1 : ℕ) : K))
    (hunit : Tridiagonal.pivotThreshold ≤ 1 / ((input.psi.cols - 1 : ℕ) : K))
    (hspan : input.edgeFlux - input.axisFlux ≠ 0) (hfpol : input.fpol.size = input.psi.cols)
    (hpressure : input.pressure.size = input.psi.cols)
    (hcore : Polygon.ofVertices input.coreR input.coreZ = .ok core)
    (hdomain : limiterDomain input.limiterR input.limiterZ = .ok domain) :
    ∃ e, ofInput input = .ok e ∧ e.grid = input.grid := by
  have hpositive {n : ℕ} {v : K} (hn : 2 ≤ n)
      (h : Tridiagonal.pivotThreshold ≤ v / ((n - 1 : ℕ) : K)) : 0 < v :=
    (div_pos_iff_of_pos_right (Nat.cast_pos.mpr (by omega))).mp
      (Tridiagonal.pivotThreshold_pos.trans_le h)
  obtain ⟨hx, hcx⟩ := Spline.knots_linspace (a := input.rLeft) (b := input.rLeft + input.rDim) hr
    (by rwa [add_sub_cancel_left])
  obtain ⟨hy, hcy⟩ := Spline.knots_linspace (a := input.zMid - 0.5 * input.zDim)
    (b := input.zMid + 0.5 * input.zDim) hz (hzDim.trans_eq (by ring))
  obtain ⟨hu, hcu⟩ := Spline.knots_linspace (a := (0 : K)) (b := 1) hr (by rwa [sub_zero])
  have hthrough {f : Table K} (hcols : f.cols = input.psi.cols) (hrows : f.rows = input.psi.rows) :=
    BicubicSpline.exists_through (f := f) hx hy (hcols.trans Array.size_ofFn.symm)
      (hrows.trans Array.size_ofFn.symm) hcx hcy
  have hprofile {y : Array K} (hy : y.size = input.psi.cols) :
      ∃ s, CubicSpline.through (Scalar.linspace 0 1 input.psi.cols) y = .ok s := by
    obtain ⟨m, hm⟩ := hcu y
    exact ⟨_, (CubicSpline.through_eq_ok_iff _ _ _).mpr
      ⟨hu.1, hu.2, hy.trans Array.size_ofFn.symm, m, hm, rfl⟩⟩
  obtain ⟨psi, hpsi⟩ := hthrough (f := input.psi) rfl rfl
  obtain ⟨psiNorm, hpsiNorm⟩ := hthrough (f := normalizedFlux input.grid core input.psi
    input.axisFlux (input.edgeFlux - input.axisFlux)) rfl rfl
  obtain ⟨fpol, hfpol'⟩ := hprofile hfpol
  obtain ⟨pressure, hpressure'⟩ := hprofile hpressure
  refine ⟨⟨input.grid, psi, psiNorm, fpol, pressure, domain⟩, ofInput_eq_ok_iff.mpr ?_, rfl⟩
  exact {
    grid := Grid.ofExtents_eq_ok_iff.mpr ⟨hr, hz, hpositive hr hrDim, hpositive hz hzDim, rfl⟩
    span := hspan
    fpol_size := hfpol
    pressure_size := hpressure
    psi := hpsi
    psiNorm := ⟨core, hcore, hpsiNorm⟩
    fpol := hfpol'
    pressure := hpressure'
    domain := hdomain }

end FluxEquilibrium

end PlasmaField
