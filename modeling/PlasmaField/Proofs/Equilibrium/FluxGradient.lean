import Mathlib
import PlasmaField.Field
import PlasmaField.Proofs.Elementary
import PlasmaField.Proofs.Equilibrium.Flux
import PlasmaField.Proofs.Spline.Gradient

/-!
# The field and the flux of an axisymmetric equilibrium

The in-plane components are the partial derivatives of the reported flux, divided by the major
radius, at every place within the grid's range along the derivative, `followsFlux_of_ofInput`. The
range is needed: beyond the grid the reported flux stays constant, while the components keep the
derivative at the edge, `cell_vertical_ne`.
-/

namespace PlasmaField.FluxEquilibrium

open Scalar (nth)
open Set
open scoped Exact Elementary

/-- The in-plane components of an equilibrium's field at a place come from the flux `psi`. Within
the range of the grid they are its derivatives divided by the major radius. Beyond the range the
flux is constant and the components are those of the derivative at the edge, from the inside. -/
structure FollowsFlux (e : FluxEquilibrium ℝ) (psi : Position ℝ → ℝ) (p : Position ℝ) : Prop where
  radial : p.z ∈ Icc e.grid.zMin e.grid.zMax →
    ∀ d, HasDerivAt (fun z ↦ psi { p with z := z }) d p.z →
      (MagneticField.flux e).radial p = -d / p.x
  vertical : p.x ∈ Icc e.grid.rMin e.grid.rMax →
    ∀ d, HasDerivAt (fun x ↦ psi { p with x := x }) d p.x →
      (MagneticField.flux e).vertical p = d / p.x
  radial_edge : ∃ d, HasDerivWithinAt (fun z ↦ psi { p with z := z }) d
    (Icc e.grid.zMin e.grid.zMax) (Scalar.clamp e.grid.zMin e.grid.zMax p.z) ∧
      (MagneticField.flux e).radial p = -d / p.x
  vertical_edge : ∃ d, HasDerivWithinAt (fun x ↦ psi { p with x := x }) d
    (Icc e.grid.rMin e.grid.rMax) (Scalar.clamp e.grid.rMin e.grid.rMax p.x) ∧
      (MagneticField.flux e).vertical p = d / p.x
  constant_z : p.z ∉ Icc e.grid.zMin e.grid.zMax →
    HasDerivAt (fun z ↦ psi { p with z := z }) 0 p.z
  constant_x : p.x ∉ Icc e.grid.rMin e.grid.rMax →
    HasDerivAt (fun x ↦ psi { p with x := x }) 0 p.x

/-- The derivative at a place of a range is the one along the range. -/
theorem eq_of_hasDerivAt {f : ℝ → ℝ} {a b c d v : ℝ} (hab : a < b) (hv : v ∈ Icc a b)
    (hrange : HasDerivWithinAt f c (Icc a b) (Scalar.clamp a b v)) (h : HasDerivAt f d v) :
    c = d := by
  rw [Exact.clamp_of_mem hv.1 hv.2] at hrange
  exact (uniqueDiffOn_Icc hab v hv).eq_deriv _ hrange h.hasDerivWithinAt

/-- The field of every equilibrium that is built follows its flux. -/
theorem followsFlux_of_ofInput {input : FluxInput ℝ} {e : FluxEquilibrium ℝ}
    (h : ofInput input = .ok e) {psi : Position ℝ → ℝ}
    (hpsi : (MagneticField.flux e).attribute? "psi" = some psi) (p : Position ℝ) :
    FollowsFlux e psi p := by
  obtain rfl := Option.some.inj hpsi
  obtain ⟨hr, hz, -, hs⟩ := BicubicSpline.isTensor_of_through (ofInput_eq_ok_iff.mp h).psi
  have hrange : e.grid.rMin = nth e.psi.x 0 ∧ e.grid.rMax = nth e.psi.x (e.psi.x.size - 1) := by
    rw [hr]
    exact ⟨rfl, rfl⟩
  have hrange' : e.grid.zMin = nth e.psi.y 0 ∧ e.grid.zMax = nth e.psi.y (e.psi.y.size - 1) := by
    rw [hz]
    exact ⟨rfl, rfl⟩
  have hlt : e.grid.rMin < e.grid.rMax := by
    rw [hrange.1, hrange.2]
    exact hs.increasing_x.lt (by have := hs.two_le_x; omega) (Nat.sub_one_lt_of_lt hs.two_le_x)
  have hlt' : e.grid.zMin < e.grid.zMax := by
    rw [hrange'.1, hrange'.2]
    exact hs.increasing_y.lt (by have := hs.two_le_y; omega) (Nat.sub_one_lt_of_lt hs.two_le_y)
  have hx := hs.hasDerivWithinAt_value_x p.x p.z
  have hz := hs.hasDerivWithinAt_value_y p.x p.z
  unfold BicubicSpline.clampX at hx
  unfold BicubicSpline.clampY at hz
  rw [← hrange.1, ← hrange.2] at hx
  rw [← hrange'.1, ← hrange'.2] at hz
  refine ⟨fun hp d hd ↦ ?_, fun hp d hd ↦ ?_, ⟨_, hz, rfl⟩, ⟨_, hx, rfl⟩, fun hp ↦ ?_,
    fun hp ↦ ?_⟩
  · rw [← eq_of_hasDerivAt hlt' hp hz hd]
    rfl
  · rw [← eq_of_hasDerivAt hlt hp hx hd]
    rfl
  · rw [hrange'.1, hrange'.2] at hp
    exact hs.hasDerivAt_value_y p.x hp
  · rw [hrange.1, hrange.2] at hp
    exact hs.hasDerivAt_value_x p.z hp

/-! ## An equilibrium on one cell -/

/-- A flux that rises from zero to one across a grid of one cell. -/
def cell : FluxInput ℝ where
  rLeft := 1
  rDim := 1
  zMid := 0
  zDim := 2
  psi := ⟨2, 2, #[0, 1, 0, 1], rfl⟩
  axisFlux := 0
  edgeFlux := 1
  fpol := #[1, 1]
  pressure := #[0, 0]
  coreR := #[1, 2, 1]
  coreZ := #[-1, 0, 1]
  limiterR := none
  limiterZ := none

/-- The grid of the cell. -/
noncomputable def cellGrid : Grid ℝ :=
  Grid.uniform 2 2 1 2 (-1) 1

/-- Two equally spaced numbers are the ends of the range. -/
theorem nth_linspace_two (a b : ℝ) :
    nth (Scalar.linspace a b 2) 0 = a ∧ nth (Scalar.linspace a b 2) 1 = b := by
  rw [Exact.nth_linspace a b one_lt_two two_pos, Exact.nth_linspace a b one_lt_two one_lt_two]
  simp

/-- The equilibrium on the cell is built. -/
theorem exists_ofInput_cell : ∃ e, ofInput cell = .ok e ∧ e.grid = cellGrid := by
  have hcore : Polygon.ofVertices cell.coreR cell.coreZ = .ok ⟨Polygon.close
      ((cell.coreR.toList.zip cell.coreZ.toList).map fun p ↦ ⟨p.1, p.2⟩)⟩ := by
    unfold Polygon.ofVertices
    refine Outcome.guard_eq_ok_iff.mpr ⟨by decide, Outcome.guard_eq_ok_iff.mpr ⟨by decide, ?_⟩⟩
    exact Outcome.guard_eq_ok_iff.mpr ⟨by simp, rfl⟩
  have hthreshold : (Tridiagonal.pivotThreshold : ℝ) ≤ 1 := Exact.decimal_le_one 300
  obtain ⟨e, he, hgrid⟩ := exists_ofInput (show 2 ≤ cell.psi.cols from le_rfl) le_rfl
    (hthreshold.trans (by norm_num [cell])) (hthreshold.trans (by norm_num [cell]))
    (hthreshold.trans (by norm_num [cell])) (by simp [cell]) rfl rfl hcore rfl
  have hcell : cell.grid = cellGrid := by
    norm_num [FluxInput.grid, cell, cellGrid]
  exact ⟨e, he, hgrid.trans hcell⟩

/-- On the cell the field follows the flux, here at a place within it. -/
theorem followsFlux_cell : ∃ e psi, ofInput cell = .ok e ∧
    (MagneticField.flux e).attribute? "psi" = some psi ∧
    FollowsFlux e psi ⟨3 / 2, 1 / 4, 0⟩ := by
  obtain ⟨e, he, -⟩ := exists_ofInput_cell
  exact ⟨e, _, he, rfl, followsFlux_of_ofInput he rfl _⟩

/-- The knots of the flux on the cell. -/
theorem isTensor_cell {e : FluxEquilibrium ℝ} (he : ofInput cell = .ok e)
    (hgrid : e.grid = cellGrid) : e.psi.IsTensor ∧ e.psi.f = cell.psi ∧
      e.psi.x = Scalar.linspace 1 2 2 ∧ e.psi.y = Scalar.linspace (-1) 1 2 := by
  obtain ⟨hx, hy, hf, hs⟩ := BicubicSpline.isTensor_of_through (ofInput_eq_ok_iff.mp he).psi
  rw [hgrid] at hx hy
  exact ⟨hs, hf, hx, hy⟩

/-- Beyond the corner of the cell the flux does not change, but the vertical component is not zero:
it is a quarter where four is the major radius. -/
theorem cell_vertical_ne : ∃ e psi, ofInput cell = .ok e ∧
    (MagneticField.flux e).attribute? "psi" = some psi ∧
    DifferentiableAt ℝ (fun q : ℝ × ℝ ↦ psi ⟨q.1, q.2, 0⟩) (4, 5) ∧
    (MagneticField.flux e).vertical ⟨4, 5, 0⟩ = 1 / 4 ∧
    deriv (fun x ↦ psi ⟨x, 5, 0⟩) 4 / 4 = 0 := by
  obtain ⟨e, he, hgrid⟩ := exists_ofInput_cell
  obtain ⟨hs, hf, hx, hy⟩ := isTensor_cell he hgrid
  obtain ⟨hleft, hright⟩ := nth_linspace_two (1 : ℝ) 2
  obtain ⟨hbottom, htop⟩ := nth_linspace_two (-1 : ℝ) 1
  have hxsize : e.psi.x.size = 2 := by rw [hx]; exact Array.size_ofFn
  have hysize : e.psi.y.size = 2 := by rw [hy]; exact Array.size_ofFn
  have hclampX : ∀ v : ℝ, 2 < v → e.psi.clampX v = nth e.psi.x 1 := by
    intro v hv
    unfold BicubicSpline.clampX
    rw [hxsize, hx, hleft, hright, Exact.clamp_of_gt one_le_two hv]
  have hclampY : ∀ v : ℝ, 1 < v → e.psi.clampY v = nth e.psi.y 1 := by
    intro v hv
    unfold BicubicSpline.clampY
    rw [hysize, hy, hbottom, htop, Exact.clamp_of_gt (by norm_num) hv]
  have hvalue : ∀ v w : ℝ, 2 < v → 1 < w → e.psi.value v w = e.psi.value 4 5 := by
    intro v w hv hw
    rw [BicubicSpline.value_eq_along_x, BicubicSpline.value_eq_along_x, hclampX v hv,
      hclampX 4 (by norm_num), hclampY w hw, hclampY 5 (by norm_num)]
  refine ⟨e, _, he, rfl, ?_, ?_, ?_⟩
  · refine (differentiableAt_const (e.psi.value 4 5)).congr_of_eventuallyEq ?_
    filter_upwards [(isOpen_Ioi.prod isOpen_Ioi).mem_nhds
      (⟨by norm_num, by norm_num⟩ : ((4, 5) : ℝ × ℝ) ∈ Ioi 2 ×ˢ Ioi 1)] with q hq
    exact hvalue q.1 q.2 hq.1 hq.2
  · have hslope : e.psi.derivativeX 4 5 = 1 := by
      rw [hs.derivativeX_knot (i := 1) (j := 1) (by omega) (by omega) (hclampX 4 (by norm_num))
        (hclampY 5 (by norm_num)), ((hs.row_slopes 1 (by omega)).eq_secant hxsize).2]
      unfold Spline.secant Spline.gap
      rw [hf, hx, hleft, hright]
      norm_num [cell, Table.get]
    show e.psi.derivativeX 4 5 / 4 = 1 / 4
    rw [hslope]
  · have hconstant : HasDerivAt (fun x ↦ e.psi.value x 5) 0 4 := by
      refine hs.hasDerivAt_value_x 5 fun h ↦ ?_
      rw [hxsize, hx, hright] at h
      exact absurd h.2 (by norm_num)
    show deriv (fun x ↦ e.psi.value x 5) 4 / 4 = 0
    rw [hconstant.deriv, zero_div]

end PlasmaField.FluxEquilibrium
