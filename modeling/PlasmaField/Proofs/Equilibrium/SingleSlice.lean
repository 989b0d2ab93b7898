import Mathlib
import PlasmaField.Proofs.Equilibrium.Periodic
import PlasmaField.Proofs.Multilinear.Cells

/-!
# An equilibrium with one toroidal slice

The only slice of such an equilibrium is used at both ends of the turn. Every angle is wrapped into
the one cell between them, whose corners have the same samples on both sides. The toroidal axis
therefore drops out of the interpolation, and what is left is bilinear in the radius and the
height, `axisymmetric_of_ofInput`.
-/

namespace PlasmaField

open Scalar (nth)
open ShapedArray (offset)
open scoped Exact Elementary

namespace Multilinear

/-- Interpolates a function of two indices linearly along both. -/
def bilinear {K : Type} [Field K] (a b : ℕ × K) (f : ℕ → ℕ → K) : K :=
  (1 - a.2) * ((1 - b.2) * f a.1 b.1 + b.2 * f a.1 (b.1 + 1)) +
    a.2 * ((1 - b.2) * f (a.1 + 1) b.1 + b.2 * f (a.1 + 1) (b.1 + 1))

/-- An axis along which the two corners of the cell agree drops out of the interpolation. -/
theorem nested_eq_bilinear {K : Type} [Field K] (a b : ℕ × K) (t : K) {f : List ℕ → K}
    {g : ℕ → ℕ → K} (h : ∀ i ≤ a.1 + 1, ∀ j ≤ b.1 + 1, f [i, j, 0] = g i j ∧ f [i, j, 1] = g i j) :
    nested [a, b, (0, t)] f = bilinear a b g := by
  have hside : ∀ i ≤ a.1 + 1, ∀ j ≤ b.1 + 1,
      nested [(0, t)] (fun index ↦ f (i :: j :: index)) = g i j := by
    intro i hi j hj
    obtain ⟨hfirst, hlast⟩ := h i hi j hj
    show (1 - t) * f [i, j, 0] + t * f [i, j, 1] = g i j
    rw [hfirst, hlast]
    ring
  have ha := Nat.le_succ a.1
  have hb := Nat.le_succ b.1
  show (1 - a.2) * ((1 - b.2) * nested _ _ + b.2 * nested _ _) +
    a.2 * ((1 - b.2) * nested _ _ + b.2 * nested _ _) = _
  rw [hside _ ha _ hb, hside _ ha _ le_rfl, hside _ le_rfl _ hb, hside _ le_rfl _ le_rfl]
  rfl

end Multilinear

namespace RegriddedField

/-- Every component is the same at all toroidal angles. Within the ranges of the radii and of the
heights it is the bilinear interpolation of the samples of one slice, in whatever cell of the grid
contains the place, and elsewhere it is the value outside the mesh. -/
structure IsAxisymmetric (e : RegriddedField ℝ) (slice : Slice ℝ) : Prop where
  constant : ∀ (c : Component) (x z phi phi' : ℝ),
    c.value (.spectral e) ⟨x, z, phi⟩ = c.value (.spectral e) ⟨x, z, phi'⟩
  covered : ∀ x z : ℝ, Multilinear.InBox [e.axis 0, e.axis 1] [x, z] → ∃ cellR cellZ,
    Multilinear.Contains (e.axis 0) x cellR ∧ Multilinear.Contains (e.axis 1) z cellZ
  inside : ∀ (c : Component) (x z phi : ℝ) (cellR cellZ : ℕ × ℝ),
    Multilinear.Contains (e.axis 0) x cellR → Multilinear.Contains (e.axis 1) z cellZ →
    c.value (.spectral e) ⟨x, z, phi⟩ = Multilinear.bilinear cellR cellZ fun i j ↦
      nth (c.onSlice slice) (i * (e.axis 1).size + j)
  outside : ∀ (c : Component) (x z phi : ℝ),
    ¬ Multilinear.InBox [e.axis 0, e.axis 1] [x, z] → c.value (.spectral e) ⟨x, z, phi⟩ = c.outside

/-- A wrapped angle lies in the one cell between the ends of the turn. -/
theorem contains_wrap (phi : ℝ) : ∃ t,
    Multilinear.Contains #[0, fullTurn] (Scalar.wrap fullTurn phi) (0, t) := by
  have hturn : (0 : ℝ) < 2 * Real.pi := Real.two_pi_pos
  refine ⟨Int.fract (phi / (2 * Real.pi)), one_lt_two, ?_, ?_, ?_⟩
  · rw [wrap_fullTurn]
    exact mul_nonneg hturn.le (Int.fract_nonneg _)
  · rw [wrap_fullTurn]
    exact mul_le_of_le_one_right hturn.le (Int.fract_lt_one _).le
  · rw [wrap_fullTurn]
    show _ = (1 - _) * (0 : ℝ) + _ * (2 * Real.pi)
    ring

section Single

variable {input : SpectralInput ℝ} {p : RegridParameters} {s : Resampling} (hs : s.Valid p input)
  (hone : s.nZeta = 1)
include hs hone

/-- The only slice is used at both ends of the turn. -/
theorem slicesAtAngles_of_single : ∃ slice,
    resample s.mesh (s.radii p) (s.heights p) 0 = .ok slice ∧
      s.slicesAtAngles = (#[0, fullTurn], [slice, slice]) := by
  obtain ⟨slice, hslice, hresample⟩ := exists_slice hs (k := 0) (hone ▸ one_pos)
  obtain ⟨_, hsingle⟩ := List.length_eq_one_iff.mp ((length_slices hs).trans (by rw [hone]; rfl))
  obtain rfl : _ = slice := by simpa [hsingle] using hslice
  refine ⟨_, hresample, ?_⟩
  unfold Resampling.slicesAtAngles
  rw [if_pos hone, hsingle]
  simp

variable {slice : Slice ℝ} (hslices : s.slicesAtAngles = (#[0, fullTurn], [slice, slice]))
include hslices

omit hs hone in
/-- The axes of a component. -/
theorem axes_of_single (c : Component) : (c.interpolant (s.field p)).axes =
    [s.radii p, s.heights p, #[0, fullTurn]] := by
  rw [interpolant_field]
  show [s.radii p, s.heights p, s.slicesAtAngles.1] = _
  rw [hslices]

omit hone in
/-- In a cell of the grid a component is the bilinear interpolation of the samples of the slice. -/
theorem value_of_contains (c : Component) {x z : ℝ} {cellR cellZ : ℕ × ℝ}
    (hr : Multilinear.Contains (s.radii p) x cellR)
    (hz : Multilinear.Contains (s.heights p) z cellZ) (phi : ℝ) :
    c.value (.spectral (s.field p)) ⟨x, z, phi⟩ = Multilinear.bilinear cellR cellZ fun i j ↦
      nth (c.onSlice slice) (i * (s.heights p).size + j) := by
  obtain ⟨t, hangle⟩ := contains_wrap phi
  have hcells : Multilinear.ContainAll (c.interpolant (s.field p)).axes
      [x, z, Scalar.wrap fullTurn phi] [cellR, cellZ, (0, t)] := by
    rw [axes_of_single hslices]
    exact .cons hr (.cons hz (.cons hangle .nil))
  rw [Component.value_spectral]
  unfold lookup
  rw [Multilinear.eval_of_containAll (usable_interpolant hs c) hcells]
  refine Multilinear.nested_eq_bilinear _ _ _ fun i hi j hj ↦ ?_
  have hi : i < p.nr.toNat := (hi.trans_lt hr.index).trans_eq (s.size_radii p)
  have hj : j < p.nz.toNat := (hj.trans_lt hz.index).trans_eq (s.size_heights p)
  rw [interpolant_field, hslices, s.size_heights]
  exact ⟨nth_stack _ hi hj (by simp), nth_stack _ hi hj (by simp)⟩

omit hs hone in
/-- Outside the ranges of the radii and heights a component has the value outside the mesh. -/
theorem value_of_not_inBox (c : Component) {x z : ℝ}
    (hbox : ¬ Multilinear.InBox [s.radii p, s.heights p] [x, z]) (phi : ℝ) :
    c.value (.spectral (s.field p)) ⟨x, z, phi⟩ = c.outside := by
  have hnot : ¬ (c.interpolant (s.field p)).Holds [x, z, Scalar.wrap fullTurn phi] := by
    rw [Multilinear.holds_iff (axes_of_single hslices c)]
    exact fun hin ↦ hbox (.cons (Exact.within_iff.mp hin.1)
      (.cons (Exact.within_iff.mp hin.2.1) .nil))
  rw [Component.value_spectral]
  unfold lookup
  rw [Multilinear.eval_of_not_holds hnot, interpolant_field]

end Single

/-- A place within the ranges of the radii and of the heights lies in a cell of the grid. -/
theorem exists_contains_of_inBox {input : SpectralInput ℝ} {p : RegridParameters} {s : Resampling}
    (hs : s.Valid p input) {x z : ℝ} (h : Multilinear.InBox [s.radii p, s.heights p] [x, z]) :
    ∃ cellR cellZ, Multilinear.Contains (s.radii p) x cellR ∧
      Multilinear.Contains (s.heights p) z cellZ := by
  obtain ⟨hradii, husable⟩ := List.forall₂_cons.mp hs.usable
  have hheights := (List.forall₂_cons.mp husable).1
  obtain ⟨hx, hrest⟩ := List.forall₂_cons.mp h
  have hz := (List.forall₂_cons.mp hrest).1
  obtain ⟨cellR, -, hr⟩ := Multilinear.exists_contains hradii hx.1 hx.2
  obtain ⟨cellZ, -, hz⟩ := Multilinear.exists_contains hheights hz.1 hz.2
  exact ⟨cellR, cellZ, hr, hz⟩

/-- An equilibrium that is resampled on one toroidal slice is axisymmetric, with the samples of that
slice. -/
theorem axisymmetric_of_ofInput {input : SpectralInput ℝ} {p : RegridParameters}
    {e : RegriddedField ℝ} (h : ofInput input p = .ok e) {nTheta : UInt64}
    (hresolution : input.resolution p = .ok (nTheta, 1)) :
    ∃ mesh slice, SurfaceMesh.synthesize input nTheta.toNat 1 = .ok mesh ∧
      resample mesh (e.axis 0) (e.axis 1) 0 = .ok slice ∧ e.IsAxisymmetric slice := by
  obtain ⟨s, hs, rfl⟩ := ofInput_eq_ok_iff.mp h
  obtain ⟨rfl, hone⟩ : s.nTheta = nTheta ∧ s.nZeta = 1 := by
    simpa using hs.resolution.symm.trans hresolution
  obtain ⟨slice, hresample, hslices⟩ := slicesAtAngles_of_single hs hone
  have hmesh := hs.mesh
  rw [hone] at hmesh
  refine ⟨s.mesh, slice, hmesh, hresample, ?_⟩
  constructor
  case covered => exact fun x z hbox ↦ exists_contains_of_inBox hs hbox
  case inside => exact fun c x z phi _ _ hr hz ↦ value_of_contains hs hslices c hr hz phi
  case outside => exact fun c x z phi hbox ↦ value_of_not_inBox hslices c hbox phi
  case constant =>
    intro c x z phi phi'
    by_cases hbox : Multilinear.InBox [s.radii p, s.heights p] [x, z]
    · obtain ⟨cellR, cellZ, hr, hz⟩ := exists_contains_of_inBox hs hbox
      rw [value_of_contains hs hslices c hr hz, value_of_contains hs hslices c hr hz]
    · rw [value_of_not_inBox hslices c hbox, value_of_not_inBox hslices c hbox]

/-- The wedge is axisymmetric, whether the single slice is asked for or follows from the numbers of
modes. -/
theorem axisymmetric_wedge :
    (∃ e slice, ofInput (wedge 3) wedgeGrid = .ok e ∧ e.IsAxisymmetric slice) ∧
      ∃ e slice, ofInput { wedge 3 with mpol := some 2, ntor := some 0 } ⟨none, none, 2, 2, false⟩ =
        .ok e ∧ e.IsAxisymmetric slice := by
  obtain ⟨s, hs, htheta, hzeta, -⟩ := exists_valid_wedge 3 (show 0 < (1 : UInt64) by decide)
  have hmodes : s.Valid ⟨none, none, 2, 2, false⟩
      { wedge 3 with mpol := some 2, ntor := some 0 } := {
    parameters := rfl
    resolution := by rw [htheta, hzeta]; rfl
    mesh := hs.mesh
    rRange := hs.rRange
    zRange := hs.zRange
    rExtent := hs.rExtent
    zExtent := hs.zExtent
    slices := hs.slices
    usable := hs.usable }
  have hinput := ofInput_eq_ok_iff.mpr ⟨s, hs, rfl⟩
  have hinput' := ofInput_eq_ok_iff.mpr ⟨s, hmodes, rfl⟩
  have hasked : (wedge 3).resolution wedgeGrid = .ok (2, 1) := rfl
  have hfollows : ({ wedge 3 with mpol := some 2, ntor := some 0 } : SpectralInput ℝ).resolution
      ⟨none, none, 2, 2, false⟩ = .ok (2, 1) := rfl
  obtain ⟨_, slice, -, -, haxisymmetric⟩ := axisymmetric_of_ofInput hinput hasked
  obtain ⟨_, slice', -, -, haxisymmetric'⟩ := axisymmetric_of_ofInput hinput' hfollows
  exact ⟨⟨_, slice, hinput, haxisymmetric⟩, _, slice', hinput', haxisymmetric'⟩

end RegriddedField

end PlasmaField
