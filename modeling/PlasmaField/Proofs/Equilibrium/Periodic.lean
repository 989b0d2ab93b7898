import Mathlib
import PlasmaField.Proofs.Equilibrium.Nodes

/-!
# A resampled equilibrium around the torus

With whole toroidal mode numbers every mode has the same angle at both ends of the turn, up to full
turns. The mesh is then the same there, whatever its coefficients and its poloidal mode numbers, and
so are the points of both slices, their interpolants and the samples on the regular grid. The lookup
along the last axis is a polygon whose ends meet, and wrapping the angle makes it a function that is
periodic and continuous on the whole line, `closesTorus_of_ofInput`.
-/

namespace PlasmaField

open Scalar (nth)
open ShapedArray (offset)
open scoped Exact Elementary

/-! ## The slices at both ends of the turn -/

namespace Cube

/-- An element of a slice is that of the block at its indices. -/
theorem slice_eq_ofFn_get (c : Cube ℝ) {k : ℕ} (hk : k < c.l) :
    c.slice k = Array.ofFn fun p : Fin (c.n * c.m) ↦ c.get (p.val / c.m) (p.val % c.m) k := by
  refine congrArg Array.ofFn (funext fun p ↦ ?_)
  have hm : 0 < c.m := Nat.pos_of_mul_pos_left (Nat.lt_of_le_of_lt (Nat.zero_le _) p.isLt)
  have hi : p.val / c.m < c.n := Nat.div_lt_of_lt_mul (p.isLt.trans_eq (Nat.mul_comm _ _))
  have hj : p.val % c.m < c.m := Nat.mod_lt _ hm
  unfold get
  rw [if_pos (by simp [hi, hj, hk]), Nat.div_add_mod']

/-- Slices are equal when all their places correspond without a change of sign. -/
theorem slice_eq_of_corresponds {c : Cube ℝ} {m l k k' : ℕ} (hk : k < l) (hk' : k' < l)
    (hshape : c.m = m ∧ c.l = l) (h : ∀ i < m, c.Corresponds m l 1 (i, k) (i, k')) :
    c.slice k' = c.slice k := by
  obtain ⟨rfl, rfl⟩ := hshape
  rw [c.slice_eq_ofFn_get hk, c.slice_eq_ofFn_get hk']
  refine congrArg Array.ofFn (funext fun p ↦ ?_)
  have hm : 0 < c.m := Nat.pos_of_mul_pos_left (Nat.lt_of_le_of_lt (Nat.zero_le _) p.isLt)
  exact ((h _ (Nat.mod_lt p.val hm)).element _).trans (one_mul _)

end Cube

namespace SurfaceMesh

/-- With whole toroidal mode numbers the ends of the turn correspond. -/
theorem closedBasis_ends (xm : Array ℝ) {xn : Array ℝ} (hn : Whole xn) (nTheta : ℕ) {nZeta : ℕ}
    (hzeta : 2 ≤ nZeta) (i : ℕ) :
    (closedBasis nTheta nZeta xm xn).Corresponds 1 (i, 0) (i, nZeta - 1) := by
  intro k _
  obtain ⟨n, hn⟩ := hn.exists_nth k
  have hangle : (closedBasis nTheta nZeta xm xn).angleAt k (i, nZeta - 1) =
      (closedBasis nTheta nZeta xm xn).angleAt k (i, 0) + n * (2 * Real.pi) := by
    unfold HarmonicBasis.angleAt closedBasis
    dsimp only
    rw [hn, nth_closedAngles_last hzeta, nth_closedAngles_zero (by omega)]
    ring
  rw [hangle, Real.cos_add_int_mul_two_pi, Real.sin_add_int_mul_two_pi, one_mul]
  exact ⟨rfl, rfl⟩

/-- With whole toroidal mode numbers the mesh has the same slices at both ends of the turn. -/
theorem slice_last_of_synthesize {input : SpectralInput ℝ} (hxn : Whole input.xn)
    (hfieldXn : Whole input.fieldXn) {nTheta nZeta : ℕ} (htheta : 0 < nTheta) (hzeta : 2 ≤ nZeta)
    {mesh : SurfaceMesh ℝ} (h : synthesize input nTheta nZeta = .ok mesh) :
    ∀ c ∈ [mesh.r, mesh.z, mesh.br, mesh.bz, mesh.bphi], c.slice (nZeta - 1) = c.slice 0 := by
  have hmesh : ∀ i < nTheta, mesh.Corresponds nTheta nZeta 1 (i, 0) (i, nZeta - 1) := by
    intro i hi
    exact corresponds_of_synthesize h ⟨hi, by dsimp; omega⟩ ⟨hi, by dsimp; omega⟩
      (closedBasis_ends _ hxn _ hzeta i) (closedBasis_ends _ hfieldXn _ hzeta i) (.inr rfl)
  have hslice : ∀ c : Cube ℝ, (∀ i < nTheta, c.Corresponds nTheta nZeta 1 (i, 0) (i, nZeta - 1)) →
      c.slice (nZeta - 1) = c.slice 0 := by
    intro c hc
    have hshape := hc 0 htheta
    exact Cube.slice_eq_of_corresponds (by omega) (by omega) ⟨hshape.m_eq, hshape.l_eq⟩ hc
  intro c hc
  simp only [List.mem_cons, List.not_mem_nil, or_false] at hc
  rcases hc with rfl | rfl | rfl | rfl | rfl
  · exact hslice _ fun i hi ↦ (hmesh i hi).r
  · exact hslice _ fun i hi ↦ (hmesh i hi).z
  · exact hslice _ fun i hi ↦ (hmesh i hi).br
  · exact hslice _ fun i hi ↦ (hmesh i hi).bz
  · exact hslice _ fun i hi ↦ (hmesh i hi).bphi

end SurfaceMesh

namespace RegriddedField

/-- Slices with the same points and components are resampled alike. -/
theorem resample_congr {mesh : SurfaceMesh ℝ} {k k' : ℕ}
    (h : ∀ c ∈ [mesh.r, mesh.z, mesh.br, mesh.bz, mesh.bphi], c.slice k' = c.slice k)
    (r z : Array ℝ) : resample mesh r z k' = resample mesh r z k := by
  simp only [List.forall_mem_cons, List.not_mem_nil, false_imp_iff, implies_true, and_true] at h
  obtain ⟨hr, hz, hbr, hbz, hbphi⟩ := h
  unfold resample
  rw [hr, hz, hbr, hbz, hbphi]

/-! ## Closed fields -/

/-- The samples at both ends of the turn are the same, and every component is periodic and
continuous in the toroidal angle. -/
structure ClosesTorus (e : RegriddedField ℝ) : Prop where
  first : nth (e.axis 2) 0 = 0
  last : nth (e.axis 2) ((e.axis 2).size - 1) = 2 * Real.pi
  samples : ∀ c : Component, ∀ i < (e.axis 0).size, ∀ j < (e.axis 1).size, ∃ v,
    (c.interpolant e).samples.get? [i, j, 0] = some v ∧
      (c.interpolant e).samples.get? [i, j, (e.axis 2).size - 1] = some v
  periodic : ∀ (c : Component) (x z : ℝ),
    Function.Periodic (fun phi ↦ c.value (.spectral e) ⟨x, z, phi⟩) (2 * Real.pi)
  continuous : ∀ (c : Component) (x z : ℝ),
    Continuous fun phi ↦ c.value (.spectral e) ⟨x, z, phi⟩

/-- The wrapped angle is a full turn times the fractional part of the number of turns. -/
theorem wrap_fullTurn (phi : ℝ) :
    Scalar.wrap fullTurn phi = 2 * Real.pi * Int.fract (phi / (2 * Real.pi)) :=
  Exact.wrap_eq_fract Real.two_pi_pos phi

/-- Looking up a wrapped angle is periodic. -/
theorem periodic_lookup (g : Multilinear ℝ) (x z : ℝ) :
    Function.Periodic (lookup g x z) (2 * Real.pi) := by
  intro phi
  unfold lookup
  rw [wrap_fullTurn, wrap_fullTurn, add_div, div_self Real.two_pi_pos.ne', Int.fract_add_one]

/-- Looking up a wrapped angle is continuous if the interpolant is continuous along one turn and its
values at both ends are the same. -/
theorem continuous_lookup {g : Multilinear ℝ} {x z : ℝ}
    (hturn : ContinuousOn (fun v ↦ g.eval [x, z, v]) (Set.Icc 0 (2 * Real.pi)))
    (hends : g.eval [x, z, 0] = g.eval [x, z, 2 * Real.pi]) : Continuous (lookup g x z) := by
  let f : ℝ → ℝ := fun u ↦ g.eval [x, z, 2 * Real.pi * u]
  have hf : ContinuousOn f (Set.Icc 0 1) := by
    refine hturn.comp (continuous_const_mul (2 * Real.pi)).continuousOn fun u hu ↦ ?_
    exact ⟨mul_nonneg Real.two_pi_pos.le hu.1, mul_le_of_le_one_right Real.two_pi_pos.le hu.2⟩
  have hmeet : f 0 = f 1 := by
    show g.eval [x, z, 2 * Real.pi * 0] = g.eval [x, z, 2 * Real.pi * 1]
    rw [mul_zero, mul_one, hends]
  have hlookup : lookup g x z = (f ∘ Int.fract) ∘ fun phi ↦ phi / (2 * Real.pi) := by
    funext phi
    unfold lookup
    rw [wrap_fullTurn]
    rfl
  rw [hlookup]
  exact (hf.comp_fract'' hmeet).comp (continuous_id.div_const _)

/-- Some poloidal angles are used. -/
theorem pos_of_resolution {input : SpectralInput ℝ} {p : RegridParameters}
    {nTheta nZeta : UInt64} (h : input.resolution p = .ok (nTheta, nZeta)) :
    0 < nTheta.toNat := by
  have hcheck : ∀ t v : UInt64, (if t < 2 || v < 1 then
      (throw (.config (.angularResolution t v)) : Except (FieldError ℝ) (UInt64 × UInt64))
        else return (t, v)) = .ok (nTheta, nZeta) → 0 < nTheta.toNat := by
    intro t v hok
    split at hok
    · cases hok
    next henough =>
      cases hok
      simp only [Bool.or_eq_true, decide_eq_true_eq, not_or, UInt64.not_lt,
        UInt64.le_iff_toNat_le] at henough
      exact lt_of_lt_of_le Nat.two_pos henough.1
  unfold SpectralInput.resolution at h
  cases htheta : p.nTheta <;> cases hmpol : input.mpol <;> cases hzeta : p.nZeta <;>
    cases hntor : input.ntor <;> rw [htheta, hmpol, hzeta, hntor] at h <;>
    first | cases h | exact hcheck _ _ h

/-- A sample that an array has at an index is read at the place of the index. -/
theorem nth_of_get? {a : ShapedArray ℝ} {index : List ℕ} {v : ℝ} (h : a.get? index = some v) :
    nth a.data (offset a.shape index) = v := by
  unfold ShapedArray.get? at h
  split at h
  · rw [Exact.nth_eq_getD, Array.getD_eq_getD_getElem?, h, Option.getD_some]
  · cases h

/-- Two or more angles are those of the mesh, with their slices. -/
theorem slicesAtAngles_of_two_le {s : Resampling} (hzeta : 2 ≤ s.nZeta.toNat) :
    s.slicesAtAngles = (s.mesh.zeta, s.slices) := by
  refine if_neg fun hone ↦ ?_
  rw [hone] at hzeta
  exact absurd hzeta (by decide)

section Resampled

variable {input : SpectralInput ℝ} {p : RegridParameters} {s : Resampling} (hs : s.Valid p input)
  (hxn : Whole input.xn) (hfieldXn : Whole input.fieldXn) (hzeta : 2 ≤ s.nZeta.toNat)
include hs hxn hfieldXn hzeta

/-- The slices at both ends of the turn are the same. -/
theorem slices_ends : ∃ slice, s.slicesAtAngles.2[0]? = some slice ∧
    s.slicesAtAngles.2[s.nZeta.toNat - 1]? = some slice := by
  obtain ⟨first, hfirst, hresample⟩ := exists_slice hs (k := 0) (by omega)
  obtain ⟨last, hlast, hresample'⟩ := exists_slice hs (k := s.nZeta.toNat - 1) (by omega)
  have hcongr := resample_congr (SurfaceMesh.slice_last_of_synthesize hxn hfieldXn
    (pos_of_resolution hs.resolution) hzeta hs.mesh) (s.radii p) (s.heights p)
  rw [hresample, hresample'] at hcongr
  rw [slicesAtAngles_of_two_le hzeta]
  exact ⟨first, hfirst, hlast.trans (congrArg some (Except.ok.inj hcongr))⟩

/-- The samples at both ends of the turn are the same. -/
theorem samples_ends (c : Component) {i j : ℕ} (hi : i < p.nr.toNat) (hj : j < p.nz.toNat) :
    ∃ v, (c.interpolant (s.field p)).samples.get? [i, j, 0] = some v ∧
      (c.interpolant (s.field p)).samples.get? [i, j, s.nZeta.toNat - 1] = some v := by
  obtain ⟨slice, hfirst, hlast⟩ := slices_ends hs hxn hfieldXn hzeta
  have hget : ∀ k, s.slicesAtAngles.2[k]? = some slice →
      (c.interpolant (s.field p)).samples.get? [i, j, k] =
        some (nth (c.onSlice slice) (i * p.nz.toNat + j)) := by
    intro k hk
    have hlt : k < s.slicesAtAngles.2.length := (List.getElem?_eq_some_iff.mp hk).1
    rw [interpolant_field, get?_stack _ hi hj (by simpa using hlt), List.getD_eq_getElem?_getD,
      List.getElem?_map, hk]
    rfl
  exact ⟨_, hget 0 hfirst, hget _ hlast⟩

/-- The values at both ends of the turn are the same, wherever the other coordinates are. -/
theorem eval_ends (c : Component) (x z : ℝ) :
    (c.interpolant (s.field p)).eval [x, z, nth s.slicesAtAngles.1 0] =
      (c.interpolant (s.field p)).eval [x, z, nth s.slicesAtAngles.1 (s.nZeta.toNat - 1)] := by
  obtain ⟨_, -, hlast⟩ := slices_ends hs hxn hfieldXn hzeta
  obtain ⟨hr, hplane⟩ := List.forall₂_cons.mp hs.usable
  obtain ⟨hz, hangle⟩ := List.forall₂_cons.mp hplane
  have hend : s.nZeta.toNat - 1 < s.slicesAtAngles.2.length :=
    (List.getElem?_eq_some_iff.mp hlast).1
  have hshape : (c.interpolant (s.field p)).samples.shape =
      [p.nr.toNat, p.nz.toNat] ++ [s.slicesAtAngles.2.length] := by
    rw [interpolant_field]
    simp [stack, Cube.toShaped, Cube.ofFn]
  have haxes : (c.interpolant (s.field p)).axes =
      [s.radii p, s.heights p] ++ [s.slicesAtAngles.1] := by
    rw [interpolant_field]
    rfl
  refine Multilinear.eval_last_congr haxes hshape (.cons hr (.cons hz .nil))
    (List.forall₂_cons.mp hangle).1 (by omega) hend (fun index hindex ↦ ?_)
    (show [x, z].length = [s.radii p, s.heights p].length from rfl)
  obtain ⟨i, _, hi, hrest, rfl⟩ := List.forall₂_cons_right_iff.mp hindex
  obtain ⟨j, _, hj, hnil, rfl⟩ := List.forall₂_cons_right_iff.mp hrest
  obtain rfl := List.forall₂_nil_right_iff.mp hnil
  obtain ⟨v, hfirst, hlast⟩ := samples_ends hs hxn hfieldXn hzeta c hi hj
  exact (nth_of_get? hfirst).trans (nth_of_get? hlast).symm

end Resampled

/-- If the toroidal mode numbers of an equilibrium are whole and it is resampled on two or more
angles, the resampled equilibrium closes on itself. -/
theorem closesTorus_of_ofInput {input : SpectralInput ℝ} {p : RegridParameters}
    {e : RegriddedField ℝ} (h : ofInput input p = .ok e) {nTheta nZeta : UInt64}
    (hresolution : input.resolution p = .ok (nTheta, nZeta)) (hzeta : 2 ≤ nZeta)
    (hxn : Whole input.xn) (hfieldXn : Whole input.fieldXn) : ClosesTorus e := by
  obtain ⟨s, hs, rfl⟩ := ofInput_eq_ok_iff.mp h
  obtain ⟨rfl, rfl⟩ : s.nTheta = nTheta ∧ s.nZeta = nZeta := by
    simpa using hs.resolution.symm.trans hresolution
  have htwo : 2 ≤ s.nZeta.toNat := UInt64.le_iff_toNat_le.mp hzeta
  have haxis : (s.field p).axis 2 = closedAngles s.nZeta.toNat := by
    show s.slicesAtAngles.1 = _
    rw [slicesAtAngles_of_two_le htwo, SurfaceMesh.zeta_of_synthesize hs.mesh]
  have hfirst : nth (closedAngles s.nZeta.toNat : Array ℝ) 0 = 0 :=
    nth_closedAngles_zero (by omega)
  have hlast : nth (closedAngles s.nZeta.toNat : Array ℝ) (s.nZeta.toNat - 1) = 2 * Real.pi :=
    nth_closedAngles_last htwo
  constructor
  case first => rw [haxis, hfirst]
  case last => rw [haxis, size_closedAngles, hlast]
  case samples =>
    intro c i hi j hj
    rw [haxis, size_closedAngles]
    have hr : i < (s.radii p).size := hi
    have hz : j < (s.heights p).size := hj
    exact samples_ends hs hxn hfieldXn htwo c (by simpa using hr) (by simpa using hz)
  case periodic =>
    intro c x z
    simp only [Component.value_spectral]
    exact periodic_lookup _ x z
  case continuous =>
    intro c x z
    simp only [Component.value_spectral]
    have haxes : (c.interpolant (s.field p)).axes =
        [s.radii p, s.heights p] ++ [closedAngles s.nZeta.toNat] := by
      rw [interpolant_field, ← haxis]
      rfl
    refine continuous_lookup ?_ ?_
    · have hcontinuous := Multilinear.continuousOn_eval_last (usable_interpolant hs c) haxes
        (usable_closedAngles htwo)
        (show [x, z].length = [s.radii p, s.heights p].length from rfl)
      rwa [size_closedAngles, hfirst, hlast] at hcontinuous
    · have hends := eval_ends hs hxn hfieldXn htwo c x z
      rwa [show s.slicesAtAngles.1 = closedAngles s.nZeta.toNat from haxis, hfirst, hlast]
        at hends

/-- The wedge on three angles closes on itself. -/
theorem closesTorus_wedge : ∃ e, ofInput (wedge 3) (wedgeGridAt 3) = .ok e ∧ ClosesTorus e := by
  obtain ⟨s, hs, -, hzeta, -⟩ := exists_valid_wedge 3 (show 0 < (3 : UInt64) by decide)
  have htwo : 2 ≤ s.nZeta := hzeta ▸ (by decide)
  have hwhole : Whole #[(0 : ℝ)] := by
    simpa using whole_map #[0]
  have hinput : ofInput (wedge 3) (wedgeGridAt 3) = .ok (s.field (wedgeGridAt 3)) :=
    ofInput_eq_ok_iff.mpr ⟨s, hs, rfl⟩
  exact ⟨_, hinput, closesTorus_of_ofInput hinput hs.resolution htwo hwhole hwhole⟩

end RegriddedField

end PlasmaField
