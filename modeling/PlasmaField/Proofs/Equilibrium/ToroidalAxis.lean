import Mathlib
import PlasmaField.Proofs.Binary64.Angles
import PlasmaField.Proofs.Equilibrium.Nodes

/-!
# The toroidal axis in double precision

The last angle of the toroidal axis is not set to a full turn but computed, and a wrapped angle can
be a full turn exactly, because the sum of the modulus and a small negative remainder is rounded. So
the axis covers all angles only where the product for its last angle is not rounded below a full
turn. This is the case for up to 75 angles. With 76 it is not, and the angles just below zero are
answered with the values outside the mesh, whatever the mesh is there, `toroidalRange_of_ofInput`.
-/

namespace PlasmaField

open Outcome (bind_eq_ok_iff guard_eq_ok_iff)
open Scalar (nth)

/-! ## Axes over any scalars -/

namespace RegriddedField

variable {α : Type} [ElementaryScalar α]

/-- With more than one toroidal angle, every component of a resampled equilibrium has the angles of
the mesh as its last axis, and these are finite. -/
theorem axes_of_ofInput {input : SpectralInput α} {p : RegridParameters} {e : RegriddedField α}
    (h : ofInput input p = .ok e) {nTheta nZeta : UInt64}
    (hresolution : input.resolution p = .ok (nTheta, nZeta)) (hne : nZeta ≠ 1) :
    (∃ r z, ∀ c : Component, (c.interpolant e).axes = [r, z, closedAngles nZeta.toNat] ∧
      (c.interpolant e).fill = c.outside) ∧
    (closedAngles nZeta.toNat : Array α).all Scalar.isFinite = true := by
  unfold ofInput at h
  obtain ⟨_, -, h⟩ := bind_eq_ok_iff.mp h
  rw [hresolution] at h
  obtain ⟨_, heq, h⟩ := bind_eq_ok_iff.mp h
  cases heq
  obtain ⟨mesh, hmesh, h⟩ := bind_eq_ok_iff.mp h
  obtain ⟨-, h⟩ := guard_eq_ok_iff.mp h
  obtain ⟨slices, -, h⟩ := bind_eq_ok_iff.mp h
  dsimp only at h
  rw [if_neg hne] at h
  obtain ⟨br, hbr, h⟩ := bind_eq_ok_iff.mp h
  obtain ⟨bz, hbz, h⟩ := bind_eq_ok_iff.mp h
  obtain ⟨bphi, hbphi, h⟩ := bind_eq_ok_iff.mp h
  cases h
  obtain ⟨hcheck, rfl⟩ := Multilinear.of_ofSamples hbr
  obtain ⟨-, rfl⟩ := Multilinear.of_ofSamples hbz
  obtain ⟨-, rfl⟩ := Multilinear.of_ofSamples hbphi
  rw [SurfaceMesh.zeta_of_synthesize hmesh] at hcheck ⊢
  refine ⟨⟨_, _, fun c ↦ by cases c <;> exact ⟨rfl, rfl⟩⟩, ?_⟩
  obtain ⟨_, -, hcheck⟩ := bind_eq_ok_iff.mp hcheck
  obtain ⟨_, -, hcheck⟩ := bind_eq_ok_iff.mp hcheck
  obtain ⟨_, hcheck, -⟩ := bind_eq_ok_iff.mp hcheck
  exact Multilinear.all_isFinite_of_checkAxis hcheck

end RegriddedField

/-! ## The range of the toroidal axis -/

namespace RegriddedField

open Binary64
open scoped Binary64

variable [Platform]

/-- The greatest toroidal angle of a resampled equilibrium. -/
def lastAngle (e : RegriddedField Float) : Float :=
  nth (e.axis 2) ((e.axis 2).size - 1)

/-- A place lies within the closed ranges of the radii and of the heights. -/
def InPlane (e : RegriddedField Float) (x z : Float) : Prop :=
  Scalar.within (nth (e.axis 0) 0) (nth (e.axis 0) ((e.axis 0).size - 1)) x = true ∧
    Scalar.within (nth (e.axis 1) 0) (nth (e.axis 1) ((e.axis 1).size - 1)) z = true

/-- What the toroidal axis of a resampled equilibrium covers. The wrapped angle lies between the
first angle and a full turn. A lookup in the plane of the grid is answered from the samples if the
wrapped angle is not above the last angle, and with the value outside the mesh if it is. So all
finite angles are covered just if the last one is not below a full turn. -/
structure ToroidalRange (e : RegriddedField Float) : Prop where
  wrapped : ∀ phi : Float, phi.isFinite = true →
    nth (e.axis 2) 0 ≤ Scalar.wrap fullTurn phi ∧ Scalar.wrap fullTurn phi ≤ fullTurn
  answered : ∀ (c : Component) (x z phi : Float), e.InPlane x z → phi.isFinite = true →
    Scalar.wrap fullTurn phi ≤ e.lastAngle →
    (c.interpolant e).Holds [x, z, Scalar.wrap fullTurn phi]
  filled : ∀ (c : Component) (x z phi : Float), e.InPlane x z → phi.isFinite = true →
    e.lastAngle < Scalar.wrap fullTurn phi → c.value (.spectral e) ⟨x, z, phi⟩ = c.outside
  covered_iff : (∀ phi : Float, phi.isFinite = true → Scalar.wrap fullTurn phi ≤ e.lastAngle) ↔
    fullTurn ≤ e.lastAngle

/-- The axes of an equilibrium that is resampled on a number of toroidal angles. -/
structure HasAngles (e : RegriddedField Float) (n : ℕ) : Prop where
  axes : ∀ c : Component, (c.interpolant e).axes = [e.axis 0, e.axis 1, e.axis 2]
  fill : ∀ c : Component, (c.interpolant e).fill = c.outside
  first : nth (e.axis 2) 0 = angle n 0
  last : e.lastAngle = angle n (n - 1)
  finite : ∀ i < n, (angle n i).isFinite = true

/-- An equilibrium that is resampled on more than one angle has these angles. -/
theorem hasAngles_of_ofInput {input : SpectralInput Float} {p : RegridParameters}
    {e : RegriddedField Float} (h : ofInput input p = .ok e) {nTheta nZeta : UInt64}
    (hresolution : input.resolution p = .ok (nTheta, nZeta)) (hzeta : 2 ≤ nZeta) :
    e.HasAngles nZeta.toNat := by
  have htwo : 2 ≤ nZeta.toNat := UInt64.le_iff_toNat_le.mp hzeta
  have hne : nZeta ≠ 1 := by
    rintro rfl
    exact absurd htwo (by decide)
  obtain ⟨⟨r, z, haxes⟩, hfinite⟩ := axes_of_ofInput h hresolution hne
  have hr : e.axis 0 = r := congrArg (·.getD 0 #[]) (haxes .radial).1
  have hz : e.axis 1 = z := congrArg (·.getD 1 #[]) (haxes .radial).1
  have hangles : e.axis 2 = closedAngles nZeta.toNat :=
    congrArg (·.getD 2 #[]) (haxes .radial).1
  constructor
  case axes =>
    intro c
    rw [hr, hz, hangles]
    exact (haxes c).1
  case fill => exact fun c ↦ (haxes c).2
  case first => rw [hangles, nth_closedAngles_eq (by omega) (by omega)]
  case last =>
    unfold lastAngle
    rw [hangles, size_closedAngles, nth_closedAngles_eq (by omega) (by omega)]
  case finite => exact fun i hi ↦ isFinite_angle (by omega) hi hfinite

section Range

variable {e : RegriddedField Float} {n : ℕ} (h : e.HasAngles n) (hn : 2 ≤ n)
include h hn

/-- A wrapped angle lies between the first angle and a full turn. -/
theorem HasAngles.wrapped {phi : Float} (hphi : phi.isFinite = true) :
    nth (e.axis 2) 0 ≤ Scalar.wrap fullTurn phi ∧ Scalar.wrap fullTurn phi ≤ fullTurn := by
  obtain ⟨hwrap, hlow, hhigh⟩ := wrap_fullTurn_mem hphi
  have hzero := h.finite 0 (by omega)
  rw [h.first]
  exact ⟨(Binary64.le_iff hzero hwrap).mpr ((value_angle_zero hzero).trans_le hlow),
    (Binary64.le_iff hwrap turn_pos.1).mpr hhigh⟩

/-- In the plane of the grid, a component has samples around a place just if the wrapped angle is
not above the last one. -/
theorem HasAngles.holds_iff (c : Component) {x z phi : Float} (hplane : e.InPlane x z)
    (hphi : phi.isFinite = true) : (c.interpolant e).Holds [x, z, Scalar.wrap fullTurn phi] ↔
      Scalar.wrap fullTurn phi ≤ e.lastAngle := by
  rw [Multilinear.holds_iff (h.axes c)]
  constructor
  · exact fun hcell ↦ (Binary64.within_iff.mp hcell.2.2).2
  · intro hle
    exact ⟨hplane.1, hplane.2, Binary64.within_iff.mpr ⟨(h.wrapped hn hphi).1, hle⟩⟩

/-- In the plane of the grid, a component has the value outside the mesh if the wrapped angle is
above the last one. -/
theorem HasAngles.value_eq_outside (c : Component) {x z phi : Float} (hplane : e.InPlane x z)
    (hphi : phi.isFinite = true) (habove : e.lastAngle < Scalar.wrap fullTurn phi) :
    c.value (.spectral e) ⟨x, z, phi⟩ = c.outside := by
  have hlast : e.lastAngle.isFinite = true := h.last ▸ h.finite _ (by omega)
  have hwrap := (wrap_fullTurn_mem hphi).1
  have hnot : ¬ (c.interpolant e).Holds [x, z, Scalar.wrap fullTurn phi] := by
    rw [h.holds_iff hn c hplane hphi, Binary64.le_iff hwrap hlast, not_le]
    exact (Binary64.lt_iff hlast hwrap).mp habove
  rw [Component.value_spectral, ← h.fill c]
  exact Multilinear.eval_of_not_holds hnot

/-- All finite angles are wrapped to at most the last one just if that is not below a full turn. -/
theorem HasAngles.covered_iff :
    (∀ phi : Float, phi.isFinite = true → Scalar.wrap fullTurn phi ≤ e.lastAngle) ↔
      fullTurn ≤ e.lastAngle := by
  have hlast : e.lastAngle.isFinite = true := h.last ▸ h.finite _ (by omega)
  have hturn : (fullTurn : Float).isFinite = true := turn_pos.1
  constructor
  · intro hall
    obtain ⟨hfinite, hreach⟩ := turn_le_wrap
    have hwrap := (wrap_fullTurn_mem hfinite).1
    exact (Binary64.le_iff hturn hlast).mpr (((Binary64.le_iff hturn hwrap).mp hreach).trans
      ((Binary64.le_iff hwrap hlast).mp (hall _ hfinite)))
  · intro hreach phi hphi
    have hwrap := (wrap_fullTurn_mem hphi).1
    exact (Binary64.le_iff hwrap hlast).mpr
      (((Binary64.le_iff hwrap hturn).mp (h.wrapped hn hphi).2).trans
        ((Binary64.le_iff hturn hlast).mp hreach))

end Range

/-- The toroidal range of an equilibrium that is resampled on more than one angle. Up to 75 angles
it covers all finite ones. -/
theorem toroidalRange_of_ofInput {input : SpectralInput Float} {p : RegridParameters}
    {e : RegriddedField Float} (h : ofInput input p = .ok e) {nTheta nZeta : UInt64}
    (hresolution : input.resolution p = .ok (nTheta, nZeta)) (hzeta : 2 ≤ nZeta) :
    e.ToroidalRange ∧ (nZeta ≤ 75 → fullTurn ≤ e.lastAngle) := by
  have hangles := hasAngles_of_ofInput h hresolution hzeta
  have htwo : 2 ≤ nZeta.toNat := UInt64.le_iff_toNat_le.mp hzeta
  refine ⟨?_, ?_⟩
  · constructor
    case wrapped => exact fun phi hphi ↦ hangles.wrapped htwo hphi
    case answered =>
      exact fun c x z phi hplane hphi ↦ (hangles.holds_iff htwo c hplane hphi).mpr
    case filled => exact fun c x z phi hplane hphi ↦ hangles.value_eq_outside htwo c hplane hphi
    case covered_iff => exact hangles.covered_iff htwo
  · intro hfew
    rw [hangles.last]
    exact turn_le_angle htwo (UInt64.le_iff_toNat_le.mp hfew)

end RegriddedField

/-! ## A wedge -/

namespace Scalar

variable {α : Type} [Scalar α]

/-- Taking the smaller operand again changes nothing, even if an operand is no number. -/
theorem min_right_idem (x y : α) : Scalar.min (Scalar.min x y) y = Scalar.min x y := by
  unfold Scalar.min
  split_ifs <;> rfl

/-- Taking the larger operand again changes nothing, even if an operand is no number. -/
theorem max_right_idem (x y : α) : Scalar.max (Scalar.max x y) y = Scalar.max x y := by
  unfold Scalar.max
  split_ifs <;> rfl

/-- Repeating the members of a list does not change its range. -/
theorem range?_flatMap_replicate (xs : List α) {n : ℕ} (hn : 0 < n) :
    range? (xs.flatMap (List.replicate n)) = range? xs := by
  have hrepeat : ∀ step : Option (α × α) → α → Option (α × α),
      (∀ seen x, step (step seen x) x = step seen x) → ∀ seen x k,
        (List.replicate (k + 1) x).foldl step seen = step seen x := by
    intro step hstep seen x k
    induction k with
    | zero => rfl
    | succ k ih => rw [List.replicate_succ', List.foldl_concat, ih, hstep]
  obtain ⟨k, rfl⟩ := Nat.exists_eq_succ_of_ne_zero hn.ne'
  unfold range?
  rw [List.foldl_flatMap]
  congr 1
  funext seen x
  refine hrepeat _ (fun seen x ↦ ?_) seen x k
  by_cases hx : isNaN x = true
  · simp only [hx, if_true]
  · cases seen with
    | none => simp [hx, Scalar.min, Scalar.max]
    | some ends => simp [hx, min_right_idem, max_right_idem]

end Scalar

/-- The elements of a block that only depend on the first index. -/
theorem Cube.toList_ofFn_first {α : Type} (n m l : ℕ) (f : ℕ → α) :
    (ofFn n m l fun i _ _ ↦ f i).data.toList =
      (List.ofFn fun i : Fin n ↦ f i).flatMap (List.replicate (m * l)) := by
  have hdata : ∀ size, size = n * (m * l) → (List.ofFn fun p : Fin size ↦ f (p.val / l / m)) =
      (List.ofFn fun i : Fin n ↦ List.replicate (m * l) (f i)).flatten := by
    rintro _ rfl
    rw [List.ofFn_mul]
    refine congrArg List.flatten (congrArg List.ofFn (funext fun i ↦ ?_))
    rw [← List.ofFn_const]
    refine congrArg List.ofFn (funext fun j ↦ congrArg f ?_)
    show (i.val * (m * l) + j.val) / l / m = i.val
    rw [Nat.div_div_eq_div_mul, Nat.mul_comm l m, Nat.mul_comm i.val,
      Nat.mul_add_div (Nat.zero_lt_of_lt j.isLt), Nat.div_eq_of_lt j.isLt, Nat.add_zero]
  unfold ofFn
  rw [Array.toList_ofFn, hdata _ (Nat.mul_assoc n m l), List.flatMap_def, List.map_ofFn]
  rfl

/-- An interpolant of scattered samples takes one sample for each point. -/
theorem Scattered.inputs_of_ofPoints {α : Type} [Scalar α] {points : Array (Point α)}
    {s : Scattered α} (h : ofPoints points = .ok s) : s.inputs = points.size := by
  unfold ofPoints at h
  obtain ⟨-, h⟩ := guard_eq_ok_iff.mp h
  obtain ⟨-, h⟩ := guard_eq_ok_iff.mp h
  obtain ⟨-, h⟩ := guard_eq_ok_iff.mp h
  cases h
  rfl

namespace Binary64.AtZero

open RegriddedField (Slice ofInput outsidePoloidal outsideToroidal resample resolution_wedgeGridAt
  stack validate_wedgeGridAt wedgeGridAt)

/-- Sine and cosine as they are at zero, the only angle of a mode without mode numbers. -/
scoped instance platform : Platform :=
  ⟨fun _ ↦ 0, fun _ ↦ 1, fun _ ↦ 0⟩

/-- An axisymmetric equilibrium whose surfaces are the corners of a triangle, with a toroidal
component that is two everywhere. -/
def doubleWedge : SpectralInput Float where
  xm := #[0]
  xn := #[0]
  fieldModes := none
  rCosine := ⟨3, 1, #[1, 2, 1], rfl⟩
  zSine := ⟨3, 1, #[0, 0, 0], rfl⟩
  poloidal := ⟨3, 1, #[0, 0, 0], rfl⟩
  toroidal := ⟨3, 1, #[2, 2, 0], rfl⟩
  asymmetric := some ⟨⟨3, 1, #[0, 0, 0], rfl⟩, ⟨3, 1, #[0, 0, 1], rfl⟩⟩
  mpol := none
  ntor := none

/-- The mode of the wedge on two poloidal and `n` toroidal angles. -/
def basis (n : ℕ) : HarmonicBasis Float :=
  ⟨#[0], #[0], closedAngles 2, closedAngles n⟩

/-- A coordinate of the wedge's mesh, which only depends on the surface. -/
def coordinate (n : ℕ) (xs : Array Float) : Cube Float :=
  Cube.ofFn 3 2 n fun s _ _ ↦ nth xs s

/-- The series of the wedge do not depend on the angles. -/
theorem series_const (n : ℕ) (c : ℕ → Float) (t v : Float) :
    (basis n).cosineAt c t v = (basis 0).cosineAt c 0 0 ∧
      (basis n).sineAt c t v = (basis 0).sineAt c 0 0 :=
  ⟨rfl, rfl⟩

section Mesh

variable {n : ℕ}

/-- A sum of two series that do not depend on the angles. -/
theorem add_eq_coordinate {f g : (ℕ → Float) → Float → Float → Float}
    {f₀ g₀ : (ℕ → Float) → Float} (hf : ∀ c t v, f c t v = f₀ c) (hg : ∀ c t v, g c t v = g₀ c)
    {a b : Table Float} {xs : Array Float} (h : ∀ s < 3, f₀ (a.get s) + g₀ (b.get s) = nth xs s) :
    (Cube.ofFn 3 (basis n).theta.size (basis n).zeta.size fun s i j ↦
        f (a.get s) (nth (basis n).theta i) (nth (basis n).zeta j)).zipWith (· + ·)
      (Cube.ofFn 3 (basis n).theta.size (basis n).zeta.size fun s i j ↦
        g (b.get s) (nth (basis n).theta i) (nth (basis n).zeta j)) = coordinate n xs := by
  have htheta : (basis n).theta.size = 2 := size_closedAngles 2
  have hzeta : (basis n).zeta.size = n := size_closedAngles n
  rw [Cube.zipWith_ofFn, htheta, hzeta]
  refine Cube.ofFn_congr fun s i j hs _ _ ↦ ?_
  rw [hf, hg, h s hs]

/-- The mesh of the wedge. -/
theorem synthesize_doubleWedge (hn : 0 < n) :
    ∃ mesh, SurfaceMesh.synthesize doubleWedge 2 n = .ok mesh ∧
    mesh.r = coordinate n #[1, 2, 1] ∧ mesh.z = coordinate n #[0, 0, 1] ∧
    ∀ c ∈ [mesh.br, mesh.bz, mesh.bphi], ∀ k, (c.slice k).size = 6 := by
  have htheta : (closedAngles 2 : Array Float).size = 2 := size_closedAngles 2
  have hzeta : (closedAngles n : Array Float).size = n := size_closedAngles n
  have hbasis : HarmonicBasis.onClosedAngles #[0] #[0] 2 n = .ok (basis n) := by
    unfold HarmonicBasis.onClosedAngles HarmonicBasis.ofModes
    refine guard_eq_ok_iff.mpr ⟨by decide, guard_eq_ok_iff.mpr ⟨?_, rfl⟩⟩
    simp [Array.isEmpty, htheta, hzeta, hn.ne']
  unfold SurfaceMesh.synthesize
  refine ⟨_, bind_eq_ok_iff.mpr ⟨_, hbasis, bind_eq_ok_iff.mpr ⟨_, rfl, bind_eq_ok_iff.mpr ⟨_, rfl,
    bind_eq_ok_iff.mpr ⟨_, rfl, bind_eq_ok_iff.mpr ⟨_, rfl, bind_eq_ok_iff.mpr ⟨_, rfl,
    bind_eq_ok_iff.mpr ⟨_, rfl, bind_eq_ok_iff.mpr ⟨_, rfl, rfl⟩⟩⟩⟩⟩⟩⟩⟩, ?_, ?_, ?_⟩
  · refine add_eq_coordinate (fun c t v ↦ (series_const n c t v).1)
      (fun c t v ↦ (series_const n c t v).2) fun s hs ↦ ?_
    interval_cases s <;> decide +kernel
  · refine add_eq_coordinate (fun c t v ↦ (series_const n c t v).2)
      (fun c t v ↦ (series_const n c t v).1) fun s hs ↦ ?_
    interval_cases s <;> decide +kernel
  · intro c hc k
    have hsize : ∀ c : Cube Float, c.n = 3 ∧ c.m = (closedAngles 2 : Array Float).size →
        (c.slice k).size = 6 := by
      rintro c ⟨hrows, hcols⟩
      unfold Cube.slice
      rw [Array.size_ofFn, hrows, hcols, htheta]
    simp only [List.mem_cons, List.not_mem_nil, or_false] at hc
    rcases hc with rfl | rfl | rfl <;> exact hsize _ ⟨rfl, rfl⟩

/-- The range of a coordinate is that of the surfaces. -/
theorem range?_coordinate (hn : 0 < n) (xs : Array Float) :
    Scalar.range? (coordinate n xs).data.toList = Scalar.range? [nth xs 0, nth xs 1, nth xs 2] := by
  unfold coordinate
  rw [Cube.toList_ofFn_first, Scalar.range?_flatMap_replicate _ (Nat.mul_pos two_pos hn)]
  rfl

/-- Every slice of the wedge can be resampled at the corners of a square. -/
theorem resample_doubleWedge {mesh : SurfaceMesh Float} (hr : mesh.r = coordinate n #[1, 2, 1])
    (hz : mesh.z = coordinate n #[0, 0, 1])
    (hsizes : ∀ c ∈ [mesh.br, mesh.bz, mesh.bphi], ∀ k, (c.slice k).size = 6) {k : ℕ}
    (hk : k < n) : ∃ slice, resample mesh #[1, 2] #[0, 1] k = .ok slice := by
  have hslice : ∀ xs, (coordinate n xs).slice k =
      #[nth xs 0, nth xs 0, nth xs 1, nth xs 1, nth xs 2, nth xs 2] :=
    fun xs ↦ (Cube.slice_ofFn _ hk).trans rfl
  have hpoints : (mesh.r.slice k).zipWith (fun r z ↦ (⟨r, z⟩ : Point Float)) (mesh.z.slice k) =
      #[⟨1, 0⟩, ⟨1, 0⟩, ⟨2, 0⟩, ⟨2, 0⟩, ⟨1, 1⟩, ⟨1, 1⟩] := by
    rw [hr, hz, hslice, hslice]
    simp [nth]
  obtain ⟨s, hs⟩ : ∃ s, Scattered.ofPoints
      #[(⟨1, 0⟩ : Point Float), ⟨1, 0⟩, ⟨2, 0⟩, ⟨2, 0⟩, ⟨1, 1⟩, ⟨1, 1⟩] = .ok s :=
    Outcome.exists_of_isOk (by decide +kernel)
  have happly : ∀ c ∈ [mesh.br, mesh.bz, mesh.bphi], ∀ stencils outside, ∃ values,
      s.apply stencils (c.slice k) outside = .ok values := by
    intro c hc stencils outside
    have hsize : (c.slice k).size = s.inputs :=
      (hsizes c hc k).trans (Scattered.inputs_of_ofPoints hs).symm
    exact ⟨_, if_neg (by simp [hsize])⟩
  simp only [List.forall_mem_cons, List.not_mem_nil, false_imp_iff, implies_true, and_true]
    at happly
  obtain ⟨hbr, hbz, hbphi⟩ := happly
  unfold resample
  rw [hpoints]
  obtain ⟨_, hbr⟩ := hbr _ _
  obtain ⟨_, hbz⟩ := hbz _ _
  obtain ⟨_, hbphi⟩ := hbphi _ _
  exact ⟨_, bind_eq_ok_iff.mpr ⟨_, hs, bind_eq_ok_iff.mpr ⟨_, hbr, bind_eq_ok_iff.mpr ⟨_, hbz,
    bind_eq_ok_iff.mpr ⟨_, hbphi, rfl⟩⟩⟩⟩⟩

/-- Samples at the corners of the square are interpolated if their angles are an axis. -/
theorem ofSamples_doubleWedge {slices : List (Array Float)} (hlength : slices.length = n)
    (hangles : Multilinear.checkAxis 2 (closedAngles n : Array Float) n = .ok ())
    (outside : Float) :
    Multilinear.ofSamples [#[1, 2], #[0, 1], closedAngles n] (stack 2 2 slices) outside =
      .ok ⟨[#[1, 2], #[0, 1], closedAngles n], stack 2 2 slices, outside⟩ := by
  have hshape : (stack 2 2 slices).shape = [2, 2, n] := by
    simp [stack, Cube.toShaped, Cube.ofFn, hlength]
  have hplane : ∀ k x y, (Multilinear.checkAxis k (#[x, y] : Array Float) 2).isOk = true →
      Multilinear.checkAxis k (#[x, y] : Array Float) 2 = .ok () := by
    intro k x y hok
    obtain ⟨⟨⟩, h⟩ := Outcome.exists_of_isOk hok
    exact h
  refine Multilinear.ofSamples_eq_ok (List.cons_ne_nil _ _) (by simp [Multilinear.maxAxes]) ?_ ?_
    outside
  · rw [hshape]
    rfl
  · rw [hshape]
    refine bind_eq_ok_iff.mpr ⟨(), hplane _ _ _ (by decide +kernel), ?_⟩
    refine bind_eq_ok_iff.mpr ⟨(), hplane _ _ _ (by decide +kernel), ?_⟩
    exact bind_eq_ok_iff.mpr ⟨(), hangles, rfl⟩

end Mesh

/-- Two angles are an axis, and so are 76. -/
theorem checkAxis_closedAngles {n : ℕ} (hn : n ∈ [2, 76]) :
    Multilinear.checkAxis 2 (closedAngles n : Array Float) n = .ok () := by
  have hok : ∀ n ∈ [2, 76],
      (Multilinear.checkAxis 2 (closedAngles n : Array Float) n).isOk = true := by
    decide +kernel
  obtain ⟨⟨⟩, h⟩ := Outcome.exists_of_isOk (hok n hn)
  exact h

/-- The wedge can be resampled at angles that are an axis. -/
theorem ofInput_doubleWedge {n : UInt64} (hn : 2 ≤ n)
    (hangles : Multilinear.checkAxis 2 (closedAngles n.toNat : Array Float) n.toNat = .ok ()) :
    ∃ e, ofInput doubleWedge (wedgeGridAt n) = .ok e ∧ e.axis 0 = #[1, 2] ∧
      e.axis 1 = #[0, 1] := by
  have htwo : 2 ≤ n.toNat := UInt64.le_iff_toNat_le.mp hn
  have hpos : 0 < n.toNat := by omega
  have hn₀ : 0 < n := UInt64.lt_iff_toNat_lt.mpr hpos
  have hone : n ≠ 1 := by
    rintro rfl
    exact absurd htwo (by decide)
  obtain ⟨mesh, hmesh, hr, hz, hsizes⟩ := synthesize_doubleWedge hpos
  obtain ⟨slices, hlength, hslices⟩ := Outcome.exists_mapM fun k hk ↦
    resample_doubleWedge hr hz hsizes (List.mem_range.mp hk)
  rw [List.length_range] at hlength
  have hrRange : Scalar.range? mesh.r.data.toList = some (1, 2) := by
    rw [hr, range?_coordinate hpos]
    decide +kernel
  have hzRange : Scalar.range? mesh.z.data.toList = some (0, 1) := by
    rw [hz, range?_coordinate hpos]
    decide +kernel
  have hradii : (Scalar.linspace 1 2 (wedgeGridAt n).nr.toNat : Array Float) = #[1, 2] := by
    show Scalar.linspace 1 2 2 = _
    decide +kernel
  have hheights : (Scalar.linspace 0 1 (wedgeGridAt n).nz.toNat : Array Float) = #[0, 1] := by
    show Scalar.linspace 0 1 2 = _
    decide +kernel
  have hsamples := fun component : Slice Float → Array Float ↦
    ofSamples_doubleWedge ((List.length_map component).trans hlength) hangles
  let component (f : Slice Float → Array Float) (outside : Float) : Multilinear Float :=
    ⟨[#[1, 2], #[0, 1], closedAngles n.toNat], stack 2 2 (slices.map f), outside⟩
  refine ⟨⟨component Slice.br outsidePoloidal, component Slice.bz outsidePoloidal,
    component Slice.bphi outsideToroidal, none⟩, ?_, rfl, rfl⟩
  unfold ofInput
  refine bind_eq_ok_iff.mpr ⟨(), validate_wedgeGridAt hn₀,
    bind_eq_ok_iff.mpr ⟨_, resolution_wedgeGridAt _ hn₀, bind_eq_ok_iff.mpr ⟨mesh, hmesh, ?_⟩⟩⟩
  rw [hrRange, hzRange]
  refine guard_eq_ok_iff.mpr ⟨by decide +kernel, bind_eq_ok_iff.mpr ⟨slices, ?_, ?_⟩⟩
  · exact (congrArg₂ (fun r z ↦ (List.range n.toNat).mapM (resample mesh r z))
      hradii hheights).trans hslices
  · rw [if_neg hone, SurfaceMesh.zeta_of_synthesize hmesh]
    dsimp only
    rw [hradii, hheights]
    exact bind_eq_ok_iff.mpr ⟨_, hsamples _ _, bind_eq_ok_iff.mpr ⟨_, hsamples _ _,
      bind_eq_ok_iff.mpr ⟨_, hsamples _ _, rfl⟩⟩⟩

end Binary64.AtZero

namespace RegriddedField

open Binary64
open Binary64.AtZero (checkAxis_closedAngles ofInput_doubleWedge doubleWedge)
open scoped Binary64 Binary64.AtZero

/-- The wedge has a toroidal range with two angles, which covers all finite angles, and with 76. -/
theorem toroidalRange_wedge :
    (∃ e, ofInput doubleWedge (wedgeGridAt 2) = .ok e ∧ e.ToroidalRange ∧ fullTurn ≤ e.lastAngle) ∧
      ∃ e, ofInput doubleWedge (wedgeGridAt 76) = .ok e ∧ e.ToroidalRange := by
  obtain ⟨e, he, -⟩ :=
    ofInput_doubleWedge (n := 2) (by decide) (checkAxis_closedAngles (by decide))
  obtain ⟨e', he', -⟩ :=
    ofInput_doubleWedge (n := 76) (by decide) (checkAxis_closedAngles (by decide))
  have hrange := toroidalRange_of_ofInput he (resolution_wedgeGridAt _ (by decide)) (by decide)
  have hrange' := toroidalRange_of_ofInput he' (resolution_wedgeGridAt _ (by decide)) (by decide)
  exact ⟨⟨e, he, hrange.1, hrange.2 (by decide)⟩, e', he', hrange'.1⟩

/-- With 76 angles the axis of the wedge ends below the angle that a small negative one is wrapped
to. In the plane of the grid, where there are samples at the angle zero, every component has the
value outside the mesh at that angle. -/
theorem wedge_gap : ∃ e, ofInput doubleWedge (wedgeGridAt 76) = .ok e ∧ e.InPlane 1 0 ∧
    (-1e-300 : Float).isFinite = true ∧ e.lastAngle < Scalar.wrap fullTurn (-1e-300) ∧
    ∀ c : Component, (c.interpolant e).Holds [1, 0, Scalar.wrap fullTurn 0] ∧
      c.value (.spectral e) ⟨1, 0, -1e-300⟩ = c.outside := by
  obtain ⟨e, he, hr, hz⟩ :=
    ofInput_doubleWedge (n := 76) (by decide) (checkAxis_closedAngles (by decide))
  have hangles : e.HasAngles 76 :=
    hasAngles_of_ofInput he (resolution_wedgeGridAt _ (by decide)) (by decide)
  have htwo : 2 ≤ 76 := by decide
  have hplane : e.InPlane 1 0 := by
    unfold InPlane
    rw [hr, hz]
    decide +kernel
  obtain ⟨hfinite, hreach⟩ := turn_le_wrap
  have hfinite₀ : (0 : Float).isFinite = true := by decide +kernel
  have hwrap : Scalar.wrap fullTurn 0 ≤ e.lastAngle := by
    rw [hangles.last]
    decide +kernel
  have hgap : e.lastAngle < Scalar.wrap fullTurn (-1e-300) := by
    have hlast : (angle 76 75).isFinite = true := hangles.finite 75 (by decide)
    have hwrapped := (wrap_fullTurn_mem hfinite).1
    rw [hangles.last, Binary64.lt_iff hlast hwrapped]
    exact ((Binary64.lt_iff hlast turn_pos.1).mp angle_lt_turn).trans_le
      ((Binary64.le_iff turn_pos.1 hwrapped).mp hreach)
  exact ⟨e, he, hplane, hfinite, hgap, fun c ↦
    ⟨(hangles.holds_iff htwo c hplane hfinite₀).mpr hwrap,
      hangles.value_eq_outside htwo c hplane hfinite hgap⟩⟩

end RegriddedField

end PlasmaField
