import Mathlib
import PlasmaField.Field
import PlasmaField.Proofs.Equilibrium.ToroidalBound
import PlasmaField.Proofs.Multilinear.Nested

/-!
# A resampled equilibrium at the nodes of its grid

The samples of a slice travel through a list by column, a stack of all slices and the corners of a
cell. At a node of the regular grid and an angle of the mesh below a full turn a component is what
the interpolant over the points of that slice gives at the node, `value_node`: nothing on the way
exchanges two axes or two components.
-/

namespace PlasmaField

open Scalar (nth)
open ShapedArray (volume offset)
open scoped Exact Elementary

/-- The three components of a field. -/
inductive Component
  | radial
  | vertical
  | toroidal

namespace Component

variable {α : Type}

/-- The component of a field at a place. -/
def value [ElementaryScalar α] : Component → MagneticField α → Position α → α
  | radial => MagneticField.radial
  | vertical => MagneticField.vertical
  | toroidal => MagneticField.toroidal

/-- The component on a mesh. -/
def onMesh (mesh : SurfaceMesh α) : Component → Cube α
  | radial => mesh.br
  | vertical => mesh.bz
  | toroidal => mesh.bphi

/-- The component on a slice of the regular grid. -/
def onSlice : Component → RegriddedField.Slice α → Array α
  | radial => RegriddedField.Slice.br
  | vertical => RegriddedField.Slice.bz
  | toroidal => RegriddedField.Slice.bphi

/-- The interpolant of the component of a resampled equilibrium. -/
def interpolant (e : RegriddedField α) : Component → Multilinear α
  | radial => e.br
  | vertical => e.bz
  | toroidal => e.bphi

/-- The value of the component outside the mesh. -/
def outside [ElementaryScalar α] : Component → α
  | radial => RegriddedField.outsidePoloidal
  | vertical => RegriddedField.outsidePoloidal
  | toroidal => RegriddedField.outsideToroidal

/-- A component of a resampled equilibrium is looked up. -/
theorem value_spectral [ElementaryScalar α] (c : Component) (e : RegriddedField α)
    (x z phi : α) :
    c.value (.spectral e) ⟨x, z, phi⟩ = RegriddedField.lookup (c.interpolant e) x z phi := by
  cases c <;> rfl

end Component

namespace RegriddedField

/-! ## The samples of a slice -/

/-- A list that is put together from blocks of one length, read by block and place. -/
theorem getElem?_flatMap_block {β γ : Type} {xs : List β} {block : β → List γ} {m : ℕ}
    (hblock : ∀ x ∈ xs, (block x).length = m) {i j : ℕ} (hi : i < xs.length) (hj : j < m) :
    (xs.flatMap block)[i * m + j]? = (block xs[i])[j]? := by
  induction xs generalizing i with
  | nil => cases hi
  | cons x xs ih =>
      have hx := hblock x List.mem_cons_self
      rw [List.flatMap_cons]
      cases i with
      | zero =>
          rw [Nat.zero_mul, Nat.zero_add, List.getElem?_append_left (hx ▸ hj)]
          rfl
      | succ i =>
          have hskip : (i + 1) * m + j = m + (i * m + j) := by ring
          rw [hskip, ← hx, List.getElem?_append_right (Nat.le_add_right _ _),
            Nat.add_sub_cancel_left, hx,
            ih (fun y hy ↦ hblock y (List.mem_cons_of_mem x hy)) (Nat.lt_of_succ_lt_succ hi)]
          rfl

/-- The nodes run along the heights first. -/
theorem getElem?_nodesOf (r z : Array ℝ) {i j : ℕ} (hi : i < r.size) (hj : j < z.size) :
    (nodesOf r z)[i * z.size + j]? = some ⟨nth r i, nth z j⟩ := by
  unfold nodesOf
  rw [getElem?_flatMap_block (m := z.size) (by simp) (by simpa using hi) hj]
  simp [Exact.nth_eq_getElem, hi, hj]

/-- The value that an interpolant makes of samples at one node. -/
theorem nth_valuesAt (s : Scattered ℝ) {r z : Array ℝ} (values : Array ℝ) (outside : ℝ) {i j : ℕ}
    (hi : i < r.size) (hj : j < z.size) : nth (valuesAt s r z values outside) (i * z.size + j) =
      (s.locate (nth r i) (nth z j)).elim outside (·.combine values) := by
  have hnode := getElem?_nodesOf r z hi hj
  unfold valuesAt
  rw [Exact.nth_eq_getD, Array.getD_eq_getD_getElem?, List.getElem?_toArray, List.getElem?_map,
    hnode]
  rfl

section Stack

variable {nr nz : ℕ} (slices : List (Array ℝ)) {i j k : ℕ} (hi : i < nr) (hj : j < nz)
  (hk : k < slices.length)
include hi hj hk

/-- The sample of a stack at the place of an index is that of the slice with the last index. -/
theorem getElem?_stack : (stack nr nz slices).data[offset (stack nr nz slices).shape [i, j, k]]? =
    some (nth (slices.getD k #[]) (i * nz + j)) := by
  have hplace : offset (stack nr nz slices).shape [i, j, k] =
      (i * nz + j) * slices.length + k := by
    show i * (nz * (slices.length * 1)) + (j * (slices.length * 1) + (k * 1 + 0)) = _
    ring
  have helement := Cube.getElem?_ofFn
    (fun i j k ↦ nth (slices.toArray.getD k #[]) (i * nz + j)) hi hj hk
  rw [hplace, stack_data, helement]
  simp

/-- Reading a stack at the place of an index. -/
theorem nth_stack : nth (stack nr nz slices).data
    (offset (stack nr nz slices).shape [i, j, k]) = nth (slices.getD k #[]) (i * nz + j) := by
  rw [Exact.nth_eq_getD, Array.getD_eq_getD_getElem?, getElem?_stack slices hi hj hk,
    Option.getD_some]

/-- The sample of a stack at an index. -/
theorem get?_stack : (stack nr nz slices).get? [i, j, k] =
    some (nth (slices.getD k #[]) (i * nz + j)) := by
  have hindex : ([i, j, k].length = (stack nr nz slices).shape.length &&
      ([i, j, k].zip (stack nr nz slices).shape).all fun p ↦ p.1 < p.2) = true := by
    simp [stack, Cube.toShaped, Cube.ofFn, hi, hj, hk]
  unfold ShapedArray.get?
  rw [if_pos hindex, getElem?_stack slices hi hj hk]

end Stack

/-! ## The angles of the slices -/

section Resampled

variable {input : SpectralInput ℝ} {p : RegridParameters} {s : Resampling} (hs : s.Valid p input)

/-- A component of the resampled equilibrium holds the samples of all slices on the grid. -/
theorem interpolant_field (s : Resampling) (p : RegridParameters) (c : Component) :
    c.interpolant (s.field p) =
      ⟨s.axes p, stack p.nr.toNat p.nz.toNat (s.slicesAtAngles.2.map c.onSlice), c.outside⟩ := by
  cases c <;> rfl

include hs

/-- The grid of every component fits its samples. -/
theorem usable_interpolant (c : Component) : List.Forall₂ Multilinear.Usable
    (c.interpolant (s.field p)).axes (c.interpolant (s.field p)).samples.shape := by
  have hshape : (stack p.nr.toNat p.nz.toNat (s.slicesAtAngles.2.map c.onSlice)).shape =
      [p.nr.toNat, p.nz.toNat, s.slicesAtAngles.2.length] := by
    simp [stack, Cube.toShaped, Cube.ofFn]
  rw [interpolant_field, hshape]
  exact hs.usable

/-- There is a slice for every angle of the mesh. -/
theorem length_slices : s.slices.length = s.nZeta.toNat := by
  simpa using (Outcome.forall₂_of_mapM hs.slices).length_eq.symm

/-- The slice of an angle is resampled from the mesh. -/
theorem exists_slice {k : ℕ} (hk : k < s.nZeta.toNat) : ∃ slice, s.slices[k]? = some slice ∧
    resample s.mesh (s.radii p) (s.heights p) k = .ok slice := by
  have hlt : k < s.slices.length := hk.trans_eq (length_slices hs).symm
  have hget := Outcome.getD_of_mapM_range hs.slices ⟨#[], #[], #[]⟩ hk
  exact ⟨s.slices[k], List.getElem?_eq_getElem hlt, by simpa [hlt] using hget⟩

/-- At an angle of the mesh below a full turn the grid has the slice of that angle. -/
theorem exists_slice_at_angle {k : ℕ} (hk : k < s.nZeta.toNat)
    (hturn : nth s.mesh.zeta k < fullTurn) : ∃ slice,
      s.slicesAtAngles.2[k]? = some slice ∧ nth s.slicesAtAngles.1 k = nth s.mesh.zeta k ∧
      resample s.mesh (s.radii p) (s.heights p) k = .ok slice := by
  obtain ⟨slice, hslice, hresample⟩ := exists_slice hs hk
  refine ⟨slice, ?_, ?_, hresample⟩
  · unfold Resampling.slicesAtAngles
    split
    · exact (List.getElem?_append_left (hk.trans_eq (length_slices hs).symm)).trans hslice
    · exact hslice
  · unfold Resampling.slicesAtAngles
    split
    next hone =>
      -- the only angle is zero, with which the two ends of the turn start
      rw [hone] at hk
      obtain rfl : k = 0 := Nat.lt_one_iff.mp hk
      have hpos : 0 < s.nZeta.toNat := hone ▸ one_pos
      rw [SurfaceMesh.zeta_of_synthesize hs.mesh, nth_closedAngles_zero hpos]
      simp [Exact.nth_eq_getD]
    next => rfl

/-- A component of the resampled equilibrium at a node and an angle of the mesh is the sample of
the slice at this angle. -/
theorem lookup_node (c : Component) {i j k : ℕ} (hi : i < p.nr.toNat) (hj : j < p.nz.toNat)
    {slice : Slice ℝ} (hslice : s.slicesAtAngles.2[k]? = some slice)
    (hangle : 0 ≤ nth s.slicesAtAngles.1 k) (hturn : nth s.slicesAtAngles.1 k < fullTurn) :
    lookup (c.interpolant (s.field p)) (nth (s.radii p) i) (nth (s.heights p) j)
      (nth s.slicesAtAngles.1 k) = nth (c.onSlice slice) (i * p.nz.toNat + j) := by
  have hk : k < s.slicesAtAngles.2.length := (List.getElem?_eq_some_iff.mp hslice).1
  have hindex : List.Forall₂ (· < ·) [i, j, k]
      (c.interpolant (s.field p)).samples.shape := by
    rw [interpolant_field]
    refine .cons hi (.cons hj (.cons ?_ .nil))
    simpa [stack, Cube.toShaped, Cube.ofFn] using hk
  have hnode := Multilinear.eval_node (usable_interpolant hs c) hindex
  unfold lookup
  rw [Exact.wrap_of_mem hangle hturn]
  rw [interpolant_field] at hnode ⊢
  refine hnode.trans ((nth_stack _ hi hj (by simpa using hk)).trans ?_)
  rw [List.getD_eq_getElem?_getD, List.getElem?_map, hslice]
  rfl

end Resampled

/-- At a node of the regular grid and an angle of the mesh below a full turn, every component is
what the interpolant over the points of the angle's slice makes of the samples there. -/
theorem value_node {input : SpectralInput ℝ} {p : RegridParameters} {e : RegriddedField ℝ}
    (h : ofInput input p = .ok e) {nTheta nZeta : UInt64}
    (hresolution : input.resolution p = .ok (nTheta, nZeta)) {mesh : SurfaceMesh ℝ}
    (hmesh : SurfaceMesh.synthesize input nTheta.toNat nZeta.toNat = .ok mesh) {i j k : ℕ}
    (hi : i < (e.axis 0).size) (hj : j < (e.axis 1).size) (hk : k < nZeta.toNat)
    (hturn : nth mesh.zeta k < fullTurn) :
    ∃ scattered, Scattered.ofPoints (pointsOf mesh k) = .ok scattered ∧ ∀ c : Component,
      scattered.interpolate ((c.onMesh mesh).slice k) [⟨nth (e.axis 0) i, nth (e.axis 1) j⟩]
        c.outside = .ok [c.value (.spectral e)
          ⟨nth (e.axis 0) i, nth (e.axis 1) j, nth mesh.zeta k⟩] := by
  obtain ⟨s, hs, rfl⟩ := ofInput_eq_ok_iff.mp h
  obtain ⟨rfl, rfl⟩ : s.nTheta = nTheta ∧ s.nZeta = nZeta := by
    simpa using hs.resolution.symm.trans hresolution
  obtain rfl : s.mesh = mesh := Except.ok.inj (hs.mesh.symm.trans hmesh)
  obtain ⟨slice, hslice, hangle, hresample⟩ := exists_slice_at_angle hs hk hturn
  obtain ⟨scattered, hscattered, hsizes, rfl⟩ := resample_eq_ok_iff.mp hresample
  have hr : (s.field p).axis 0 = s.radii p := rfl
  have hz : (s.field p).axis 1 = s.heights p := rfl
  rw [hr] at hi ⊢
  rw [hz] at hj ⊢
  refine ⟨scattered, hscattered, fun c ↦ ?_⟩
  have hsize : ((c.onMesh s.mesh).slice k).size = scattered.inputs := by
    cases c <;> exact hsizes _ (by simp [Component.onMesh])
  have hangle₀ : 0 ≤ nth s.mesh.zeta k := by
    rw [SurfaceMesh.zeta_of_synthesize hs.mesh]
    exact nth_closedAngles_nonneg hk
  have hlookup := lookup_node hs c (by simpa using hi) (by simpa using hj) hslice
    (hangle ▸ hangle₀) (hangle ▸ hturn)
  have hsample : ∀ values outside,
      nth (valuesAt scattered (s.radii p) (s.heights p) values outside) (i * p.nz.toNat + j) =
        (scattered.locate (nth (s.radii p) i) (nth (s.heights p) j)).elim outside
          (·.combine values) := by
    intro values outside
    rw [← s.size_heights p]
    exact nth_valuesAt scattered values outside hi hj
  rw [Scattered.interpolate_eq_ok hsize, Component.value_spectral, ← hangle, hlookup,
    List.map_cons, List.map_nil]
  cases c <;> exact congrArg (fun v ↦ Except.ok [v]) (hsample _ _).symm

/-- The wedge on three angles, at a corner of the square that the mesh holds and half way around. -/
theorem value_node_wedge : ∃ e mesh, ofInput (wedge 3) (wedgeGridAt 3) = .ok e ∧
    SurfaceMesh.synthesize (wedge 3) 2 3 = .ok mesh ∧
    ∃ scattered, Scattered.ofPoints (pointsOf mesh 1) = .ok scattered ∧ ∀ c : Component,
      scattered.interpolate ((c.onMesh mesh).slice 1) [⟨2, 0⟩] c.outside =
        .ok [c.value (.spectral e) ⟨2, 0, Real.pi⟩] := by
  obtain ⟨s, hs, htheta, hzeta, hradii, hheights, -⟩ :=
    exists_valid_wedge 3 (show 0 < (3 : UInt64) by decide)
  have hresolution := hs.resolution
  have hmesh := hs.mesh
  rw [htheta, hzeta] at hresolution hmesh
  have hr : (s.field (wedgeGridAt 3)).axis 0 = #[1, 2] := hradii
  have hz : (s.field (wedgeGridAt 3)).axis 1 = #[0, 1] := hheights
  have hangle : nth s.mesh.zeta 1 = Real.pi := by
    rw [SurfaceMesh.zeta_of_synthesize hmesh]
    show nth (closedAngles 3 : Array ℝ) 1 = Real.pi
    rw [nth_closedAngles (by decide) (by decide)]
    norm_num
  have hturn : nth s.mesh.zeta 1 < fullTurn := by
    rw [SurfaceMesh.zeta_of_synthesize hmesh]
    exact (nth_closedAngles_lt_iff (by decide)).mpr (.inl (by decide))
  have hnode := value_node (ofInput_eq_ok_iff.mpr ⟨s, hs, rfl⟩) hresolution hmesh
    (i := 1) (j := 0) (k := 1) (by rw [hr]; decide) (by rw [hz]; decide) (by decide) hturn
  rw [hr, hz, hangle] at hnode
  refine ⟨s.field (wedgeGridAt 3), s.mesh, ofInput_eq_ok_iff.mpr ⟨s, hs, rfl⟩, hmesh, ?_⟩
  simpa [Exact.nth_eq_getD] using hnode

end RegriddedField

end PlasmaField
