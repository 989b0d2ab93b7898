import Mathlib
import PlasmaField.Equilibrium.Regridded
import PlasmaField.Proofs.Elementary
import PlasmaField.Proofs.Multilinear
import PlasmaField.Proofs.Scattered.Location

/-!
# The construction of a resampled equilibrium

An equilibrium is resampled when every step succeeds: its parameters and angular resolution are
usable, its series can be summed, its mesh has an extent, and each toroidal slice can be
interpolated, `ofInput_eq_ok_iff`. Every component then has the samples of the slices on one grid.
-/

namespace PlasmaField.RegriddedField

open Outcome (bind_eq_ok_iff guard_eq_ok_iff)
open scoped Exact Elementary

/-- The interpolants of the three components of slices on one grid, and what is kept of the mesh. -/
noncomputable def interpolants (nr nz : ℕ) (axes : List (Array ℝ)) (slices : List (Slice ℝ))
    (kept : Option (SurfaceMesh ℝ)) : RegriddedField ℝ where
  br := ⟨axes, stack nr nz (slices.map Slice.br), outsidePoloidal⟩
  bz := ⟨axes, stack nr nz (slices.map Slice.bz), outsidePoloidal⟩
  bphi := ⟨axes, stack nr nz (slices.map Slice.bphi), outsideToroidal⟩
  mesh := kept

/-- The interpolants are built when every axis is usable. -/
theorem interpolants_eq_ok_iff {nr nz : ℕ} {axes : List (Array ℝ)} {slices : List (Slice ℝ)}
    {kept : Option (SurfaceMesh ℝ)} {e : RegriddedField ℝ} :
    (do
      let br ← Multilinear.ofSamples axes (stack nr nz (slices.map Slice.br)) outsidePoloidal
      let bz ← Multilinear.ofSamples axes (stack nr nz (slices.map Slice.bz)) outsidePoloidal
      let bphi ← Multilinear.ofSamples axes (stack nr nz (slices.map Slice.bphi)) outsideToroidal
      return (⟨br, bz, bphi, kept⟩ : RegriddedField ℝ)) = .ok e ↔
    List.Forall₂ Multilinear.Usable axes [nr, nz, slices.length] ∧
      e = interpolants nr nz axes slices kept := by
  have hshape : ∀ component : Slice ℝ → Array ℝ,
      (stack nr nz (slices.map component)).shape = [nr, nz, slices.length] := by
    intro component
    simp [stack, Cube.toShaped, Cube.ofFn]
  have hok : ∀ (component : Slice ℝ → Array ℝ) (outside : ℝ) (g : Multilinear ℝ),
      Multilinear.ofSamples axes (stack nr nz (slices.map component)) outside = .ok g ↔
        List.Forall₂ Multilinear.Usable axes [nr, nz, slices.length] ∧
          g = ⟨axes, stack nr nz (slices.map component), outside⟩ := by
    intro component outside g
    rw [Multilinear.ofSamples_eq_ok_iff, hshape]
    refine ⟨fun h ↦ h.2.2, fun h ↦ ⟨?_, ?_, h⟩⟩
    · rintro rfl
      cases h.1
    · exact h.1.length_eq.trans_le (by simp [Multilinear.maxAxes])
  constructor
  · intro h
    obtain ⟨br, hbr, h⟩ := bind_eq_ok_iff.mp h
    obtain ⟨bz, hbz, h⟩ := bind_eq_ok_iff.mp h
    obtain ⟨bphi, hbphi, h⟩ := bind_eq_ok_iff.mp h
    cases h
    obtain ⟨haxes, rfl⟩ := (hok _ _ _).mp hbr
    obtain ⟨-, rfl⟩ := (hok _ _ _).mp hbz
    obtain ⟨-, rfl⟩ := (hok _ _ _).mp hbphi
    exact ⟨haxes, rfl⟩
  · rintro ⟨haxes, rfl⟩
    refine bind_eq_ok_iff.mpr ⟨_, (hok _ _ _).mpr ⟨haxes, rfl⟩, ?_⟩
    refine bind_eq_ok_iff.mpr ⟨_, (hok _ _ _).mpr ⟨haxes, rfl⟩, ?_⟩
    exact bind_eq_ok_iff.mpr ⟨_, (hok _ _ _).mpr ⟨haxes, rfl⟩, rfl⟩

/-- The intermediate results of resampling an equilibrium: the numbers of angles, the mesh, the ends
of its coordinates, and the slices of the mesh on the regular grid. -/
structure Resampling where
  nTheta : UInt64
  nZeta : UInt64
  mesh : SurfaceMesh ℝ
  rRange : ℝ × ℝ
  zRange : ℝ × ℝ
  slices : List (Slice ℝ)

namespace Resampling

variable (s : Resampling) (p : RegridParameters)

/-- The radii of the regular grid. -/
noncomputable def radii : Array ℝ :=
  Scalar.linspace s.rRange.1 s.rRange.2 p.nr.toNat

/-- The heights of the regular grid. -/
noncomputable def heights : Array ℝ :=
  Scalar.linspace s.zRange.1 s.zRange.2 p.nz.toNat

/-- There are as many radii as the parameters ask for. -/
@[simp]
theorem size_radii : (s.radii p).size = p.nr.toNat :=
  Array.size_ofFn

/-- There are as many heights as the parameters ask for. -/
@[simp]
theorem size_heights : (s.heights p).size = p.nz.toNat :=
  Array.size_ofFn

/-- The angles of the regular grid, with the slices at these angles. A single slice is used at both
ends of the turn. -/
noncomputable def slicesAtAngles : Array ℝ × List (Slice ℝ) :=
  if s.nZeta = 1 then (#[0, fullTurn], s.slices ++ s.slices) else (s.mesh.zeta, s.slices)

/-- The axes of the regular grid. -/
noncomputable def axes : List (Array ℝ) :=
  [s.radii p, s.heights p, s.slicesAtAngles.1]

/-- The resampled equilibrium. -/
noncomputable def field : RegriddedField ℝ :=
  interpolants p.nr.toNat p.nz.toNat (s.axes p) s.slicesAtAngles.2
    (if p.retainMesh then some s.mesh else none)

/-- The intermediate results are those for the given data and parameters. -/
structure Valid (input : SpectralInput ℝ) : Prop where
  parameters : (p.validate : Except (FieldError ℝ) Unit) = .ok ()
  resolution : input.resolution p = .ok (s.nTheta, s.nZeta)
  mesh : SurfaceMesh.synthesize input s.nTheta.toNat s.nZeta.toNat = .ok s.mesh
  rRange : Scalar.range? s.mesh.r.data.toList = some s.rRange
  zRange : Scalar.range? s.mesh.z.data.toList = some s.zRange
  rExtent : s.rRange.1 < s.rRange.2
  zExtent : s.zRange.1 < s.zRange.2
  slices : (List.range s.nZeta.toNat).mapM (resample s.mesh (s.radii p) (s.heights p)) =
    .ok s.slices
  usable : List.Forall₂ Multilinear.Usable (s.axes p)
    [p.nr.toNat, p.nz.toNat, s.slicesAtAngles.2.length]

end Resampling

/-- A range that is not a single point. -/
theorem hasExtent_iff {range : Option (ℝ × ℝ)} :
    hasExtent range = true ↔ ∃ ends, range = some ends ∧ ends.1 < ends.2 := by
  cases range with
  | none => simp [hasExtent]
  | some ends => simp [hasExtent]

/-- An equilibrium is resampled when all intermediate results are found. -/
theorem ofInput_eq_ok_iff {input : SpectralInput ℝ} {p : RegridParameters} {e : RegriddedField ℝ} :
    ofInput input p = .ok e ↔ ∃ s : Resampling, s.Valid p input ∧ e = s.field p := by
  unfold ofInput
  simp only [Exact.literal_zero]
  constructor
  · intro h
    obtain ⟨_, hparameters, h⟩ := bind_eq_ok_iff.mp h
    obtain ⟨⟨nTheta, nZeta⟩, hresolution, h⟩ := bind_eq_ok_iff.mp h
    obtain ⟨mesh, hmesh, h⟩ := bind_eq_ok_iff.mp h
    obtain ⟨hextent, h⟩ := guard_eq_ok_iff.mp h
    simp only [Bool.or_eq_true, Bool.not_eq_true', not_or, Bool.not_eq_false] at hextent
    obtain ⟨rRange, hr, hrlt⟩ := hasExtent_iff.mp hextent.1
    obtain ⟨zRange, hz, hzlt⟩ := hasExtent_iff.mp hextent.2
    rw [hr, hz] at h
    obtain ⟨slices, hslices, h⟩ := bind_eq_ok_iff.mp h
    let s : Resampling := ⟨nTheta, nZeta, mesh, rRange, zRange, slices⟩
    obtain ⟨husable, he⟩ := interpolants_eq_ok_iff.mp h
    exact ⟨s, ⟨hparameters, hresolution, hmesh, hr, hz, hrlt, hzlt, hslices, husable⟩, he⟩
  · rintro ⟨s, ⟨hparameters, hresolution, hmesh, hr, hz, hrlt, hzlt, hslices, husable⟩, he⟩
    refine bind_eq_ok_iff.mpr ⟨(), hparameters, ?_⟩
    refine bind_eq_ok_iff.mpr ⟨(s.nTheta, s.nZeta), hresolution, ?_⟩
    refine bind_eq_ok_iff.mpr ⟨s.mesh, hmesh, guard_eq_ok_iff.mpr ⟨?_, ?_⟩⟩
    · rw [hr, hz]
      simp [hasExtent, hrlt, hzlt]
    · rw [hr, hz]
      refine bind_eq_ok_iff.mpr ⟨s.slices, hslices, ?_⟩
      exact interpolants_eq_ok_iff.mpr ⟨husable, he⟩

/-! ## Slices -/

/-- The points of a toroidal slice of a mesh. -/
noncomputable def pointsOf (mesh : SurfaceMesh ℝ) (k : ℕ) : Array (Point ℝ) :=
  (mesh.r.slice k).zipWith (fun r z ↦ ⟨r, z⟩) (mesh.z.slice k)

/-- The nodes of a rectangular grid, by column. -/
def nodesOf (r z : Array ℝ) : List (Point ℝ) :=
  r.toList.flatMap fun x ↦ z.toList.map fun y ↦ ⟨x, y⟩

/-- There is a node for every column and row. -/
theorem length_nodesOf (r z : Array ℝ) : (nodesOf r z).length = r.size * z.size := by
  simp [nodesOf, List.length_flatMap, List.map_const']

/-- The values that an interpolant makes of samples at a grid's nodes. -/
noncomputable def valuesAt (s : Scattered ℝ) (r z values : Array ℝ) (outside : ℝ) : Array ℝ :=
  ((nodesOf r z).map fun q ↦ (s.locate q.x q.y).elim outside (·.combine values)).toArray

/-- There is a value for every node. -/
theorem size_valuesAt (s : Scattered ℝ) (r z values : Array ℝ) (outside : ℝ) :
    (valuesAt s r z values outside).size = r.size * z.size := by
  unfold valuesAt
  rw [List.size_toArray, List.length_map, length_nodesOf]

/-- A slice is resampled when its points can be interpolated and every component has one sample for
each of them. -/
theorem resample_eq_ok_iff {mesh : SurfaceMesh ℝ} {r z : Array ℝ} {k : ℕ} {slice : Slice ℝ} :
    resample mesh r z k = .ok slice ↔ ∃ s, Scattered.ofPoints (pointsOf mesh k) = .ok s ∧
      (∀ c ∈ [mesh.br, mesh.bz, mesh.bphi], (c.slice k).size = s.inputs) ∧
      slice = ⟨valuesAt s r z (mesh.br.slice k) outsidePoloidal,
        valuesAt s r z (mesh.bz.slice k) outsidePoloidal,
        valuesAt s r z (mesh.bphi.slice k) outsideToroidal⟩ := by
  unfold resample
  constructor
  · intro h
    obtain ⟨s, hs, h⟩ := bind_eq_ok_iff.mp h
    obtain ⟨br, hbr, h⟩ := bind_eq_ok_iff.mp h
    obtain ⟨bz, hbz, h⟩ := bind_eq_ok_iff.mp h
    obtain ⟨bphi, hbphi, h⟩ := bind_eq_ok_iff.mp h
    cases h
    obtain ⟨hbr_size, rfl⟩ := Scattered.apply_eq_ok_iff.mp hbr
    obtain ⟨hbz_size, rfl⟩ := Scattered.apply_eq_ok_iff.mp hbz
    obtain ⟨hbphi_size, rfl⟩ := Scattered.apply_eq_ok_iff.mp hbphi
    refine ⟨s, hs, ?_, rfl⟩
    simp only [List.forall_mem_cons, List.not_mem_nil, false_imp_iff, implies_true, and_true]
    exact ⟨hbr_size, hbz_size, hbphi_size⟩
  · rintro ⟨s, hs, hsizes, rfl⟩
    simp only [List.forall_mem_cons, List.not_mem_nil, false_imp_iff, implies_true, and_true]
      at hsizes
    obtain ⟨hbr, hbz, hbphi⟩ := hsizes
    refine bind_eq_ok_iff.mpr ⟨s, hs, ?_⟩
    refine bind_eq_ok_iff.mpr ⟨_, Scattered.apply_eq_ok_iff.mpr ⟨hbr, rfl⟩, ?_⟩
    refine bind_eq_ok_iff.mpr ⟨_, Scattered.apply_eq_ok_iff.mpr ⟨hbz, rfl⟩, ?_⟩
    exact bind_eq_ok_iff.mpr ⟨_, Scattered.apply_eq_ok_iff.mpr ⟨hbphi, rfl⟩, rfl⟩

/-- The sample at a node of the regular grid is that of the angle's slice. -/
theorem stack_data (nr nz : ℕ) (slices : List (Array ℝ)) : (stack nr nz slices).data =
    (Cube.ofFn nr nz slices.length fun i j k ↦
      Scalar.nth (slices.toArray.getD k #[]) (i * nz + j)).data :=
  rfl

/-- The samples on the regular grid are those of the slices. -/
theorem exists_of_mem_stack {nr nz : ℕ} {slices : List (Array ℝ)}
    (hsize : ∀ xs ∈ slices, xs.size = nr * nz) {v : ℝ} (hv : v ∈ (stack nr nz slices).data) :
    ∃ xs ∈ slices, v ∈ xs := by
  rw [stack_data] at hv
  obtain ⟨i, j, k, hi, hj, hk, rfl⟩ := Cube.exists_of_mem_ofFn hv
  have hslice : slices.toArray.getD k #[] ∈ slices := by
    rw [Array.getD_eq_getD_getElem?, Array.getElem?_eq_getElem hk, Option.getD_some]
    exact List.getElem_mem hk
  have hnode : i * nz + j < (slices.toArray.getD k #[]).size := by
    rw [hsize _ hslice]
    exact Table.place_lt hi hj
  refine ⟨_, hslice, ?_⟩
  rw [Exact.nth_eq_getElem _ hnode]
  exact Array.getElem_mem hnode

end PlasmaField.RegriddedField
