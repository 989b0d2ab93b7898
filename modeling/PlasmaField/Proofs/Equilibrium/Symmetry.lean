import Mathlib
import PlasmaField.Proofs.Equilibrium.Synthesis

/-!
# Corresponding places of a mesh

Two places of the angular grid correspond when the angle of every mode has the same cosine at both,
and the same sine up to a sign. A series of cosines then takes the same value at both places, a
series of sines the value times that sign, and every sum and product of the synthesis has a sign
that follows from those of its parts, `corresponds_of_synthesize`. Without asymmetric terms and with
whole mode numbers the reflection of both angles is such a correspondence: it changes the signs of
the height and of the radial component, and nothing else, `mirrorSymmetric_of_synthesize`.
-/

namespace PlasmaField

open Outcome (bind_eq_ok_iff)
open Scalar (nth)
open scoped Exact Elementary

/-! ## Blocks -/

namespace Cube

/-- Outside the block the elements are zero. -/
theorem get_of_not_lt (c : Cube ℝ) {i : ℕ} (j k : ℕ) (h : ¬ i < c.n) : c.get i j k = 0 := by
  unfold get
  rw [if_neg (by simp [h]), Exact.literal_zero]

/-- The elements of two combined blocks. -/
theorem get_zipWith {op : ℝ → ℝ → ℝ} (a b : Cube ℝ) {i j k : ℕ} (hi : i < a.n) (hj : j < a.m)
    (hk : k < a.l) : (a.zipWith op b).get i j k = op (a.get i j k) (b.get i j k) :=
  get_ofFn _ hi hj hk

/-- On an angular grid of `m` by `l` places and on every surface, the element at the place `q` is
the one at the place `p` times `sign`. -/
structure Corresponds (c : Cube ℝ) (m l : ℕ) (sign : ℝ) (p q : ℕ × ℕ) : Prop where
  m_eq : c.m = m
  l_eq : c.l = l
  element : ∀ s, c.get s q.1 q.2 = sign * c.get s p.1 p.2

section Places

variable {m l : ℕ} {p q : ℕ × ℕ} (hp : p.1 < m ∧ p.2 < l) (hq : q.1 < m ∧ q.2 < l)
include hp hq

/-- Places of a block that is built from a function correspond when the function's values do. -/
theorem corresponds_ofFn {n : ℕ} {f : ℕ → ℕ → ℕ → ℝ} {sign : ℝ}
    (h : ∀ s, f s q.1 q.2 = sign * f s p.1 p.2) : (ofFn n m l f).Corresponds m l sign p q where
  m_eq := rfl
  l_eq := rfl
  element s := by
    by_cases hs : s < n
    · rw [get_ofFn f hs hq.1 hq.2, get_ofFn f hs hp.1 hp.2, h s]
    · rw [get_of_not_lt _ _ _ hs, get_of_not_lt _ _ _ hs, mul_zero]

variable {a b : Cube ℝ} {σ τ : ℝ}

/-- The sign of an elementwise combination. -/
theorem Corresponds.zipWith {op : ℝ → ℝ → ℝ} {ρ : ℝ} (ha : a.Corresponds m l σ p q)
    (hb : b.Corresponds m l τ p q) (hop : ∀ x y, op (σ * x) (τ * y) = ρ * op x y) :
    (a.zipWith op b).Corresponds m l ρ p q := by
  obtain ⟨rfl, rfl, ha⟩ := ha
  refine ⟨rfl, rfl, fun s ↦ ?_⟩
  by_cases hs : s < a.n
  · rw [get_zipWith a b hs hq.1 hq.2, get_zipWith a b hs hp.1 hp.2, ha, hb.element, hop]
  · have houtside : ∀ j k, (a.zipWith op b).get s j k = 0 :=
      fun j k ↦ get_of_not_lt (a.zipWith op b) j k hs
    rw [houtside, houtside, mul_zero]

/-- The sign of an elementwise product is the product of the signs. -/
theorem Corresponds.mul (ha : a.Corresponds m l σ p q) (hb : b.Corresponds m l τ p q) :
    (a.zipWith (· * ·) b).Corresponds m l (σ * τ) p q :=
  ha.zipWith hp hq hb fun _ _ ↦ mul_mul_mul_comm _ _ _ _

/-- An elementwise sum has the sign of both summands. -/
theorem Corresponds.add (ha : a.Corresponds m l σ p q) (hb : b.Corresponds m l σ p q) :
    (a.zipWith (· + ·) b).Corresponds m l σ p q :=
  ha.zipWith hp hq hb fun _ _ ↦ (mul_add _ _ _).symm

end Places

end Cube

/-! ## Series -/

namespace HarmonicBasis

variable (b : HarmonicBasis ℝ)

/-- The angle of a mode at a place of the grid. -/
noncomputable def angleAt (k : ℕ) (p : ℕ × ℕ) : ℝ :=
  nth b.xm k * nth b.theta p.1 + nth b.xn k * nth b.zeta p.2

/-- The angle of every mode has the same cosine at both places, and the same sine up to a sign. -/
def Corresponds (sign : ℝ) (p q : ℕ × ℕ) : Prop :=
  ∀ k < b.modes, Real.cos (b.angleAt k q) = Real.cos (b.angleAt k p) ∧
    Real.sin (b.angleAt k q) = sign * Real.sin (b.angleAt k p)

variable {b} {sign : ℝ} {p q : ℕ × ℕ} (hb : b.Corresponds sign p q)
  (hp : p.1 < b.theta.size ∧ p.2 < b.zeta.size) (hq : q.1 < b.theta.size ∧ q.2 < b.zeta.size)
include hb hp hq

/-- A series of cosines takes the same values at corresponding places. -/
theorem Corresponds.cosines {coeffs : Table ℝ} {c : Cube ℝ} (h : b.cosines coeffs = .ok c) :
    c.Corresponds b.theta.size b.zeta.size 1 p q := by
  by_cases hcols : coeffs.cols = b.modes
  · rw [b.cosines_eq_ok hcols] at h
    cases h
    refine Cube.corresponds_ofFn hp hq fun s ↦ ?_
    rw [one_mul]
    refine Finset.sum_congr rfl fun k hk ↦ ?_
    exact congrArg (coeffs.get s k * ·) (hb k (Finset.mem_range.mp hk)).1
  · simp [HarmonicBasis.cosines, synthesize, hcols] at h

/-- A series of sines takes the same values at corresponding places, up to the sign. -/
theorem Corresponds.sines {coeffs : Table ℝ} {c : Cube ℝ} (h : b.sines coeffs = .ok c) :
    c.Corresponds b.theta.size b.zeta.size sign p q := by
  by_cases hcols : coeffs.cols = b.modes
  · rw [b.sines_eq_ok hcols] at h
    cases h
    refine Cube.corresponds_ofFn hp hq fun s ↦ ?_
    unfold sineSeries
    rw [Finset.mul_sum]
    refine Finset.sum_congr rfl fun k hk ↦ ?_
    rw [mul_left_comm]
    exact congrArg (coeffs.get s k * ·) (hb k (Finset.mem_range.mp hk)).2
  · simp [HarmonicBasis.sines, synthesize, hcols] at h

end HarmonicBasis

/-! ## The mesh -/

namespace SurfaceMesh

/-- The surfaces at corresponding places: the major radius is the same, the height changes with the
sines, and so do the derivatives of the major radius, but not those of the height. -/
structure Geometry.Corresponds (g : Geometry ℝ) (m l : ℕ) (sign : ℝ) (p q : ℕ × ℕ) : Prop where
  r : g.r.Corresponds m l 1 p q
  z : g.z.Corresponds m l sign p q
  drTheta : g.drTheta.Corresponds m l sign p q
  drZeta : g.drZeta.Corresponds m l sign p q
  dzTheta : g.dzTheta.Corresponds m l 1 p q
  dzZeta : g.dzZeta.Corresponds m l 1 p q

/-- The mesh at corresponding places: the height and the radial component change with the sines. -/
structure Corresponds (mesh : SurfaceMesh ℝ) (m l : ℕ) (sign : ℝ) (p q : ℕ × ℕ) : Prop where
  r : mesh.r.Corresponds m l 1 p q
  z : mesh.z.Corresponds m l sign p q
  br : mesh.br.Corresponds m l sign p q
  bz : mesh.bz.Corresponds m l 1 p q
  bphi : mesh.bphi.Corresponds m l 1 p q

section Basis

variable {input : SpectralInput ℝ} {basis : HarmonicBasis ℝ} {sign : ℝ} {p q : ℕ × ℕ}
  (hb : basis.Corresponds sign p q)
  (hp : p.1 < basis.theta.size ∧ p.2 < basis.zeta.size)
  (hq : q.1 < basis.theta.size ∧ q.2 < basis.zeta.size)
include hb hp hq

/-- The surfaces of the symmetric series at corresponding places. -/
theorem corresponds_of_symmetricGeometry {g : Geometry ℝ}
    (h : symmetricGeometry input basis = .ok g) :
    g.Corresponds basis.theta.size basis.zeta.size sign p q := by
  obtain ⟨r, hr, h⟩ := bind_eq_ok_iff.mp h
  obtain ⟨z, hz, h⟩ := bind_eq_ok_iff.mp h
  obtain ⟨drTheta, hdrTheta, h⟩ := bind_eq_ok_iff.mp h
  obtain ⟨drZeta, hdrZeta, h⟩ := bind_eq_ok_iff.mp h
  obtain ⟨dzTheta, hdzTheta, h⟩ := bind_eq_ok_iff.mp h
  obtain ⟨dzZeta, hdzZeta, h⟩ := bind_eq_ok_iff.mp h
  cases h
  exact ⟨hb.cosines hp hq hr, hb.sines hp hq hz, hb.sines hp hq hdrTheta,
    hb.sines hp hq hdrZeta, hb.cosines hp hq hdzTheta, hb.cosines hp hq hdzZeta⟩

/-- Asymmetric terms mix both kinds of series, and keep a correspondence only without a change of
sign. -/
theorem Geometry.Corresponds.addAsymmetric {g g' : Geometry ℝ} {terms : AsymmetricTerms ℝ}
    (hg : g.Corresponds basis.theta.size basis.zeta.size sign p q) (hsign : sign = 1)
    (h : addAsymmetric input basis g terms = .ok g') :
    g'.Corresponds basis.theta.size basis.zeta.size sign p q := by
  subst hsign
  obtain ⟨r, hr, h⟩ := bind_eq_ok_iff.mp h
  obtain ⟨drTheta, hdrTheta, h⟩ := bind_eq_ok_iff.mp h
  obtain ⟨drZeta, hdrZeta, h⟩ := bind_eq_ok_iff.mp h
  obtain ⟨z, hz, h⟩ := bind_eq_ok_iff.mp h
  obtain ⟨dzTheta, hdzTheta, h⟩ := bind_eq_ok_iff.mp h
  obtain ⟨dzZeta, hdzZeta, h⟩ := bind_eq_ok_iff.mp h
  cases h
  exact ⟨hg.r.add hp hq (hb.sines hp hq hr), hg.z.add hp hq (hb.cosines hp hq hz),
    hg.drTheta.add hp hq (hb.cosines hp hq hdrTheta),
    hg.drZeta.add hp hq (hb.cosines hp hq hdrZeta),
    hg.dzTheta.add hp hq (hb.sines hp hq hdzTheta), hg.dzZeta.add hp hq (hb.sines hp hq hdzZeta)⟩

/-- The surfaces at corresponding places. -/
theorem corresponds_of_geometryOf (hsign : input.asymmetric = none ∨ sign = 1) {g : Geometry ℝ}
    (h : geometryOf input basis = .ok g) :
    g.Corresponds basis.theta.size basis.zeta.size sign p q := by
  obtain ⟨symmetric, hsymmetric, h⟩ := bind_eq_ok_iff.mp h
  have hg := corresponds_of_symmetricGeometry hb hp hq hsymmetric
  cases hterms : input.asymmetric with
  | none =>
      rw [hterms] at h
      cases h
      exact hg
  | some terms =>
      rw [hterms] at h
      exact hg.addAsymmetric hb hp hq (hsign.resolve_left (by simp [hterms])) h

omit hb in
/-- The mesh at corresponding places, from the surfaces and the basis of the field. -/
theorem corresponds_of_meshOf {fieldBasis : HarmonicBasis ℝ} {g : Geometry ℝ}
    {mesh : SurfaceMesh ℝ} (hg : g.Corresponds basis.theta.size basis.zeta.size sign p q)
    (hfield : fieldBasis.Corresponds sign p q) (htheta : fieldBasis.theta = basis.theta)
    (hzeta : fieldBasis.zeta = basis.zeta) (h : meshOf input basis fieldBasis g = .ok mesh) :
    mesh.Corresponds basis.theta.size basis.zeta.size sign p q := by
  obtain ⟨_, -, h⟩ := bind_eq_ok_iff.mp h
  obtain ⟨bu, hbu, h⟩ := bind_eq_ok_iff.mp h
  obtain ⟨_, -, h⟩ := bind_eq_ok_iff.mp h
  obtain ⟨bv, hbv, h⟩ := bind_eq_ok_iff.mp h
  cases h
  have hcosines : ∀ {coeffs : Table ℝ} {c : Cube ℝ}, fieldBasis.cosines coeffs = .ok c →
      c.Corresponds basis.theta.size basis.zeta.size 1 p q := by
    rw [← htheta, ← hzeta] at hp hq ⊢
    exact fun h ↦ hfield.cosines hp hq h
  have hbu := hcosines hbu
  have hbv := hcosines hbv
  -- products with the cosines of the field keep the sign of the other factor
  have hbr := (hbu.mul hp hq hg.drTheta).add hp hq (hbv.mul hp hq hg.drZeta)
  have hbz := (hbu.mul hp hq hg.dzTheta).add hp hq (hbv.mul hp hq hg.dzZeta)
  have hbphi := hg.r.mul hp hq hbv
  rw [one_mul] at hbr hbz hbphi
  exact ⟨hg.r, hg.z, hbr, hbz, hbphi⟩

end Basis

/-- The basis of the field has the modes of the field. -/
theorem eq_closedBasis_of_fieldBasisOf {input : SpectralInput ℝ} {nTheta nZeta : ℕ}
    {fieldBasis : HarmonicBasis ℝ}
    (h : fieldBasisOf input (closedBasis nTheta nZeta input.xm input.xn) nTheta nZeta =
      .ok fieldBasis) : fieldBasis = closedBasis nTheta nZeta input.fieldXm input.fieldXn := by
  unfold fieldBasisOf at h
  unfold SpectralInput.fieldXm SpectralInput.fieldXn
  cases hmodes : input.fieldModes with
  | none =>
      rw [hmodes] at h
      cases h
      rfl
  | some modes =>
      rw [hmodes] at h
      exact eq_closedBasis h

/-- The toroidal angles of a mesh divide the closed turn, over every type of scalars. -/
theorem zeta_of_synthesize {α : Type} [ElementaryScalar α] {input : SpectralInput α}
    {nTheta nZeta : ℕ} {mesh : SurfaceMesh α} (h : synthesize input nTheta nZeta = .ok mesh) :
    mesh.zeta = closedAngles nZeta := by
  rw [synthesize_eq] at h
  obtain ⟨basis, hbasis, h⟩ := bind_eq_ok_iff.mp h
  obtain ⟨fieldBasis, -, h⟩ := bind_eq_ok_iff.mp h
  obtain ⟨g, -, h⟩ := bind_eq_ok_iff.mp h
  obtain ⟨_, -, h⟩ := bind_eq_ok_iff.mp h
  obtain ⟨_, -, h⟩ := bind_eq_ok_iff.mp h
  obtain ⟨_, -, h⟩ := bind_eq_ok_iff.mp h
  obtain ⟨_, -, h⟩ := bind_eq_ok_iff.mp h
  cases h
  exact congrArg HarmonicBasis.zeta (eq_closedBasis hbasis)

/-- If all modes of an equilibrium have corresponding angles at two places, the mesh has
corresponding entries there, whatever its coefficients. -/
theorem corresponds_of_synthesize {input : SpectralInput ℝ} {nTheta nZeta : ℕ}
    {mesh : SurfaceMesh ℝ} (h : synthesize input nTheta nZeta = .ok mesh) {sign : ℝ}
    {p q : ℕ × ℕ} (hp : p.1 < nTheta ∧ p.2 < nZeta) (hq : q.1 < nTheta ∧ q.2 < nZeta)
    (hsurface : (closedBasis nTheta nZeta input.xm input.xn).Corresponds sign p q)
    (hfield : (closedBasis nTheta nZeta input.fieldXm input.fieldXn).Corresponds sign p q)
    (hsign : input.asymmetric = none ∨ sign = 1) : mesh.Corresponds nTheta nZeta sign p q := by
  rw [synthesize_eq] at h
  obtain ⟨basis, hbasis, h⟩ := bind_eq_ok_iff.mp h
  obtain rfl := eq_closedBasis hbasis
  obtain ⟨fieldBasis, hfieldBasis, h⟩ := bind_eq_ok_iff.mp h
  obtain rfl := eq_closedBasis_of_fieldBasisOf hfieldBasis
  obtain ⟨g, hg, h⟩ := bind_eq_ok_iff.mp h
  have htheta : (closedBasis nTheta nZeta input.xm input.xn).theta.size = nTheta :=
    size_closedAngles nTheta
  have hzeta : (closedBasis nTheta nZeta input.xm input.xn).zeta.size = nZeta :=
    size_closedAngles nZeta
  rw [← htheta, ← hzeta] at hp hq
  have hmesh := corresponds_of_meshOf hp hq
    (corresponds_of_geometryOf hsurface hp hq hsign hg) hfield rfl rfl h
  rwa [htheta, hzeta] at hmesh

end SurfaceMesh

/-! ## Whole mode numbers -/

/-- All entries are whole numbers. -/
def Whole (xs : Array ℝ) : Prop :=
  ∀ x ∈ xs, ∃ n : ℤ, x = n

/-- An array of integers as real numbers. -/
theorem whole_map (ns : Array ℤ) : Whole (ns.map fun n : ℤ ↦ (n : ℝ)) := by
  intro x hx
  obtain ⟨n, -, rfl⟩ := Array.mem_map.mp hx
  exact ⟨n, rfl⟩

/-- Reading an array of whole numbers gives a whole number, also beyond its end. -/
theorem Whole.exists_nth {xs : Array ℝ} (h : Whole xs) (k : ℕ) : ∃ n : ℤ, nth xs k = n := by
  by_cases hk : k < xs.size
  · rw [Exact.nth_eq_getElem xs hk]
    exact h _ (Array.getElem_mem hk)
  · exact ⟨0, by simp [Exact.nth_eq_getD, hk]⟩

namespace SurfaceMesh

/-- With whole mode numbers, reflecting both angles leaves the cosines and changes the sign of the
sines. -/
theorem closedBasis_reflect {xm xn : Array ℝ} (hm : Whole xm) (hn : Whole xn) {nTheta nZeta : ℕ}
    {p : ℕ × ℕ} (hp : p.1 < nTheta ∧ p.2 < nZeta) :
    (closedBasis nTheta nZeta xm xn).Corresponds (-1) p
      (nTheta - 1 - p.1, nZeta - 1 - p.2) := by
  intro k _
  obtain ⟨m, hm⟩ := hm.exists_nth k
  obtain ⟨n, hn⟩ := hn.exists_nth k
  obtain ⟨a, ha⟩ := exists_nth_closedAngles_reflect hp.1
  obtain ⟨b, hb⟩ := exists_nth_closedAngles_reflect hp.2
  have hangle : (closedBasis nTheta nZeta xm xn).angleAt k
      (nTheta - 1 - p.1, nZeta - 1 - p.2) = ((m * a + n * b : ℤ) : ℝ) * (2 * Real.pi) -
        (closedBasis nTheta nZeta xm xn).angleAt k p := by
    unfold HarmonicBasis.angleAt closedBasis
    dsimp only
    rw [hm, hn, ha, hb]
    push_cast
    ring
  rw [hangle, Real.cos_int_mul_two_pi_sub, Real.sin_int_mul_two_pi_sub, neg_one_mul]
  exact ⟨rfl, rfl⟩

/-- Reflecting both angles of a mesh changes the signs of the height and of the radial component,
and nothing else. -/
structure MirrorSymmetric (mesh : SurfaceMesh ℝ) (nTheta nZeta : ℕ) : Prop where
  shape : ∀ c ∈ [mesh.r, mesh.z, mesh.br, mesh.bz, mesh.bphi], c.m = nTheta ∧ c.l = nZeta
  r : ∀ s, ∀ i < nTheta, ∀ j < nZeta,
    mesh.r.get s (nTheta - 1 - i) (nZeta - 1 - j) = mesh.r.get s i j
  z : ∀ s, ∀ i < nTheta, ∀ j < nZeta,
    mesh.z.get s (nTheta - 1 - i) (nZeta - 1 - j) = -mesh.z.get s i j
  br : ∀ s, ∀ i < nTheta, ∀ j < nZeta,
    mesh.br.get s (nTheta - 1 - i) (nZeta - 1 - j) = -mesh.br.get s i j
  bz : ∀ s, ∀ i < nTheta, ∀ j < nZeta,
    mesh.bz.get s (nTheta - 1 - i) (nZeta - 1 - j) = mesh.bz.get s i j
  bphi : ∀ s, ∀ i < nTheta, ∀ j < nZeta,
    mesh.bphi.get s (nTheta - 1 - i) (nZeta - 1 - j) = mesh.bphi.get s i j

/-- The mesh of an equilibrium with whole mode numbers and without asymmetric terms is mirror
symmetric. -/
theorem mirrorSymmetric_of_synthesize {input : SpectralInput ℝ}
    (hsymmetric : input.asymmetric = none)
    (hmodes : ∀ xs ∈ [input.xm, input.xn, input.fieldXm, input.fieldXn], Whole xs)
    {nTheta nZeta : ℕ} (htheta : 2 ≤ nTheta) (hzeta : 1 ≤ nZeta) {mesh : SurfaceMesh ℝ}
    (h : synthesize input nTheta nZeta = .ok mesh) : mesh.MirrorSymmetric nTheta nZeta := by
  simp only [List.forall_mem_cons, List.not_mem_nil, false_imp_iff, implies_true, and_true]
    at hmodes
  obtain ⟨hxm, hxn, hfieldXm, hfieldXn⟩ := hmodes
  have hmesh : ∀ i < nTheta, ∀ j < nZeta,
      mesh.Corresponds nTheta nZeta (-1) (i, j) (nTheta - 1 - i, nZeta - 1 - j) := by
    intro i hi j hj
    exact corresponds_of_synthesize h ⟨hi, hj⟩ ⟨by dsimp; omega, by dsimp; omega⟩
      (closedBasis_reflect hxm hxn ⟨hi, hj⟩) (closedBasis_reflect hfieldXm hfieldXn ⟨hi, hj⟩)
      (.inl hsymmetric)
  obtain ⟨hr, hz, hbr, hbz, hbphi⟩ := hmesh 0 (by omega) 0 (by omega)
  constructor
  case shape =>
    intro c hc
    simp only [List.mem_cons, List.not_mem_nil, or_false] at hc
    rcases hc with rfl | rfl | rfl | rfl | rfl
    · exact ⟨hr.m_eq, hr.l_eq⟩
    · exact ⟨hz.m_eq, hz.l_eq⟩
    · exact ⟨hbr.m_eq, hbr.l_eq⟩
    · exact ⟨hbz.m_eq, hbz.l_eq⟩
    · exact ⟨hbphi.m_eq, hbphi.l_eq⟩
  case r => exact fun s i hi j hj ↦ ((hmesh i hi j hj).r.element s).trans (one_mul _)
  case z => exact fun s i hi j hj ↦ ((hmesh i hi j hj).z.element s).trans (neg_one_mul _)
  case br => exact fun s i hi j hj ↦ ((hmesh i hi j hj).br.element s).trans (neg_one_mul _)
  case bz => exact fun s i hi j hj ↦ ((hmesh i hi j hj).bz.element s).trans (one_mul _)
  case bphi => exact fun s i hi j hj ↦ ((hmesh i hi j hj).bphi.element s).trans (one_mul _)

/-- The symmetric part of the tilted equilibrium. -/
def upright : SpectralInput ℝ :=
  { tilted with asymmetric := none }

/-- The coefficients of the upright equilibrium fit together. -/
theorem consistent_upright : upright.Consistent where
  three_le := le_rfl
  xn_size := rfl
  rCosine := ⟨rfl, rfl⟩
  zSine := ⟨rfl, rfl⟩
  fieldXn_size := rfl
  poloidal := ⟨rfl, rfl⟩
  toroidal := ⟨rfl, rfl⟩
  asymmetric := fun _ hterms ↦ absurd hterms (Option.not_mem_none _)

/-- The upright equilibrium has modes with both mode numbers, and modes of its own for the field.
Its mesh on a grid of three by four angles is mirror symmetric. -/
theorem upright_mirrorSymmetric : ∃ mesh, synthesize upright 3 4 = .ok mesh ∧
    mesh.MirrorSymmetric 3 4 := by
  obtain ⟨u, w, -, -, hmesh⟩ :=
    synthesize_eq_ok consistent_upright two_pos one_pos three_pos four_pos
  refine ⟨_, hmesh, mirrorSymmetric_of_synthesize rfl ?_ (by decide) (by decide) hmesh⟩
  have hxm : upright.xm = #[1, 2].map fun n : ℤ ↦ (n : ℝ) := by simp [upright, tilted]
  have hxn : upright.xn = #[1, -3].map fun n : ℤ ↦ (n : ℝ) := by simp [upright, tilted]
  have hfieldXm : upright.fieldXm = #[2].map fun n : ℤ ↦ (n : ℝ) := by
    simp [SpectralInput.fieldXm, upright, tilted]
  have hfieldXn : upright.fieldXn = #[1].map fun n : ℤ ↦ (n : ℝ) := by
    simp [SpectralInput.fieldXn, upright, tilted]
  simp only [List.forall_mem_cons, List.not_mem_nil, false_imp_iff, implies_true, and_true]
  exact ⟨hxm ▸ whole_map _, hxn ▸ whole_map _, hfieldXm ▸ whole_map _, hfieldXn ▸ whole_map _⟩

end SurfaceMesh

end PlasmaField
