import Mathlib
import PlasmaField.Field
import PlasmaField.Proofs.Dual.Gradient

/-!
# The field of line currents

The field of a list of line currents has the potential `-Σ 0.1 · I · ln r²`, where `r` is the
distance from the current in the poloidal plane, and its in-plane components are the derivatives of
the potential, `Σ 0.2 · I · (z - zc) / r²` and `-Σ 0.2 · I · (x - xc) / r²`. Away from the currents
the in-plane field has neither divergence nor curl, and the order of the currents does not matter:
`isCoilField_of_ofCoils`.
-/

namespace PlasmaField

open scoped Exact Elementary

/-- Derivatives are added over a list. -/
theorem hasDerivAt_list_sum {ι : Type} {f : ι → ℝ → ℝ} {d : ι → ℝ} {t : ℝ} {l : List ι}
    (h : ∀ c ∈ l, HasDerivAt (f c) (d c) t) :
    HasDerivAt (fun t ↦ (l.map fun c ↦ f c t).sum) (l.map d).sum t := by
  induction l with
  | nil => exact hasDerivAt_const t 0
  | cons c l ih =>
      have hrest := ih fun c' hc' ↦ h c' (List.mem_cons_of_mem c hc')
      simpa using (h c List.mem_cons_self).fun_add hrest

namespace LineCurrent

/-- How far a place lies from the current along `x`. -/
noncomputable def offsetX (c : LineCurrent ℝ) (p : Position ℝ) : ℝ :=
  p.x - (c.position p.phi).1

/-- How far a place lies from the current along `z`. -/
noncomputable def offsetZ (c : LineCurrent ℝ) (p : Position ℝ) : ℝ :=
  p.z - (c.position p.phi).2

/-- The squared distance of a place from the current in the poloidal plane. -/
noncomputable def distSq (c : LineCurrent ℝ) (p : Position ℝ) : ℝ :=
  c.offsetX p ^ 2 + c.offsetZ p ^ 2

/-- Only the place of the current has no distance from it. -/
theorem distSq_pos {c : LineCurrent ℝ} {p : Position ℝ} (h : c.position p.phi ≠ (p.x, p.z)) :
    0 < c.distSq p := by
  have hnonneg : 0 ≤ c.distSq p := add_nonneg (sq_nonneg _) (sq_nonneg _)
  refine hnonneg.lt_of_ne fun hzero ↦ h ?_
  obtain ⟨hx, hz⟩ := (add_eq_zero_iff_of_nonneg (sq_nonneg _) (sq_nonneg _)).mp hzero.symm
  exact Prod.ext (sub_eq_zero.mp (pow_eq_zero_iff two_ne_zero |>.mp hx)).symm
    (sub_eq_zero.mp (pow_eq_zero_iff two_ne_zero |>.mp hz)).symm

/-- The squared distance as a dual. -/
theorem sum_squares_eq (c : LineCurrent ℝ) (p : Position ℝ) :
    ((Dual.varX p.x).subScalar (c.position p.phi).1).pow 2 +
      ((Dual.varZ p.z).subScalar (c.position p.phi).2).pow 2 =
        ⟨c.distSq p, 2 * c.offsetX p, 2 * c.offsetZ p⟩ := by
  rw [Dual.pow_two_eq, Dual.pow_two_eq]
  show (⟨c.distSq p, 2 * c.offsetX p * (Dual.varX p.x).dx + 2 * c.offsetZ p * (Dual.varZ p.z).dx,
    2 * c.offsetX p * (Dual.varX p.x).dz + 2 * c.offsetZ p * (Dual.varZ p.z).dz⟩ : Dual ℝ) = _
  simp [Dual.varX, Dual.varZ]

/-- The current's share of the potential with its derivatives. -/
theorem logPotential_eq (c : LineCurrent ℝ) (p : Position ℝ) :
    c.logPotential (Dual.varX p.x) (Dual.varZ p.z) p.phi =
      ⟨0.1 * c.current * Real.log (c.distSq p), 0.2 * c.current * c.offsetX p / c.distSq p,
        0.2 * c.current * c.offsetZ p / c.distSq p⟩ := by
  -- the slope of the logarithm is computed from the literal one of the scalars
  have hone : (@OfNat.ofNat ℝ 1 (Scalar.instOfNat 1)) / c.distSq p = (c.distSq p)⁻¹ := by
    rw [Exact.literal_one, one_div]
  unfold logPotential
  simp only [sum_squares_eq]
  show (⟨Real.log (c.distSq p) * (c.current * 0.1),
    _ / c.distSq p * (2 * c.offsetX p) * (c.current * 0.1),
    _ / c.distSq p * (2 * c.offsetZ p) * (c.current * 0.1)⟩ : Dual ℝ) = _
  rw [hone, Dual.mk.injEq]
  exact ⟨by ring, by ring, by ring⟩

/-- The potential of a list of currents with its derivatives. -/
theorem potential_eq (coils : List (LineCurrent ℝ)) (p : Position ℝ) :
    potential coils p.x p.z p.phi =
      ⟨-(coils.map fun c ↦ 0.1 * c.current * Real.log (c.distSq p)).sum,
        -(coils.map fun c ↦ 0.2 * c.current * c.offsetX p / c.distSq p).sum,
        -(coils.map fun c ↦ 0.2 * c.current * c.offsetZ p / c.distSq p).sum⟩ := by
  unfold potential
  rw [Dual.foldl_sub]
  simp only [logPotential_eq, Dual.constant, Exact.literal_zero, zero_sub]

/-- The current's share of the potential carries itself away from the current. -/
theorem carries_logPotential {c : LineCurrent ℝ} {p : Position ℝ}
    (h : c.position p.phi ≠ (p.x, p.z)) :
    (c.logPotential (Dual.varX p.x) (Dual.varZ p.z) p.phi).Carries
      (fun q ↦ (c.logPotential (Dual.varX q.1) (Dual.varZ q.2) p.phi).value) (p.x, p.z) := by
  have hx := ((Dual.carries_varX (q := (p.x, p.z))).subScalar (c.position p.phi).1).square
  have hz := ((Dual.carries_varZ (q := (p.x, p.z))).subScalar (c.position p.phi).2).square
  have hpos := (distSq_pos h).trans_eq (congrArg Dual.value (c.sum_squares_eq p)).symm
  have hvalue : (fun q : ℝ × ℝ ↦ (c.logPotential (Dual.varX q.1) (Dual.varZ q.2) p.phi).value) =
      fun q ↦ Real.log ((q.1 - (c.position p.phi).1) ^ 2 + (q.2 - (c.position p.phi).2) ^ 2) *
        (c.current * potentialFactor) := by
    funext q
    refine (congrArg Dual.value (c.logPotential_eq ⟨q.1, q.2, p.phi⟩)).trans ?_
    show 0.1 * c.current * Real.log (c.distSq ⟨q.1, q.2, p.phi⟩) =
      Real.log (c.distSq ⟨q.1, q.2, p.phi⟩) * (c.current * 0.1)
    ring
  rw [hvalue]
  exact ((hx.add hz).log hpos).mulScalar _

/-- Away from the currents the potential carries itself: its derivatives are those of its value. -/
theorem carries_potential {coils : List (LineCurrent ℝ)} {p : Position ℝ}
    (h : ∀ c ∈ coils, c.position p.phi ≠ (p.x, p.z)) :
    (potential coils p.x p.z p.phi).Carries (fun q ↦ (potential coils q.1 q.2 p.phi).value)
      (p.x, p.z) := by
  -- as a function the potential is one difference, and not the accumulation that computes it
  have hvalue : (fun q : ℝ × ℝ ↦ (potential coils q.1 q.2 p.phi).value) = fun q ↦
      (@OfNat.ofNat ℝ 0 (Scalar.instOfNat 0)) -
        (coils.map fun c ↦ (c.logPotential (Dual.varX q.1) (Dual.varZ q.2) p.phi).value).sum := by
    funext q
    exact congrArg Dual.value (Dual.foldl_sub _ coils _)
  rw [hvalue]
  refine Dual.Carries.foldl_sub ?_ (Dual.carries_constant _)
  intro c hc
  exact carries_logPotential (h c hc)

/-! ## The field of one current -/

/-- The derivative of `k · a / (s² + a²)` along the other coordinate `s = t - u`. -/
theorem hasDerivAt_across (k a u : ℝ) {t : ℝ} (hpos : 0 < (t - u) ^ 2 + a ^ 2) :
    HasDerivAt (fun t ↦ k * a / ((t - u) ^ 2 + a ^ 2))
      (-(2 * k * (t - u) * a / ((t - u) ^ 2 + a ^ 2) ^ 2)) t := by
  have hsq : HasDerivAt (fun t ↦ (t - u) ^ 2 + a ^ 2) (2 * (t - u)) t := by
    simpa using (((hasDerivAt_id' t).sub_const u).fun_pow 2).add_const (a ^ 2)
  refine ((hasDerivAt_const t (k * a)).fun_div hsq hpos.ne').congr_deriv ?_
  ring

/-- The derivative of `k · s / (s² + a²)` along the coordinate `s = t - u`. -/
theorem hasDerivAt_along (k a u : ℝ) {t : ℝ} (hpos : 0 < (t - u) ^ 2 + a ^ 2) :
    HasDerivAt (fun t ↦ k * (t - u) / ((t - u) ^ 2 + a ^ 2))
      (k * (a ^ 2 - (t - u) ^ 2) / ((t - u) ^ 2 + a ^ 2) ^ 2) t := by
  have hline : HasDerivAt (fun t ↦ k * (t - u)) k t := by
    simpa using ((hasDerivAt_id' t).sub_const u).const_mul k
  have hsq : HasDerivAt (fun t ↦ (t - u) ^ 2 + a ^ 2) (2 * (t - u)) t := by
    simpa using (((hasDerivAt_id' t).sub_const u).fun_pow 2).add_const (a ^ 2)
  refine (hline.fun_div hsq hpos.ne').congr_deriv ?_
  ring

/-- The vertical offset over the squared distance changes along `x` as the horizontal one does
along `z`. -/
theorem hasDerivAt_offsets_across {c : LineCurrent ℝ} {p : Position ℝ} (k : ℝ)
    (h : c.position p.phi ≠ (p.x, p.z)) :
    HasDerivAt (fun x ↦ k * c.offsetZ { p with x } / c.distSq { p with x })
      (-(2 * k * c.offsetX p * c.offsetZ p / c.distSq p ^ 2)) p.x ∧
    HasDerivAt (fun z ↦ k * c.offsetX { p with z } / c.distSq { p with z })
      (-(2 * k * c.offsetX p * c.offsetZ p / c.distSq p ^ 2)) p.z := by
  have hpos := distSq_pos h
  constructor
  · exact hasDerivAt_across k (c.offsetZ p) (c.position p.phi).1 hpos
  · -- along `z` the two squares of the distance change places
    unfold distSq at hpos ⊢
    simp only [add_comm (c.offsetX _ ^ 2)] at hpos ⊢
    refine (hasDerivAt_across k (c.offsetX p) (c.position p.phi).2 hpos).congr_deriv ?_
    show -(2 * k * c.offsetZ p * c.offsetX p / (c.offsetZ p ^ 2 + c.offsetX p ^ 2) ^ 2) = _
    ring

/-- The offsets over the squared distance change along themselves by opposite amounts. -/
theorem hasDerivAt_offsets_along {c : LineCurrent ℝ} {p : Position ℝ} (k : ℝ)
    (h : c.position p.phi ≠ (p.x, p.z)) :
    HasDerivAt (fun z ↦ k * c.offsetZ { p with z } / c.distSq { p with z })
      (k * (c.offsetX p ^ 2 - c.offsetZ p ^ 2) / c.distSq p ^ 2) p.z ∧
    HasDerivAt (fun x ↦ k * c.offsetX { p with x } / c.distSq { p with x })
      (-(k * (c.offsetX p ^ 2 - c.offsetZ p ^ 2) / c.distSq p ^ 2)) p.x := by
  have hpos := distSq_pos h
  constructor
  · unfold distSq at hpos ⊢
    simp only [add_comm (c.offsetX _ ^ 2)] at hpos ⊢
    exact hasDerivAt_along k (c.offsetX p) (c.position p.phi).2 hpos
  · refine (hasDerivAt_along k (c.offsetZ p) (c.position p.phi).1 hpos).congr_deriv ?_
    show k * (c.offsetZ p ^ 2 - c.offsetX p ^ 2) / c.distSq p ^ 2 = _
    ring

end LineCurrent

namespace MagneticField

/-- At the place `p` the potential and the field are those of the line currents: the potential is
the sum of the logarithms of the distances and the components circle the currents, the components
are the derivatives of the potential, and the in-plane field has neither divergence nor curl. -/
structure IsCoilField (coils : List (LineCurrent ℝ)) (field : MagneticField ℝ)
    (potential : Position ℝ → ℝ) (p : Position ℝ) : Prop where
  potential_eq : potential p =
    -(coils.map fun c ↦ 0.1 * c.current * Real.log (c.distSq p)).sum
  radial_eq : field.radial p =
    (coils.map fun c ↦ 0.2 * c.current * c.offsetZ p / c.distSq p).sum
  vertical_eq : field.vertical p =
    -(coils.map fun c ↦ 0.2 * c.current * c.offsetX p / c.distSq p).sum
  radial_deriv : HasDerivAt (fun z ↦ potential { p with z }) (-field.radial p) p.z
  vertical_deriv : HasDerivAt (fun x ↦ potential { p with x }) (field.vertical p) p.x
  divergence : ∃ d, HasDerivAt (fun x ↦ field.radial { p with x }) d p.x ∧
    HasDerivAt (fun z ↦ field.vertical { p with z }) (-d) p.z
  curl : ∃ d, HasDerivAt (fun z ↦ field.radial { p with z }) d p.z ∧
    HasDerivAt (fun x ↦ field.vertical { p with x }) d p.x

/-- The radial component as a sum over the currents. -/
theorem radial_lineCurrents (coils : List (LineCurrent ℝ)) (p : Position ℝ) :
    (lineCurrents coils).radial p =
      (coils.map fun c ↦ 0.2 * c.current * c.offsetZ p / c.distSq p).sum := by
  show -(LineCurrent.potential coils p.x p.z p.phi).dz = _
  rw [LineCurrent.potential_eq, neg_neg]

/-- The vertical component as a sum over the currents. -/
theorem vertical_lineCurrents (coils : List (LineCurrent ℝ)) (p : Position ℝ) :
    (lineCurrents coils).vertical p =
      -(coils.map fun c ↦ 0.2 * c.current * c.offsetX p / c.distSq p).sum := by
  show (LineCurrent.potential coils p.x p.z p.phi).dx = _
  rw [LineCurrent.potential_eq]

/-- Away from the currents their field is the one of their potential. -/
theorem isCoilField_lineCurrents {coils : List (LineCurrent ℝ)} {p : Position ℝ}
    (h : ∀ c ∈ coils, c.position p.phi ≠ (p.x, p.z)) :
    IsCoilField coils (lineCurrents coils)
      (fun p ↦ (LineCurrent.potential coils p.x p.z p.phi).value) p where
  potential_eq := congrArg Dual.value (LineCurrent.potential_eq coils p)
  radial_eq := radial_lineCurrents coils p
  vertical_eq := vertical_lineCurrents coils p
  radial_deriv := by
    show HasDerivAt _ (- -(LineCurrent.potential coils p.x p.z p.phi).dz) p.z
    rw [neg_neg]
    exact (LineCurrent.carries_potential h).hasDerivAt_z
  vertical_deriv := (LineCurrent.carries_potential h).hasDerivAt_x
  divergence := by
    simp only [radial_lineCurrents, vertical_lineCurrents]
    refine ⟨_, hasDerivAt_list_sum fun c hc ↦
      (LineCurrent.hasDerivAt_offsets_across (0.2 * c.current) (h c hc)).1, ?_⟩
    exact (hasDerivAt_list_sum fun c hc ↦
      (LineCurrent.hasDerivAt_offsets_across (0.2 * c.current) (h c hc)).2).fun_neg
  curl := by
    simp only [radial_lineCurrents, vertical_lineCurrents]
    refine ⟨_, hasDerivAt_list_sum fun c hc ↦
      (LineCurrent.hasDerivAt_offsets_along (0.2 * c.current) (h c hc)).1, ?_⟩
    refine (hasDerivAt_list_sum fun c hc ↦
      (LineCurrent.hasDerivAt_offsets_along (0.2 * c.current) (h c hc)).2).fun_neg.congr_deriv ?_
    simp only [List.sum_neg, List.map_map, Function.comp_def, neg_neg]

/-- Line currents that are accepted are the coils of the field. -/
theorem ofCoils_eq_ok_iff {coils : List (LineCurrent ℝ)} {field : MagneticField ℝ} :
    ofCoils coils = .ok field ↔ field = lineCurrents coils := by
  have hfinite : coils.all LineCurrent.isFinite = true :=
    List.all_eq_true.mpr fun c _ ↦ List.all_eq_true.mpr fun _ _ ↦ rfl
  unfold ofCoils LineCurrent.check
  rw [if_pos hfinite]
  constructor
  · intro h
    cases h
    rfl
  · intro h
    rw [h]
    rfl

/-- **Line currents make a field without divergence and curl.** Away from the currents, the
potential and the in-plane components are the sums over the currents, whatever their order, and the
components are the derivatives of the potential. -/
theorem isCoilField_of_ofCoils {coils : List (LineCurrent ℝ)} {field : MagneticField ℝ}
    (h : ofCoils coils = .ok field) {p : Position ℝ}
    (haway : ∀ c ∈ coils, c.position p.phi ≠ (p.x, p.z)) :
    ∃ potential, field.attribute? "A" = some potential ∧ IsCoilField coils field potential p ∧
      ∀ other, other.Perm coils → ∃ field' potential', ofCoils other = .ok field' ∧
        field'.attribute? "A" = some potential' ∧ potential' p = potential p ∧
        field'.radial p = field.radial p ∧ field'.vertical p = field.vertical p := by
  obtain rfl := ofCoils_eq_ok_iff.mp h
  have hfield := isCoilField_lineCurrents haway
  refine ⟨_, rfl, hfield, ?_⟩
  -- the closed forms are sums, so that the order of the currents does not matter to them
  intro other hperm
  have hother := isCoilField_lineCurrents fun c hc ↦ haway c (hperm.mem_iff.mp hc)
  refine ⟨_, _, ofCoils_eq_ok_iff.mpr rfl, rfl, ?_, ?_, ?_⟩
  · rw [hother.potential_eq, hfield.potential_eq, (hperm.map _).sum_eq]
  · rw [hother.radial_eq, hfield.radial_eq, (hperm.map _).sum_eq]
  · rw [hother.vertical_eq, hfield.vertical_eq, (hperm.map _).sum_eq]

/-- Two opposite currents on a circle of radius one. -/
noncomputable def opposedPair : List (LineCurrent ℝ) :=
  [⟨0, 0, 1, 0, 1, 2⟩, ⟨0, 0, 1, Real.pi, 1, -2⟩]

/-- Outside the circle the field of two opposite currents on it is the one of their potential. -/
theorem isCoilField_opposedPair : ofCoils opposedPair = .ok (lineCurrents opposedPair) ∧
    (∀ c ∈ opposedPair, c.position 0.5 ≠ (3, 1)) ∧
    ∃ potential, (lineCurrents opposedPair).attribute? "A" = some potential ∧
      IsCoilField opposedPair (lineCurrents opposedPair) potential ⟨3, 1, 0.5⟩ := by
  have hcoils := ofCoils_eq_ok_iff.mpr (rfl : lineCurrents opposedPair = _)
  have haway : ∀ c ∈ opposedPair, c.position 0.5 ≠ (3, 1) := by
    intro c hc heq
    have hx : c.xCentre + c.radius * Real.cos (c.angle + c.iota * 0.5) = 3 :=
      congrArg Prod.fst heq
    have hcos := Real.cos_le_one (c.angle + c.iota * 0.5)
    rcases List.mem_pair.mp hc with rfl | rfl
    · norm_num at hx hcos
      linarith
    · norm_num at hx hcos
      linarith
  obtain ⟨potential, hpotential, hfield, -⟩ :=
    isCoilField_of_ofCoils hcoils (p := ⟨3, 1, 0.5⟩) haway
  exact ⟨hcoils, haway, potential, hpotential, hfield⟩

end MagneticField

end PlasmaField
