import Mathlib
import PlasmaField.Proofs.Extended
import PlasmaField.Proofs.Field.Layout

/-!
# What becomes of a batch with small toroidal components

A toroidal component that does not reach the threshold, because it is smaller or because it is no
number, makes the tangent at its place useless. One pass over the components of a batch counts these
and finds the smallest magnitude. With exact arithmetic, infinities and undefined results, every
batch of points fails with these statistics or has at each point the components of the field over
the toroidal one: `tangents_answer`.
-/

namespace PlasmaField.MagneticField

open Extended (finite beyond)

/-! ## The smallest magnitude -/

/-- The scalar is the smallest magnitude of the components that are numbers, and there is one. -/
structure IsLeastMagnitude (least : Extended ℝ) (bs : List (Extended ℝ)) : Prop where
  attained : ∃ b ∈ bs, Scalar.isNaN b = false ∧ Scalar.abs b = least
  le : ∀ b ∈ bs, Scalar.isNaN b = false → least ≤ Scalar.abs b

/-- What a pass over a list of components has found: the smallest magnitude of the numbers among
them, if there are any. -/
def HasFound (bs : List (Extended ℝ)) : Option (Extended ℝ) → Prop
  | none => ∀ b ∈ bs, Scalar.isNaN b = true
  | some least => IsLeastMagnitude least bs

section Pass

variable {bs : List (Extended ℝ)} {b least : Extended ℝ}

/-- The smallest magnitude is a number. -/
theorem IsLeastMagnitude.isNaN_eq_false (h : IsLeastMagnitude least bs) :
    Scalar.isNaN least = false := by
  obtain ⟨b, -, hb, rfl⟩ := h.attained
  exact b.isNaN_abs.trans hb

/-- A component that is not smaller, or no number, leaves the smallest magnitude. -/
theorem IsLeastMagnitude.concat (h : IsLeastMagnitude least bs)
    (hb : Scalar.isNaN b = false → least ≤ Scalar.abs b) : IsLeastMagnitude least (bs ++ [b]) where
  attained := by
    obtain ⟨b', hb', hattained⟩ := h.attained
    exact ⟨b', List.mem_append_left _ hb', hattained⟩
  le := by
    rw [List.forall_mem_append, List.forall_mem_singleton]
    exact ⟨h.le, hb⟩

/-- A number that is not greater than those before it has the smallest magnitude. -/
theorem isLeastMagnitude_concat_abs (hb : Scalar.isNaN b = false)
    (h : ∀ b' ∈ bs, Scalar.isNaN b' = false → Scalar.abs b ≤ Scalar.abs b') :
    IsLeastMagnitude (Scalar.abs b) (bs ++ [b]) where
  attained := ⟨b, List.mem_append_right _ List.mem_cons_self, hb, rfl⟩
  le := by
    rw [List.forall_mem_append, List.forall_mem_singleton]
    exact ⟨h, fun _ ↦ Extended.le_self (b.isNaN_abs.trans hb)⟩

/-- One step of the pass keeps the smaller magnitude. -/
def keepSmaller {α : Type} [ElementaryScalar α] (found : Option α) (b : α) : Option α :=
  match found with
  | none => if Scalar.isNaN (Scalar.abs b) then none else some (Scalar.abs b)
  | some least => if Scalar.abs b < least then some (Scalar.abs b) else some least

/-- One step takes the next component into account. -/
theorem HasFound.concat {found : Option (Extended ℝ)} (h : HasFound bs found) (b : Extended ℝ) :
    HasFound (bs ++ [b]) (keepSmaller found b) := by
  unfold keepSmaller
  cases found with
  | none =>
      dsimp only
      rw [Extended.isNaN_abs]
      split
      · next hb => exact List.forall_mem_append.mpr ⟨h, List.forall_mem_singleton.mpr hb⟩
      · next hb =>
          refine isLeastMagnitude_concat_abs (Bool.not_eq_true _ ▸ hb) fun b' hb' hnumber ↦ ?_
          rw [h b' hb'] at hnumber
          cases hnumber
  | some least =>
      dsimp only
      split
      · next hless =>
          have hb : Scalar.isNaN (Scalar.abs b) = false :=
            Extended.isNaN_eq_false_iff.mpr (Extended.lt_iff.mp hless).1
          exact isLeastMagnitude_concat_abs (b.isNaN_abs ▸ hb) fun b' hb' hnumber ↦
            Extended.le_trans (Extended.le_of_lt hless) (h.le b' hb' hnumber)
      · next hless =>
          exact IsLeastMagnitude.concat h fun hb ↦
            Extended.le_of_not_lt (b.isNaN_abs.trans hb) h.isNaN_eq_false hless

/-- The pass finds the smallest magnitude. -/
theorem hasFound_smallest? (bs : List (Extended ℝ)) : HasFound bs (smallest? bs) := by
  have hpass : smallest? bs = bs.foldl keepSmaller none := rfl
  rw [hpass]
  -- the pass goes from the front to the back, so the induction adds components at the back
  induction bs using List.reverseRecOn with
  | nil => exact fun b hb ↦ absurd hb List.not_mem_nil
  | append_singleton bs b ih =>
      rw [List.foldl_append]
      exact (ih rfl).concat b

end Pass

/-! ## Tangents -/

/-- A quotient as a factor makes a quotient of the product. -/
theorem mul_div_eq (b r c : Extended ℝ) : b * (r / c) = r * b / c := by
  rw [Extended.div_eq_mul_inv, Extended.div_eq_mul_inv, ← mul_assoc, mul_comm b r]

/-- The inverse as a factor makes a quotient. -/
theorem mul_one_div_eq (b c : Extended ℝ) :
    b * (@OfNat.ofNat (Extended ℝ) 1 (Scalar.instOfNat 1) / c) = b / c := by
  rw [mul_div_eq, Extended.literal_one]
  exact congrArg (· / c) (one_mul b)

/-- In a geometry with a major radius the tangent is the radius times the poloidal components over
the toroidal one. -/
theorem tangent_of_majorRadius {field : MagneticField (Extended ℝ)}
    {r : Position (Extended ℝ) → Extended ℝ} (h : field.majorRadius? = some r)
    (p : Position (Extended ℝ)) : field.tangent p =
      (r p * field.radial p / field.toroidal p, r p * field.vertical p / field.toroidal p) := by
  unfold tangent scaleAt
  rw [h]
  exact congrArg₂ Prod.mk (mul_div_eq _ _ _) (mul_div_eq _ _ _)

/-- In a geometry without curvature the tangent is the poloidal components over the toroidal one. -/
theorem tangent_of_flat {field : MagneticField (Extended ℝ)} (h : field.majorRadius? = none)
    (p : Position (Extended ℝ)) :
    field.tangent p = (field.radial p / field.toroidal p, field.vertical p / field.toroidal p) := by
  unfold tangent scaleAt
  rw [h]
  exact congrArg₂ Prod.mk (mul_one_div_eq _ _) (mul_one_div_eq _ _)

/-! ## Batches of points -/

/-- The threshold is `10⁻⁸`. -/
theorem degeneracyThreshold_eq : (degeneracyThreshold : Extended ℝ) = finite (1 / 10 ^ 8) :=
  congrArg finite ((Exact.decimal_eq 1 8).trans (by norm_num))

/-- A toroidal component that is not seen to reach the threshold: it is smaller, or no number. -/
def IsTooSmall (b : Extended ℝ) : Prop :=
  ¬ finite (1 / 10 ^ 8) ≤ Scalar.abs b

/-- Components that are too small can be counted. -/
noncomputable instance : DecidablePred IsTooSmall :=
  fun _ ↦ inferInstanceAs (Decidable (¬ _))

/-- The check looks for components that are too small. -/
theorem isDegenerate_iff {b : Extended ℝ} : isDegenerate b = true ↔ IsTooSmall b := by
  unfold isDegenerate IsTooSmall
  rw [degeneracyThreshold_eq, Bool.not_eq_true', decide_eq_false_iff_not]

/-- The check counts the components that are too small. -/
theorem countP_isDegenerate (bs : List (Extended ℝ)) :
    bs.countP isDegenerate = bs.countP fun b ↦ decide (IsTooSmall b) := by
  refine List.countP_congr fun b _ ↦ ?_
  rw [isDegenerate_iff, decide_eq_true_eq]

/-- What the tangents at points in a layout are. Under the policy that says so, a component that is
too small makes them fail, with the number of these components, with the smallest magnitude of those
that are numbers, or infinity when none is, and with the threshold. Otherwise there are tangents,
and at each place where the toroidal component is a number other than zero they are the poloidal
components over it, times the major radius if there is one. -/
structure IsAnswer (field : MagneticField (Extended ℝ)) {n : ℕ} (layout : Layout n)
    (points : Vector (Extended ℝ × Extended ℝ) n) (y : Extended ℝ) (policy : DegeneracyPolicy)
    (outcome : Except (FieldError (Extended ℝ)) (Tangents (Extended ℝ) × ℕ)) : Prop where
  degenerate : policy = .fail → (∃ b ∈ field.componentsAt y points.toArray, IsTooSmall b) →
    ∃ least, outcome = .error (.degenerate
        ((field.componentsAt y points.toArray).countP fun b ↦ decide (IsTooSmall b)) least
        (finite (1 / 10 ^ 8))) ∧
      (IsLeastMagnitude (least.getD Scalar.infinity) (field.componentsAt y points.toArray) ∨
        (∀ b ∈ field.componentsAt y points.toArray, Scalar.isNaN b = true) ∧
          least.getD Scalar.infinity = beyond 1)
  tangents : policy = .warn ∨ (∀ b ∈ field.componentsAt y points.toArray, ¬ IsTooSmall b) →
    ∃ rates warnings, outcome = .ok (layout.tangents rates, warnings) ∧
      ∀ k : Fin n, ∀ p : Position (Extended ℝ), p = ⟨points[k].1, points[k].2, y⟩ →
        Scalar.isNaN (field.toroidal p) = false → field.toroidal p ≠ finite 0 →
        (∀ r, field.majorRadius? = some r → rates[k] =
          (r p * field.radial p / field.toroidal p, r p * field.vertical p / field.toroidal p)) ∧
        (field.majorRadius? = none → rates[k] =
          (field.radial p / field.toroidal p, field.vertical p / field.toroidal p))

/-- Points in either layout fail with the right statistics or have the right tangents, positions
without a layout are rejected for their shape, and there are no other positions. -/
theorem tangents_answer (field : MagneticField (Extended ℝ)) (y : Extended ℝ)
    (policy : DegeneracyPolicy) :
    (∀ n, ∀ (layout : Layout n) (points : Vector (Extended ℝ × Extended ℝ) n),
      IsAnswer field layout points y policy (field.tangents (layout.positions points) y policy)) ∧
    (∀ positions fault, Positions.IsMalformed positions fault →
      field.tangents positions y policy = .error (.shape fault)) ∧
    ∀ positions : Positions (Extended ℝ),
      (∃ n, ∃ (layout : Layout n) (points : Vector (Extended ℝ × Extended ℝ) n),
        positions = layout.positions points) ∨ ∃ fault, positions.IsMalformed fault := by
  refine ⟨fun n layout points ↦ ?_,
    fun positions fault h ↦ field.tangents_of_isMalformed h y policy,
    fun positions ↦ positions.exists_layout_or_isMalformed⟩
  rw [Layout.tangents_positions]
  constructor
  · rintro rfl ⟨b, hb, hsmall⟩
    rw [checkDegeneracy_eq_error ⟨b, hb, isDegenerate_iff.mpr hsmall⟩, countP_isDegenerate,
      degeneracyThreshold_eq]
    refine ⟨_, rfl, ?_⟩
    have hfound := hasFound_smallest? (field.componentsAt y points.toArray)
    cases hleast : smallest? (field.componentsAt y points.toArray) with
    | none =>
        rw [hleast] at hfound
        exact .inr ⟨hfound, Extended.infinity_eq⟩
    | some least =>
        rw [hleast] at hfound
        exact .inl hfound
  · intro hpass
    have hclear : policy = .warn ∨
        ∀ b ∈ field.componentsAt y points.toArray, isDegenerate b = false :=
      hpass.imp_right fun h b hb ↦ Bool.eq_false_iff.mpr fun hb' ↦ h b hb (isDegenerate_iff.mp hb')
    rw [checkDegeneracy_eq_ok hclear]
    refine ⟨_, _, rfl, ?_⟩
    rintro k p rfl - -
    rw [Fin.getElem_fin, Vector.getElem_map]
    exact ⟨fun r hr ↦ tangent_of_majorRadius hr _, fun hflat ↦ tangent_of_flat hflat _⟩

end PlasmaField.MagneticField
