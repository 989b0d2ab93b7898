import Mathlib
import PlasmaField.Field.Tangent
import PlasmaField.Proofs.Elementary
import PlasmaField.Proofs.Field.Rates
import PlasmaField.Proofs.Outcome

/-!
# Degenerate batches

Over the reals a batch whose toroidal components all reach the threshold has its tangents without
failure and without warnings, `tangents_eq_ok`. Positions that have no batch are rejected for their
shape. A failure as degenerate therefore says that some component is below the threshold,
`tangents_degenerate_iff`.
-/

namespace PlasmaField

open Outcome (bind_eq_ok_iff)
open scoped Exact Elementary

/-- Positions are only rejected for their shape. -/
theorem Positions.exists_shape_of_places_eq_error {positions : Positions ℝ} {fault : FieldError ℝ}
    (h : positions.places = .error fault) : ∃ shape, fault = .shape shape := by
  cases positions with
  | flat xs =>
      simp only [places] at h
      split at h
      · cases h
      · cases h
        exact ⟨_, rfl⟩
  | stacked a =>
      simp only [places] at h
      split at h
      · cases h
      · cases h
        exact ⟨_, rfl⟩

namespace MagneticField

variable {field : MagneticField ℝ}

/-- The threshold is positive. -/
theorem degeneracyThreshold_pos : (0 : ℝ) < degeneracyThreshold :=
  Exact.decimal_pos one_pos _

/-- A toroidal component is not degenerate when its magnitude reaches the threshold. -/
theorem isDegenerate_eq_false_iff {b : ℝ} :
    isDegenerate b = false ↔ degeneracyThreshold ≤ |b| := by
  unfold isDegenerate
  rw [Bool.not_eq_false', decide_eq_true_eq]
  rfl

/-- Components that all reach the threshold pass the check without warnings. -/
theorem checkDegeneracy_eq_ok_zero {components : List ℝ}
    (h : ∀ b ∈ components, degeneracyThreshold ≤ |b|) (policy : DegeneracyPolicy) :
    checkDegeneracy components policy = .ok 0 := by
  have hclear : ∀ b ∈ components, isDegenerate b = false := fun b hb ↦
    isDegenerate_eq_false_iff.mpr (h b hb)
  have hcount : components.countP isDegenerate = 0 := by
    rw [List.countP_eq_zero]
    intro b hb
    rw [hclear b hb]
    exact Bool.false_ne_true
  rw [checkDegeneracy_eq_ok (.inr hclear), hcount]

/-- A component below the threshold fails the check under the policy that says so. -/
theorem checkDegeneracy_fail {components : List ℝ}
    (h : ∃ b ∈ components, |b| < degeneracyThreshold) : ∃ count least,
      checkDegeneracy components .fail = .error (.degenerate count least degeneracyThreshold) := by
  obtain ⟨b, hb, hsmall⟩ := h
  have hdegenerate : isDegenerate b = true := by
    by_contra hclear
    rw [Bool.not_eq_true, isDegenerate_eq_false_iff] at hclear
    exact hsmall.not_ge hclear
  exact ⟨_, _, checkDegeneracy_eq_error ⟨b, hb, hdegenerate⟩⟩

/-- A component at points of the poloidal plane is the toroidal component at one of them. -/
theorem mem_componentsAt_iff {points : Array (ℝ × ℝ)} {y b : ℝ} :
    b ∈ field.componentsAt y points ↔ ∃ q ∈ points, field.toroidal ⟨q.1, q.2, y⟩ = b := by
  unfold componentsAt
  rw [List.mem_map]
  simp only [Array.mem_toList_iff]

/-- The tangents at positions where the toroidal component reaches the threshold. -/
theorem tangents_eq_ok {positions : Positions ℝ} {places : ShapedArray (ℝ × ℝ)}
    (hplaces : positions.places = .ok places) {y : ℝ}
    (h : ∀ q ∈ places.data, degeneracyThreshold ≤ |field.toroidal ⟨q.1, q.2, y⟩|)
    (policy : DegeneracyPolicy) : ∃ t, field.tangents positions y policy = .ok (t, 0) := by
  have hclear : ∀ b ∈ field.componentsAt y places.data, degeneracyThreshold ≤ |b| := by
    intro b hb
    obtain ⟨q, hq, rfl⟩ := mem_componentsAt_iff.mp hb
    exact h q hq
  have hrates := field.rates_eq_map hplaces y policy
  rw [checkDegeneracy_eq_ok_zero hclear policy] at hrates
  cases positions with
  | flat xs => exact ⟨_, bind_eq_ok_iff.mpr ⟨_, hrates, rfl⟩⟩
  | stacked a => exact ⟨_, bind_eq_ok_iff.mpr ⟨_, hrates, rfl⟩⟩

/-- Positions fail as degenerate when the toroidal component is below the threshold at one of
them. -/
theorem tangents_degenerate_iff {positions : Positions ℝ} {y : ℝ} :
    (∃ count least threshold,
      field.tangents positions y .fail = .error (.degenerate count least threshold)) ↔
    ∃ places, positions.places = .ok places ∧
      ∃ q ∈ places.data, |field.toroidal ⟨q.1, q.2, y⟩| < degeneracyThreshold := by
  constructor
  · rintro ⟨count, least, threshold, hdegenerate⟩
    cases hplaces : positions.places with
    | ok places =>
        refine ⟨places, rfl, ?_⟩
        by_contra hclear
        push Not at hclear
        obtain ⟨t, ht⟩ := tangents_eq_ok hplaces hclear .fail
        rw [ht] at hdegenerate
        cases hdegenerate
    | error fault =>
        obtain ⟨shape, rfl⟩ := Positions.exists_shape_of_places_eq_error hplaces
        unfold tangents rates at hdegenerate
        rw [hplaces] at hdegenerate
        cases hdegenerate
  · rintro ⟨places, hplaces, q, hq, hsmall⟩
    obtain ⟨count, least, hcheck⟩ :=
      checkDegeneracy_fail ⟨_, mem_componentsAt_iff.mpr ⟨q, hq, rfl⟩, hsmall⟩
    refine ⟨count, least, degeneracyThreshold, ?_⟩
    have hrates := field.rates_eq_map hplaces y .fail
    rw [hcheck] at hrates
    unfold tangents
    rw [hrates]
    rfl

end MagneticField

end PlasmaField
