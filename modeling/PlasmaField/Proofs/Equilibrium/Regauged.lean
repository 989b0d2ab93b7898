import Mathlib
import PlasmaField.Proofs.Equilibrium.FluxNodes
import PlasmaField.Proofs.Spline.Affine

/-!
# The gauge of the flux

The flux is known up to its unit and an additive constant. Data whose fluxes are all scaled and
shifted alike have the same normalized flux, and so give an equilibrium with the same toroidal
field, pressure and domain, and with the in-plane components scaled, `isRegauged_of_ofInput`.
-/

namespace PlasmaField

open scoped Exact Elementary

/-- The data with all fluxes scaled and shifted. -/
noncomputable def FluxInput.regauged (input : FluxInput ℝ) (scale shift : ℝ) : FluxInput ℝ :=
  { input with
    psi := input.psi.map fun v ↦ scale * v + shift
    axisFlux := scale * input.axisFlux + shift
    edgeFlux := scale * input.edgeFlux + shift }

namespace FluxEquilibrium

/-- The normalized flux does not depend on the gauge. -/
theorem normalizedFlux_regauged (grid : Grid ℝ) (core : Polygon ℝ) (psi : Table ℝ)
    (axis edge : ℝ) {scale : ℝ} (hscale : scale ≠ 0) (shift : ℝ) :
    normalizedFlux grid core (psi.map fun v ↦ scale * v + shift) (scale * axis + shift)
      (scale * edge + shift - (scale * axis + shift)) =
    normalizedFlux grid core psi axis (edge - axis) := by
  -- within the outline the shift cancels in both differences, and the scale in their quotient
  refine Table.ofFn_congr fun i hi j hj ↦ ?_
  have hvalue : scale * psi.get i j + shift - (scale * axis + shift) =
      scale * (psi.get i j - axis) := by ring
  have hspan : scale * edge + shift - (scale * axis + shift) = scale * (edge - axis) := by ring
  rw [Table.get_map _ psi hi hj, hvalue, hspan, mul_div_mul_left _ _ hscale]

/-- The field is the other one after its flux is scaled and shifted. -/
structure IsRegauged (scale shift : ℝ) (field field' : MagneticField ℝ) : Prop where
  radial : ∀ p, field'.radial p = scale * field.radial p
  vertical : ∀ p, field'.vertical p = scale * field.vertical p
  toroidal : ∀ p, field'.toroidal p = field.toroidal p
  pressure : ∀ p, field'.pressure p = field.pressure p
  psi : ∃ psi psi', field.attribute? "psi" = some psi ∧ field'.attribute? "psi" = some psi' ∧
    ∀ p, psi' p = scale * psi p + shift
  psiNorm : ∃ psiNorm psiNorm', field.attribute? "psinorm" = some psiNorm ∧
    field'.attribute? "psinorm" = some psiNorm' ∧ ∀ p, psiNorm' p = psiNorm p
  boundary : field'.boundary = field.boundary

/-- The parts of an equilibrium with scaled and shifted fluxes: only the flux is another one. -/
theorem Parts.regauged {input : FluxInput ℝ} {e : FluxEquilibrium ℝ} (h : Parts input e)
    {scale : ℝ} (hscale : scale ≠ 0) (shift : ℝ) {psi : BicubicSpline ℝ}
    (hpsi : BicubicSpline.through e.grid.r e.grid.z (input.psi.map fun v ↦ scale * v + shift) =
      .ok psi) : Parts (input.regauged scale shift) { e with psi := psi } := by
  have hspan : scale * input.edgeFlux + shift - (scale * input.axisFlux + shift) ≠ 0 := by
    rw [add_sub_add_right_eq_sub, ← mul_sub]
    exact mul_ne_zero hscale h.span
  obtain ⟨core, hcore, hpsiNorm⟩ := h.psiNorm
  rw [← normalizedFlux_regauged e.grid core input.psi _ _ hscale shift] at hpsiNorm
  exact { h with span := hspan, psi := hpsi, psiNorm := ⟨core, hcore, hpsiNorm⟩ }

/-- **The gauge of the flux does not matter.** Data with scaled and shifted fluxes are accepted when
the data are, and the field is the same up to the scale of its in-plane components. -/
theorem isRegauged_of_ofInput {input : FluxInput ℝ} {e : FluxEquilibrium ℝ}
    (h : ofInput input = .ok e) {scale : ℝ} (hscale : scale ≠ 0) (shift : ℝ) :
    ∃ e', ofInput (input.regauged scale shift) = .ok e' ∧
      IsRegauged scale shift (.flux e) (.flux e') := by
  have hparts := ofInput_eq_ok_iff.mp h
  obtain ⟨psi, hpsi, hqueries⟩ := BicubicSpline.through_affine hparts.psi scale shift
  refine ⟨{ e with psi := psi }, ofInput_eq_ok_iff.mpr (hparts.regauged hscale shift hpsi), ?_⟩
  exact {
    radial := fun p ↦ by
      show -psi.derivativeY p.x p.z / p.x = scale * (-e.psi.derivativeY p.x p.z / p.x)
      rw [(hqueries p.x p.z).2.2]
      ring
    vertical := fun p ↦ by
      show psi.derivativeX p.x p.z / p.x = scale * (e.psi.derivativeX p.x p.z / p.x)
      rw [(hqueries p.x p.z).2.1]
      ring
    toroidal := fun _ ↦ rfl
    pressure := fun _ ↦ rfl
    psi := ⟨_, _, rfl, rfl, fun p ↦ (hqueries p.x p.z).1⟩
    psiNorm := ⟨_, _, rfl, rfl, fun _ ↦ rfl⟩
    boundary := rfl }

/-- The equilibrium with fluxes in another unit, of the other sign, and with another zero. -/
theorem isRegauged_uneven : ∃ e e', ofInput uneven = .ok e ∧ (-2 : ℝ) ≠ 0 ∧
    ofInput (uneven.regauged (-2) 3) = .ok e' ∧ IsRegauged (-2) 3 (.flux e) (.flux e') := by
  obtain ⟨e, he⟩ := exists_ofInput_uneven
  have hscale : (-2 : ℝ) ≠ 0 := by norm_num
  obtain ⟨e', he', hregauged⟩ := isRegauged_of_ofInput he hscale 3
  exact ⟨e, e', he, hscale, he', hregauged⟩

end FluxEquilibrium

end PlasmaField
