import Mathlib
import PlasmaField.Field
import PlasmaField.Parameters.Document
import PlasmaField.Proofs.Binary64.Angles
import PlasmaField.Proofs.Binary64.Quotient
import PlasmaField.Proofs.Outcome

/-!
# Building accepted fields in double precision

The check of a stellarator's parameters and the check of its coils look at different numbers. The
first accepts any finite period that is not zero, the second the rate at which the coils turn, which
is a rounded quotient of a full turn and the period. All other parameters of the coils are finite if
those of the stellarator are, `isFinite_coil`. So an accepted field is built if its rate stays
below the range of doubles, `BoundedRate`, and refused otherwise: `builds_of_validate`. A period of
`3.2e-308` is accepted, and no field is built with it, `accepted_not_built`.
-/

namespace PlasmaField

open Binary64 (value turn value_zero beq_iff isFinite_neg isFinite_div_iff turn_pos)
open Outcome (bind_eq_ok_iff guard_eq_ok_iff map_eq_ok_iff)

/-- Values pass the check of finiteness if all are finite. -/
theorem checkFinite_eq_ok_iff {α : Type} [Scalar α] {parameters : ParameterSet} {values : List α} :
    checkFinite parameters values = .ok () ↔ ∀ x ∈ values, Scalar.isFinite x = true := by
  unfold checkFinite
  rw [← List.all_eq_true]
  split
  next hall => exact iff_of_true rfl hall
  next hnot => exact iff_of_false (by simp) hnot

namespace StellaratorParameters

variable {p : StellaratorParameters Float}

/-- The exact rate at which the coils turn is below the range of doubles. -/
def BoundedRate (p : StellaratorParameters Float) : Prop :=
  value turn < 2 ^ 1024 * |value p.yPeriod|

/-- The bound is a comparison of two rational numbers. -/
instance (p : StellaratorParameters Float) : Decidable p.BoundedRate :=
  inferInstanceAs (Decidable (_ < _))

/-- What the check of the parameters ensures for the coils. -/
structure Accepted (p : StellaratorParameters Float) : Prop where
  finite : ∀ x ∈ [p.xCentre, p.zCentre, p.radius, p.yPeriod, p.iCoil, p.bTor], x.isFinite = true
  period : value p.yPeriod ≠ 0

/-- Parameters that pass the check are accepted. -/
theorem accepted_of_validate (h : p.validate = .ok ()) : p.Accepted := by
  obtain ⟨_, hfinite, h⟩ := bind_eq_ok_iff.mp h
  obtain ⟨-, h⟩ := guard_eq_ok_iff.mp h
  have hall := checkFinite_eq_ok_iff.mp hfinite
  have hy : p.yPeriod.isFinite = true := hall _ (by simp)
  refine ⟨hall, fun hzero ↦ ?_⟩
  rw [if_pos ((beq_iff hy value_zero.1).mpr (hzero.trans value_zero.2.symm))] at h
  cases h

/-- The rate of accepted coils is finite in double precision just if the exact one is below the
range of doubles. -/
theorem isFinite_iota_iff (h : p.Accepted) : p.iota.isFinite = true ↔ p.BoundedRate := by
  obtain ⟨hturn, hpos⟩ := turn_pos
  have hiota : p.iota = turn / p.yPeriod := rfl
  rw [hiota, isFinite_div_iff hturn (h.finite _ (by simp)) h.period, abs_of_pos hpos]
  rfl

end StellaratorParameters

namespace LineCurrent

variable {p : StellaratorParameters Float}

/-- The directions of the four coils at the angle zero are finite. -/
theorem isFinite_quarter {i : ℕ} (hi : i < 4) :
    (0.5 * 3.141592653589793 * Float.ofNat i : Float).isFinite = true := by
  have hall : ∀ i < 4, (0.5 * 3.141592653589793 * Float.ofNat i : Float).isFinite = true := by
    decide +kernel
  exact hall i hi

/-- A coil of accepted parameters passes the check of line currents just if its rate is finite. -/
theorem isFinite_coil (h : p.Accepted) {coil : LineCurrent Float} (hcoil : coil ∈ fourCoils p) :
    coil.isFinite = p.iota.isFinite := by
  obtain ⟨i, hi, rfl⟩ := List.mem_map.mp hcoil
  have hx : p.xCentre.isFinite = true := h.finite _ (by simp)
  have hz : p.zCentre.isFinite = true := h.finite _ (by simp)
  have hr : p.radius.isFinite = true := h.finite _ (by simp)
  have hi₀ : p.iCoil.isFinite = true := h.finite _ (by simp)
  have hangle := isFinite_quarter (List.mem_range.mp hi)
  have hcurrent : (if i % 2 = 0 then p.iCoil else -p.iCoil).isFinite = true := by
    split
    · exact hi₀
    · exact isFinite_neg hi₀
  show [p.xCentre.isFinite, p.zCentre.isFinite, p.radius.isFinite,
    (0.5 * 3.141592653589793 * Float.ofNat i : Float).isFinite, p.iota.isFinite,
    (if i % 2 = 0 then p.iCoil else -p.iCoil).isFinite].all id = p.iota.isFinite
  rw [hx, hz, hr, hangle, hcurrent]
  simp

/-- The four coils of accepted parameters pass the check just if their rate is below the range of
doubles. -/
theorem check_fourCoils (h : p.Accepted) :
    (p.BoundedRate → check (fourCoils p) = .ok (fourCoils p)) ∧
      (¬ p.BoundedRate → check (fourCoils p) = .error (.config (.notFinite .lineCurrent))) := by
  rw [← StellaratorParameters.isFinite_iota_iff h]
  unfold check
  refine ⟨fun hfinite ↦ if_pos ?_, fun hinfinite ↦ if_neg fun hall ↦ hinfinite ?_⟩
  · exact List.all_eq_true.mpr fun coil hcoil ↦ (isFinite_coil h hcoil).trans hfinite
  · obtain ⟨coil, hcoil⟩ : ∃ coil, coil ∈ fourCoils p :=
      ⟨_, List.mem_map_of_mem (List.mem_range.mpr four_pos)⟩
    exact (isFinite_coil h hcoil).symm.trans (List.all_eq_true.mp hall coil hcoil)

end LineCurrent

namespace AnalyticField

/-- If the field has coils, the exact rate at which they turn is below the range of doubles. -/
def BoundedRate : AnalyticField Float → Prop
  | .straightStellarator p => p.BoundedRate
  | .rotatingEllipse p => p.BoundedRate
  | _ => True

/-- The bound is that of the parameters, where there are coils. -/
instance : DecidablePred BoundedRate
  | .uniform => inferInstanceAs (Decidable True)
  | .slab _ => inferInstanceAs (Decidable True)
  | .curvedSlab _ => inferInstanceAs (Decidable True)
  | .straightStellarator p => inferInstanceAs (Decidable p.BoundedRate)
  | .rotatingEllipse p => inferInstanceAs (Decidable p.BoundedRate)

/-- The field is built if its rate is bounded, and refused for its coils otherwise. -/
structure Builds (field : AnalyticField Float) : Prop where
  built : field.BoundedRate → ∃ b, MagneticField.build field = .ok b
  refused : ¬ field.BoundedRate →
    MagneticField.build field = .error (.config (.notFinite .lineCurrent))

/-- A loaded field has passed the check of its parameters. -/
theorem validate_of_load {α : Type} [ElementaryScalar α] {document : Json α}
    {field : AnalyticField α} (h : load document = .ok field) : field.validate = .ok () := by
  unfold load at h
  split at h
  next =>
    obtain ⟨_, hvalid, rfl⟩ := map_eq_ok_iff.mp h
    exact hvalid
  next => cases h

/-- A field that is loaded from a text has passed the check of its parameters. -/
theorem validate_of_loadText {text : String} {field : AnalyticField Float}
    (h : loadText text = .ok field) : field.validate = .ok () := by
  unfold loadText at h
  split at h
  next => exact validate_of_load h
  next => cases h

/-- A field that is made of checked coils is built or refused for its rate. -/
theorem builds_of_coils {field : AnalyticField Float} {p : StellaratorParameters Float}
    {make : List (LineCurrent Float) → MagneticField Float} (h : p.Accepted)
    (hrate : field.BoundedRate ↔ p.BoundedRate)
    (hbuild : MagneticField.build field =
      (LineCurrent.check (LineCurrent.fourCoils p)).map make) : field.Builds := by
  obtain ⟨hbounded, hunbounded⟩ := LineCurrent.check_fourCoils h
  refine ⟨fun hfield ↦ ⟨make (LineCurrent.fourCoils p), ?_⟩, fun hfield ↦ ?_⟩
  · rw [hbuild, hbounded (hrate.mp hfield)]
    rfl
  · rw [hbuild, hunbounded (mt hrate.mpr hfield)]
    rfl

/-- A field that does not turn is built. -/
theorem builds_of_built {field : AnalyticField Float} {b : MagneticField Float}
    (hrate : field.BoundedRate) (hbuild : MagneticField.build field = .ok b) : field.Builds :=
  ⟨fun _ ↦ ⟨b, hbuild⟩, fun hfield ↦ absurd hrate hfield⟩

/-- A field whose parameters pass the check is built if its rate is bounded and refused
otherwise. -/
theorem builds_of_validate {field : AnalyticField Float} (h : field.validate = .ok ()) :
    field.Builds := by
  have hbuild : MagneticField.build field = field.validate >>= fun _ ↦ _ := rfl
  rw [h] at hbuild
  cases field with
  | uniform => exact builds_of_built trivial hbuild
  | slab p => exact builds_of_built trivial hbuild
  | curvedSlab p => exact builds_of_built trivial hbuild
  | straightStellarator p =>
      exact builds_of_coils (StellaratorParameters.accepted_of_validate h) Iff.rfl hbuild
  | rotatingEllipse p =>
      exact builds_of_coils (StellaratorParameters.accepted_of_validate h) Iff.rfl hbuild

/-- A field that is loaded from a text, or that only passes the check of its parameters, is built if
the rate of its coils is bounded and refused otherwise. -/
theorem builds_of_loadText {field : AnalyticField Float}
    (h : (∃ text, loadText text = .ok field) ∨ field.validate = .ok ()) : field.Builds := by
  rcases h with ⟨text, hload⟩ | hvalid
  · exact builds_of_validate (validate_of_loadText hload)
  · exact builds_of_validate hvalid

/-- A stellarator with all parameters at their defaults is loaded and built. -/
theorem builds_default :
    loadText "\x7b\"kind\": \"straight_stellarator\"\x7d" =
      .ok (.straightStellarator StellaratorParameters.default) ∧
    (∃ b, MagneticField.build (.straightStellarator StellaratorParameters.default) =
      (.ok b : Except (FieldError Float) (MagneticField Float))) ∧
    ∃ b, MagneticField.build (.rotatingEllipse StellaratorParameters.default) =
      (.ok b : Except (FieldError Float) (MagneticField Float)) := by
  have hload : loadText "\x7b\"kind\": \"straight_stellarator\"\x7d" =
      .ok (.straightStellarator StellaratorParameters.default) := by
    decide +kernel
  have hrate : (StellaratorParameters.default : StellaratorParameters Float).BoundedRate := by
    decide +kernel
  have hvalid : (.rotatingEllipse StellaratorParameters.default : AnalyticField Float).validate =
      .ok () := by
    decide +kernel
  have hloaded := builds_of_loadText (.inl ⟨_, hload⟩)
  have hchecked := builds_of_loadText (.inr hvalid)
  exact ⟨hload, hloaded.built hrate, hchecked.built hrate⟩

/-- A stellarator with a period at which its rate is beyond the range of doubles. -/
def shortPeriod : AnalyticField Float :=
  .straightStellarator { StellaratorParameters.default with yPeriod := 3.2e-308 }

/-- A stellarator with a short period is loaded and passes the check, and is not built. -/
theorem accepted_not_built :
    loadText "\x7b\"kind\": \"straight_stellarator\", \"yperiod\": 3.2e-308\x7d" =
      .ok shortPeriod ∧
    shortPeriod.validate = .ok () ∧
    MagneticField.build shortPeriod = .error (.config (.notFinite .lineCurrent)) := by
  have hload : loadText "\x7b\"kind\": \"straight_stellarator\", \"yperiod\": 3.2e-308\x7d" =
      .ok shortPeriod := by
    decide +kernel
  have hvalid := validate_of_loadText hload
  have hrate : ¬ shortPeriod.BoundedRate := by
    decide +kernel
  exact ⟨hload, hvalid, (builds_of_validate hvalid).refused hrate⟩

end AnalyticField

end PlasmaField
