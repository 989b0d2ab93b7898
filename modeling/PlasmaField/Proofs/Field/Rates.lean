import Mathlib
import PlasmaField.Field.Tangent
import PlasmaField.Proofs.Field.Batch

/-!
# Rates of change place by place

The rates of change along field lines are computed from whole arrays of components and radii. At
each place they are the products that the components there give, and whether there are any depends
on the toroidal components at the places alone: `rates_eq_map`.
-/

namespace PlasmaField.MagneticField

variable {α : Type} [ElementaryScalar α]

/-- What the poloidal components are multiplied by at a place. -/
def scaleAt (field : MagneticField α) (p : Position α) : α :=
  match field.majorRadius? with
  | some r => r p / field.toroidal p
  | none => 1 / field.toroidal p

/-- The rates of change of the poloidal coordinates at a place. -/
def tangent (field : MagneticField α) (p : Position α) : α × α :=
  (field.radial p * field.scaleAt p, field.vertical p * field.scaleAt p)

/-- The factors of a batch are those of its places. -/
theorem scale_eq_map (field : MagneticField α) (batch : Batch α) :
    scale field batch = batch.places.map field.scaleAt := by
  refine ShapedArray.eq_of_data (shape_scale field batch) ?_
  have hmajor := Batch.majorRadius?_eq_map field batch
  unfold scale scaleAt
  split
  · next r h =>
      rw [hmajor, Option.map_eq_some_iff] at h
      obtain ⟨radius, hradius, rfl⟩ := h
      simp only [hradius, Batch.toroidal_eq_map, ShapedArray.zipWith, ShapedArray.map,
        Array.zipWith_map, Array.zipWith_self]
  · next h =>
      rw [hmajor, Option.map_eq_none_iff] at h
      simp only [h, Batch.toroidal_eq_map, ShapedArray.map, Array.map_map, Function.comp_def]

/-- Multiplying components by the factors of a batch multiplies them place by place. -/
theorem zipWith_scale (field : MagneticField α) {batch : Batch α} {a : ShapedArray α}
    {f : Position α → α} (ha : a = batch.places.map f) (h : a.shape = (scale field batch).shape) :
    a.zipWith (· * ·) (scale field batch) h =
      batch.places.map fun p ↦ f p * field.scaleAt p := by
  subst ha
  refine ShapedArray.eq_of_data rfl ?_
  simp only [scale_eq_map, ShapedArray.zipWith, ShapedArray.map, Array.zipWith_map,
    Array.zipWith_self]

/-! ## The check for degenerate components -/

section Check

variable {components : List α}

/-- A degenerate component fails the check under the policy that says so. -/
theorem checkDegeneracy_eq_error (h : ∃ b ∈ components, isDegenerate b = true) :
    checkDegeneracy components .fail = .error (.degenerate (components.countP isDegenerate)
      (smallest? components) degeneracyThreshold) := by
  obtain ⟨b, hb, hdegenerate⟩ := h
  have hcount : components.countP isDegenerate ≠ 0 :=
    (List.countP_pos_iff.mpr ⟨b, hb, hdegenerate⟩).ne'
  exact if_pos ⟨hcount, rfl⟩

/-- Under the other policy, or when no component is degenerate, the check is passed. -/
theorem checkDegeneracy_eq_ok {policy : DegeneracyPolicy}
    (h : policy = .warn ∨ ∀ b ∈ components, isDegenerate b = false) :
    checkDegeneracy components policy = .ok (components.countP isDegenerate) := by
  refine if_neg ?_
  rintro ⟨hcount, rfl⟩
  obtain ⟨b, hb, hdegenerate⟩ := List.countP_pos_iff.mp (Nat.pos_of_ne_zero hcount)
  rcases h with h | h
  · cases h
  · rw [h b hb] at hdegenerate
    cases hdegenerate

/-- There is a degenerate component that must not pass, or the check is passed. -/
theorem fails_or_passes (components : List α) (policy : DegeneracyPolicy) :
    (policy = .fail ∧ ∃ b ∈ components, isDegenerate b = true) ∨
      (policy = .warn ∨ ∀ b ∈ components, isDegenerate b = false) := by
  cases policy with
  | warn => exact .inr (.inl rfl)
  | fail =>
      by_cases h : ∃ b ∈ components, isDegenerate b = true
      · exact .inl ⟨rfl, h⟩
      · push Not at h
        exact .inr (.inr fun b hb ↦ Bool.eq_false_iff.mpr (h b hb))

end Check

/-! ## Rates at points of the poloidal plane -/

/-- The toroidal components at points of the poloidal plane. -/
def componentsAt (field : MagneticField α) (y : α) (points : Array (α × α)) : List α :=
  points.toList.map fun p ↦ field.toroidal ⟨p.1, p.2, y⟩

/-- Once positions have their places, the check of the components there decides, and the rates are
those of the places. -/
theorem rates_eq_map (field : MagneticField α) {positions : Positions α}
    {places : ShapedArray (α × α)} (h : positions.places = .ok places) (y : α)
    (policy : DegeneracyPolicy) :
    field.rates positions y policy =
      (checkDegeneracy (field.componentsAt y places.data) policy).map fun count ↦
        (places.map fun p ↦ (field.tangent ⟨p.1, p.2, y⟩).1,
          places.map fun p ↦ (field.tangent ⟨p.1, p.2, y⟩).2, if count = 0 then 0 else 1) := by
  have hmap (f : Position α → α) : (Batch.atAngle places y).places.map f =
      places.map fun p ↦ f ⟨p.1, p.2, y⟩ := by
    rw [Batch.places_atAngle]
    exact ShapedArray.eq_of_data rfl Array.map_map
  have hcomponents : (Batch.toroidal field (.atAngle places y)).data.toList =
      field.componentsAt y places.data := by
    rw [Batch.toroidal_eq_map, hmap]
    exact Array.toList_map
  unfold rates
  simp only [h, hcomponents, bind, Except.bind, zipWith_scale field (Batch.radial_eq_map field _),
    zipWith_scale field (Batch.vertical_eq_map field _), hmap]
  cases checkDegeneracy (field.componentsAt y places.data) policy <;> rfl

end PlasmaField.MagneticField
