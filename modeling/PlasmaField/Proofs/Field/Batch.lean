import Mathlib
import PlasmaField.Field.Batch

/-!
# Batches are evaluated place by place

Fields evaluate a batch by filling in constants, by mapping one coordinate array or all three, and,
in a wrapper, by damping an array in place. Whatever they do, the result has the shape of the batch
and holds at every index what the place there gives alone, for every field and any depth of
wrapping: `isElementwise_evaluators`. Each quantity on a batch is therefore the quantity of the
field at its places, `radial_eq_map` and its companions.
-/

namespace PlasmaField

namespace ShapedArray

variable {α β γ : Type}

/-- Arrays with one shape and the same elements are equal. -/
theorem eq_of_data {a b : ShapedArray α} (hshape : a.shape = b.shape) (hdata : a.data = b.data) :
    a = b := by
  obtain ⟨shape, data, h⟩ := a
  obtain ⟨shape', data', h'⟩ := b
  obtain rfl : shape = shape' := hshape
  obtain rfl : data = data' := hdata
  rfl

/-- Arrays of one shape have the same number of elements. -/
theorem size_data_eq {a : ShapedArray α} {b : ShapedArray β} (h : a.shape = b.shape) :
    a.data.size = b.data.size := by
  rw [a.size_eq, b.size_eq, h]

/-- Mapping an array maps its elements. -/
theorem get?_map (f : α → β) (a : ShapedArray α) (index : List ℕ) :
    (a.map f).get? index = (a.get? index).map f := by
  unfold get? map
  dsimp only
  split
  · exact Array.getElem?_map
  · rfl

/-- Combining two arrays combines their elements. -/
theorem get?_zipWith (f : α → β → γ) (a : ShapedArray α) (b : ShapedArray β) (h : a.shape = b.shape)
    (index : List ℕ) :
    (a.zipWith f b h).get? index = (a.get? index).bind fun x ↦ (b.get? index).map (f x) := by
  obtain ⟨shape, xs, hxs⟩ := a
  obtain ⟨shape', ys, hys⟩ := b
  obtain rfl : shape = shape' := h
  unfold get? zipWith
  dsimp only
  split
  · rw [Array.getElem?_zipWith]
    cases xs[offset shape index]? <;> cases ys[offset shape index]? <;> rfl
  · rfl

end ShapedArray

namespace Batch

variable {α β : Type}

/-- The places of a batch. -/
def places (batch : Batch α) : ShapedArray (Position α) :=
  batch.map id

/-- The place at an index, by its coordinates there. -/
def place? (batch : Batch α) (index : List ℕ) : Option (Position α) := do
  return ⟨← batch.x.get? index, ← batch.z.get? index, ← batch.phi.get? index⟩

/-- The batch with one place. -/
def single (p : Position α) : Batch α :=
  ⟨.vector #[p.x], .vector #[p.z], .vector #[p.phi], rfl, rfl⟩

/-! ## The places of a batch -/

/-- The array of places has the shape of the batch. -/
@[simp]
theorem shape_places (batch : Batch α) : batch.places.shape = batch.shape :=
  rfl

/-- The coordinates at an index make up the place there. -/
theorem place?_eq (batch : Batch α) (index : List ℕ) :
    batch.place? index = batch.places.get? index := by
  unfold place? places map
  rw [ShapedArray.get?_zipWith, ShapedArray.get?_zipWith]
  cases batch.x.get? index <;> cases batch.z.get? index <;> cases batch.phi.get? index <;> rfl

/-- The array of the places of one place. -/
theorem data_places_single (p : Position α) : (single p).places.data = #[p] := by
  simp [places, single, map, ShapedArray.zipWith, ShapedArray.vector]

/-- The places of a poloidal plane. -/
theorem places_atAngle (places : ShapedArray (α × α)) (phi : α) :
    (atAngle places phi).places = places.map fun p ↦ ⟨p.1, p.2, phi⟩ := by
  have hphi : Array.replicate (ShapedArray.volume places.shape) phi =
      places.data.map fun _ ↦ phi := by
    rw [Array.map_const', places.size_eq]
  refine ShapedArray.eq_of_data rfl ?_
  simp only [Batch.places, atAngle, map, ShapedArray.zipWith, ShapedArray.map,
    ShapedArray.replicate, hphi, Array.zipWith_map, Array.zipWith_self, id_eq]

/-! ## Evaluations as maps over the places -/

/-- Evaluating a function maps it over the places. -/
theorem map_eq_map (batch : Batch α) (f : Position α → β) : batch.map f = batch.places.map f := by
  refine ShapedArray.eq_of_data rfl ?_
  simp only [map, places, ShapedArray.zipWith, ShapedArray.map, Array.map_zipWith, id_eq]

/-- Filling in a value maps the places to it. -/
theorem constant_eq_map (batch : Batch α) (v : β) :
    batch.constant v = batch.places.map fun _ ↦ v := by
  refine ShapedArray.eq_of_data rfl ?_
  have hsize : ShapedArray.volume batch.shape = batch.places.data.size := batch.places.size_eq.symm
  simp only [constant, ShapedArray.replicate, ShapedArray.map, Array.map_const', hsize]

/-- The radial coordinates are those of the places. -/
theorem x_eq_map (batch : Batch α) : batch.x = batch.places.map (·.x) := by
  have hz := ShapedArray.size_data_eq batch.shape_z
  have hphi := ShapedArray.size_data_eq batch.shape_phi
  refine ShapedArray.eq_of_data rfl (Array.ext ?_ fun k hk hk' ↦ ?_)
  · simp [places, map, ShapedArray.map, ShapedArray.zipWith, ← hz, ← hphi]
  · simp [places, map, ShapedArray.map, ShapedArray.zipWith]

/-- The vertical coordinates are those of the places. -/
theorem z_eq_map (batch : Batch α) : batch.z = batch.places.map (·.z) := by
  have hz := ShapedArray.size_data_eq batch.shape_z
  have hphi := ShapedArray.size_data_eq batch.shape_phi
  refine ShapedArray.eq_of_data batch.shape_z.symm (Array.ext ?_ fun k hk hk' ↦ ?_)
  · simp [places, map, ShapedArray.map, ShapedArray.zipWith, ← hz, ← hphi]
  · simp [places, map, ShapedArray.map, ShapedArray.zipWith]

/-- A function of the radial coordinate maps the places. -/
theorem map_x_eq_map (batch : Batch α) (f : α → β) :
    batch.x.map f = batch.places.map fun p ↦ f p.x := by
  refine ShapedArray.eq_of_data rfl ?_
  conv_lhs => rw [x_eq_map]
  exact Array.map_map

section Damping

variable [Scalar α]

/-- Damping an array of values at the places damps each value at its place. -/
theorem applyEach_eq_map (batch : Batch α) (damping : EdgeDamping α) (f : Position α → α) :
    damping.applyEach (batch.places.map f) batch.x batch.z =
      batch.places.map fun p ↦ damping.apply (f p) p.x p.z := by
  rw [x_eq_map, z_eq_map]
  unfold EdgeDamping.applyEach EdgeDamping.apply
  cases damping.mode with
  | passThrough => rfl
  | damped =>
      refine ShapedArray.eq_of_data rfl (Array.ext ?_ fun k hk hk' ↦ ?_)
      · simp [ShapedArray.map, ShapedArray.mapIdx]
      · have hplace : k < batch.places.data.size := by
          simpa only [ShapedArray.map, Array.size_map] using hk'
        simp [ShapedArray.map, ShapedArray.mapIdx, Scalar.nth, hplace]

end Damping

variable [ElementaryScalar α]

/-- The radial components of a batch are those of its places. -/
theorem radial_eq_map (field : MagneticField α) (batch : Batch α) :
    batch.radial field = batch.places.map field.radial := by
  induction field with
  | uniform => exact batch.constant_eq_map 0
  | slab s => exact batch.constant_eq_map 0
  | curvedSlab s => exact batch.constant_eq_map 0
  | smoothed inner damping ih =>
      rw [radial, ih]
      exact batch.applyEach_eq_map damping inner.radial
  | lineCurrents coils => exact batch.map_eq_map _
  | straightStellarator coils => exact batch.map_eq_map _
  | rotatingEllipse coils bTor => exact batch.map_eq_map _
  | flux e => exact batch.map_eq_map _
  | spectral e => exact batch.map_eq_map _

/-- The toroidal components of a batch are those of its places. -/
theorem toroidal_eq_map (field : MagneticField α) (batch : Batch α) :
    batch.toroidal field = batch.places.map field.toroidal := by
  induction field with
  | uniform => exact batch.constant_eq_map 1
  | slab s => exact batch.constant_eq_map s.bY
  | curvedSlab s => exact batch.constant_eq_map s.bY
  | lineCurrents coils => exact batch.constant_eq_map 1
  | straightStellarator coils => exact batch.constant_eq_map 1
  | rotatingEllipse coils bTor => exact batch.map_x_eq_map _
  | smoothed inner damping ih => exact ih
  | flux e => exact batch.map_eq_map _
  | spectral e => exact batch.map_eq_map _

/-- The vertical components of a batch are those of its places. -/
theorem vertical_eq_map (field : MagneticField α) (batch : Batch α) :
    batch.vertical field = batch.places.map field.vertical := by
  induction field with
  | uniform => exact batch.constant_eq_map 0
  | slab s => exact batch.map_x_eq_map _
  | curvedSlab s => exact batch.map_x_eq_map _
  | smoothed inner damping ih =>
      rw [vertical, ih]
      exact batch.applyEach_eq_map damping inner.vertical
  | lineCurrents coils => exact batch.map_eq_map _
  | straightStellarator coils => exact batch.map_eq_map _
  | rotatingEllipse coils bTor => exact batch.map_eq_map _
  | flux e => exact batch.map_eq_map _
  | spectral e => exact batch.map_eq_map _

/-- The pressures of a batch are those of its places. -/
theorem pressure_eq_map (field : MagneticField α) (batch : Batch α) :
    batch.pressure field = batch.places.map field.pressure := by
  induction field with
  | flux e => exact batch.map_eq_map _
  | smoothed inner damping ih => exact ih
  | _ => exact batch.constant_eq_map 0

/-- The magnitudes of a batch are those of its places. -/
theorem magnitude_eq_map (field : MagneticField α) (batch : Batch α) :
    batch.magnitude field = batch.places.map field.magnitude := by
  refine ShapedArray.eq_of_data (shape_radial field batch) ?_
  simp only [magnitude, ShapedArray.zipWith, radial_eq_map, toroidal_eq_map, vertical_eq_map,
    ShapedArray.map, Array.zipWith_map, Array.zipWith_self]
  rfl

omit [ElementaryScalar α] in
/-- The major radii of a batch, if the field has any, are those of its places. -/
theorem majorRadius?_eq_map (field : MagneticField α) (batch : Batch α) :
    batch.majorRadius? field = field.majorRadius?.map batch.places.map := by
  induction field with
  | curvedSlab s => exact congrArg some (batch.constant_eq_map s.rMaj)
  | rotatingEllipse coils bTor => exact congrArg some batch.x_eq_map
  | flux e => exact congrArg some batch.x_eq_map
  | spectral e => exact congrArg some batch.x_eq_map
  | smoothed inner damping ih => exact ih
  | _ => rfl

/-- The values of an attribute on a batch, if the field has it, are those at its places. -/
theorem attribute?_eq_map (field : MagneticField α) (name : String) (batch : Batch α) :
    batch.attribute? field name = (field.attribute? name).map batch.places.map := by
  induction field with
  | smoothed inner damping ih => exact ih
  | _ => exact congrArg (Option.map · _) (funext fun f ↦ batch.map_eq_map f)

/-! ## Rearranged batches -/

/-- An evaluation computes a value place by place: its result has the shape of the batch and, at
each index, the value at the place there, which is what the batch with that place as its only one
gives. So it does not matter how places are arranged in batches. When every index of a batch holds a
place of one of several others, as it does after permuting, splitting or joining batches along any
axis, the values are found where the places were; a new shape for the same places keeps the values,
and a batch continued by another has the values of both. -/
structure IsElementwise (evaluate : Batch α → ShapedArray α) (value : Position α → α) : Prop where
  shape : ∀ batch, (evaluate batch).shape = batch.shape
  single : ∀ batch index p, batch.place? index = some p →
    (evaluate batch).get? index = some (value p) ∧ (evaluate (single p)).data = #[value p]
  rearranged : ∀ {ι : Type} (batch : Batch α) (parts : ι → Batch α)
    (source : List ℕ → ι × List ℕ),
    (∀ index p, batch.place? index = some p →
      (parts (source index).1).place? (source index).2 = some p) →
    ∀ index v, (evaluate batch).get? index = some v →
      (evaluate (parts (source index).1)).get? (source index).2 = some v
  reshaped : ∀ batch old : Batch α, batch.x.data = old.x.data → batch.z.data = old.z.data →
    batch.phi.data = old.phi.data → (evaluate batch).data = (evaluate old).data
  appended : ∀ batch front back : Batch α, batch.x.data = front.x.data ++ back.x.data →
    batch.z.data = front.z.data ++ back.z.data → batch.phi.data = front.phi.data ++ back.phi.data →
    (evaluate batch).data = (evaluate front).data ++ (evaluate back).data

/-- An evaluation that may be absent is so for every batch or for none, and computes a value place
by place. -/
def IsElementwiseOrAbsent (evaluate : Batch α → Option (ShapedArray α)) :
    Option (Position α → α) → Prop
  | none => ∀ batch, evaluate batch = none
  | some value =>
    ∃ values, IsElementwise values value ∧ ∀ batch, evaluate batch = some (values batch)

omit [ElementaryScalar α] in
/-- The places of a batch from its coordinates. -/
theorem data_places (batch : Batch α) : batch.places.data =
    (batch.x.data.zipWith Prod.mk batch.z.data).zipWith (fun p phi ↦ ⟨p.1, p.2, phi⟩)
      batch.phi.data :=
  rfl

omit [ElementaryScalar α] in
/-- Mapping the places goes place by place. -/
theorem isElementwise_of_eq_map {evaluate : Batch α → ShapedArray α} {f : Position α → α}
    (h : ∀ batch, evaluate batch = batch.places.map f) : IsElementwise evaluate f where
  shape batch := by rw [h]; rfl
  single batch index p hp := by
    rw [place?_eq] at hp
    constructor
    · rw [h, ShapedArray.get?_map, hp]
      rfl
    · rw [h]
      show (single p).places.data.map f = #[f p]
      rw [data_places_single, Array.map_singleton]
  rearranged batch parts source hsource index v hv := by
    rw [h, ShapedArray.get?_map, Option.map_eq_some_iff] at hv
    obtain ⟨p, hp, rfl⟩ := hv
    have hpart := hsource index p (batch.place?_eq index ▸ hp)
    rw [place?_eq] at hpart
    rw [h, ShapedArray.get?_map, hpart]
    rfl
  reshaped batch old hx hz hphi := by
    rw [h, h]
    show batch.places.data.map f = old.places.data.map f
    rw [data_places, data_places, hx, hz, hphi]
  appended batch front back hx hz hphi := by
    have hsize : front.x.data.size = front.z.data.size := ShapedArray.size_data_eq front.shape_z
    have hsize' : (front.x.data.zipWith Prod.mk front.z.data).size = front.phi.data.size := by
      rw [Array.size_zipWith, ← hsize, Nat.min_self]
      exact ShapedArray.size_data_eq front.shape_phi
    rw [h, h, h]
    show batch.places.data.map f = front.places.data.map f ++ back.places.data.map f
    rw [data_places, data_places, data_places, hx, hz, hphi, Array.zipWith_append hsize,
      Array.zipWith_append hsize', Array.map_append]

omit [ElementaryScalar α] in
/-- An optional map over the places goes place by place. -/
theorem isElementwiseOrAbsent_of_eq_map {evaluate : Batch α → Option (ShapedArray α)}
    {f? : Option (Position α → α)} (h : ∀ batch, evaluate batch = f?.map batch.places.map) :
    IsElementwiseOrAbsent evaluate f? := by
  cases f? with
  | none => exact h
  | some f => exact ⟨fun batch ↦ batch.places.map f, isElementwise_of_eq_map fun _ ↦ rfl, h⟩

/-- Currents have their potential as their one attribute. -/
theorem isSome_potentialAttribute?_iff (coils : List (LineCurrent α)) (name : String) :
    (MagneticField.potentialAttribute? coils name).isSome ↔ name ∈ ["A"] := by
  rw [MagneticField.potentialAttribute?, List.mem_singleton]
  split_ifs with h <;> simp [h]

/-- A field has the attributes that it names. -/
theorem isSome_attribute?_iff (field : MagneticField α) (name : String) :
    (field.attribute? name).isSome ↔ name ∈ field.attributes := by
  induction field with
  | lineCurrents coils => exact isSome_potentialAttribute?_iff coils name
  | straightStellarator coils => exact isSome_potentialAttribute?_iff coils name
  | rotatingEllipse coils bTor => exact isSome_potentialAttribute?_iff coils name
  | flux e =>
      rw [MagneticField.attribute?, MagneticField.attributes]
      split_ifs <;> simp_all
  | smoothed inner damping ih => exact ih
  | _ => simp [MagneticField.attribute?, MagneticField.attributes]

/-- Every field evaluates every quantity place by place; whether it has a major radius does not
depend on the batch, and it has a value for an attribute just if it names it. -/
theorem isElementwise_evaluators (field : MagneticField α) :
    IsElementwise (radial field) field.radial ∧ IsElementwise (toroidal field) field.toroidal ∧
    IsElementwise (vertical field) field.vertical ∧ IsElementwise (pressure field) field.pressure ∧
    IsElementwise (magnitude field) field.magnitude ∧
    IsElementwiseOrAbsent (majorRadius? field) field.majorRadius? ∧
    ∀ name, IsElementwiseOrAbsent (attribute? field name) (field.attribute? name) ∧
      ∀ batch, (attribute? field name batch).isSome ↔ name ∈ field.attributes := by
  refine ⟨isElementwise_of_eq_map (radial_eq_map field),
    isElementwise_of_eq_map (toroidal_eq_map field),
    isElementwise_of_eq_map (vertical_eq_map field),
    isElementwise_of_eq_map (pressure_eq_map field),
    isElementwise_of_eq_map (magnitude_eq_map field),
    isElementwiseOrAbsent_of_eq_map (majorRadius?_eq_map field), fun name ↦
      ⟨isElementwiseOrAbsent_of_eq_map (attribute?_eq_map field name), fun batch ↦ ?_⟩⟩
  rw [attribute?_eq_map, Option.isSome_map]
  exact isSome_attribute?_iff field name

end Batch

end PlasmaField
