import PlasmaField.Field

/-!
# Batches of points

A batch is an array of places, given by three coordinate arrays of one shape. A quantity evaluated
on a batch is an array of the batch's shape. Each field evaluates a batch in its own way: constant
components are filled in, others are computed from one coordinate array or from all three, and a
wrapper damps the arrays of the field that it wraps.
-/

namespace PlasmaField

/-- An array of places, by their coordinates. -/
structure Batch (α : Type) where
  x : ShapedArray α
  z : ShapedArray α
  phi : ShapedArray α
  shape_z : x.shape = z.shape
  shape_phi : x.shape = phi.shape

namespace Batch

variable {α β : Type}

/-- The batch with the given coordinates, which must have one shape. -/
def ofCoordinates (x z phi : ShapedArray α) : Except (FieldError α) (Batch α) :=
  if h : x.shape = z.shape ∧ x.shape = phi.shape then .ok ⟨x, z, phi, h.1, h.2⟩
  else .error (.shape (.coordinateShapes x.shape z.shape phi.shape))

/-- The places of a poloidal plane at one toroidal coordinate. -/
def atAngle (places : ShapedArray (α × α)) (phi : α) : Batch α :=
  ⟨places.map (·.1), places.map (·.2), .replicate places.shape phi, rfl, rfl⟩

/-- The shape of the coordinate arrays. -/
def shape (batch : Batch α) : List Nat :=
  batch.x.shape

/-- The number of places. -/
def size (batch : Batch α) : Nat :=
  batch.x.size

/-- The same value at every place. -/
def constant (batch : Batch α) (v : β) : ShapedArray β :=
  .replicate batch.shape v

/-- The value of a function at every place. -/
def map (f : Position α → β) (batch : Batch α) : ShapedArray β :=
  (batch.x.zipWith Prod.mk batch.z batch.shape_z).zipWith (fun p phi ↦ f ⟨p.1, p.2, phi⟩) batch.phi
    (by rw [ShapedArray.shape_zipWith, batch.shape_phi])

/-- Filling in a value gives the shape of the batch. -/
@[simp]
theorem shape_constant (batch : Batch α) (v : β) : (batch.constant v).shape = batch.shape :=
  rfl

/-- Evaluating a function gives the shape of the batch. -/
@[simp]
theorem shape_map (batch : Batch α) (f : Position α → β) : (batch.map f).shape = batch.shape :=
  rfl

variable [ElementaryScalar α]

/-- The radial components. -/
def radial : MagneticField α → Batch α → ShapedArray α
  | .uniform, batch => batch.constant 0
  | .slab _, batch => batch.constant 0
  | .curvedSlab _, batch => batch.constant 0
  | .smoothed inner damping, batch => damping.applyEach (radial inner batch) batch.x batch.z
  | field, batch => batch.map field.radial

/-- The toroidal components. -/
def toroidal : MagneticField α → Batch α → ShapedArray α
  | .uniform, batch => batch.constant 1
  | .slab s, batch => batch.constant s.bY
  | .curvedSlab s, batch => batch.constant s.bY
  | .lineCurrents _, batch => batch.constant 1
  | .straightStellarator _, batch => batch.constant 1
  | .rotatingEllipse _ bTor, batch => batch.x.map (bTor / ·)
  | .smoothed inner _, batch => toroidal inner batch
  | field, batch => batch.map field.toroidal

/-- The vertical components. -/
def vertical : MagneticField α → Batch α → ShapedArray α
  | .uniform, batch => batch.constant 0
  | .slab s, batch => batch.x.map (MagneticField.sheared s.bZ s.xCentre s.bZPrime)
  | .curvedSlab s, batch => batch.x.map (MagneticField.sheared s.bZ s.xCentre s.bZPrime)
  | .smoothed inner damping, batch => damping.applyEach (vertical inner batch) batch.x batch.z
  | field, batch => batch.map field.vertical

/-- The pressures. -/
def pressure : MagneticField α → Batch α → ShapedArray α
  | .flux e, batch => batch.map fun p ↦ e.pressureAt p.x p.z
  | .smoothed inner _, batch => pressure inner batch
  | _, batch => batch.constant 0

/-- The major radii, for a field in cylindrical geometry. -/
def majorRadius? : MagneticField α → Batch α → Option (ShapedArray α)
  | .curvedSlab s, batch => some (batch.constant s.rMaj)
  | .rotatingEllipse _ _, batch => some batch.x
  | .flux _, batch => some batch.x
  | .spectral _, batch => some batch.x
  | .smoothed inner _, batch => majorRadius? inner batch
  | _, _ => none

/-- The values of an attribute, if the field has it. -/
def attribute? : MagneticField α → String → Batch α → Option (ShapedArray α)
  | .smoothed inner _, name, batch => attribute? inner name batch
  | field, name, batch => (field.attribute? name).map batch.map

/-- The radial components have the shape of the batch. -/
@[simp]
theorem shape_radial (field : MagneticField α) (batch : Batch α) :
    (batch.radial field).shape = batch.shape := by
  induction field with
  | smoothed inner damping ih => rw [radial, EdgeDamping.shape_applyEach, ih]
  | _ => rfl

/-- The toroidal components have the shape of the batch. -/
@[simp]
theorem shape_toroidal (field : MagneticField α) (batch : Batch α) :
    (batch.toroidal field).shape = batch.shape := by
  induction field with
  | smoothed inner damping ih => exact ih
  | _ => rfl

/-- The vertical components have the shape of the batch. -/
@[simp]
theorem shape_vertical (field : MagneticField α) (batch : Batch α) :
    (batch.vertical field).shape = batch.shape := by
  induction field with
  | smoothed inner damping ih => rw [vertical, EdgeDamping.shape_applyEach, ih]
  | _ => rfl

omit [ElementaryScalar α] in
/-- The major radii have the shape of the batch. -/
theorem shape_majorRadius? {field : MagneticField α} {batch : Batch α} {r : ShapedArray α}
    (h : batch.majorRadius? field = some r) : r.shape = batch.shape := by
  induction field with
  | smoothed inner damping ih => exact ih h
  | _ => cases h <;> rfl

/-- The magnitudes. -/
def magnitude (field : MagneticField α) (batch : Batch α) : ShapedArray α :=
  let x := batch.radial field
  let y := batch.toroidal field
  let z := batch.vertical field
  (x.zipWith Prod.mk y (by simp [x, y])).zipWith
    (fun p z ↦ ElementaryScalar.sqrt (p.1 * p.1 + p.2 * p.2 + z * z)) z (by simp [x, z])

end Batch

end PlasmaField
