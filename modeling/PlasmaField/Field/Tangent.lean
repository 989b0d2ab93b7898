import PlasmaField.Field.Batch

/-!
# Tangents of field lines

Along a field line the poloidal coordinates change with the toroidal coordinate at the rates
`R · Bx / By` and `R · Bz / By`, where the major radius `R` is left out in a geometry without
curvature. Where `By` is too small the rates are useless: a batch with such points fails, or goes on
with one warning, as the policy says. Positions come as interleaved pairs or as an array whose
leading axis separates the two coordinates, and tangents leave in the same form.
-/

namespace PlasmaField

open Scalar (nth)

/-- What happens to a batch in which the toroidal component is too small somewhere. -/
inductive DegeneracyPolicy where
  | fail
  | warn
  deriving DecidableEq, Repr

/-- Positions in the poloidal plane: interleaved pairs, or an array whose leading axis of length two
separates the coordinates. -/
inductive Positions (α : Type) where
  | flat (interleaved : Array α)
  | stacked (coordinates : ShapedArray α)

/-- Tangents, in the form of the positions that they belong to. -/
inductive Tangents (α : Type) where
  | flat (interleaved : Array α)
  | split (dx dz : ShapedArray α)

namespace Positions

variable {α : Type} [Scalar α]

/-- The pairs of an interleaved array. -/
def pairs (xs : Array α) : ShapedArray (α × α) :=
  .vector (Array.ofFn fun k : Fin (xs.size / 2) ↦ (nth xs (2 * k), nth xs (2 * k + 1)))

/-- The pairs of an array of two blocks. -/
def blocks (shape : List Nat) (xs : Array α) : ShapedArray (α × α) :=
  let n := ShapedArray.volume shape
  ⟨shape, Array.ofFn fun k : Fin n ↦ (nth xs k, nth xs (n + k)), by simp [n]⟩

/-- The positions as an array of pairs. -/
def places : Positions α → Except (FieldError α) (ShapedArray (α × α))
  | .flat xs =>
    if xs.size % 2 = 0 then .ok (pairs xs) else .error (.shape (.oddFlatLength xs.size))
  | .stacked a =>
    match a.shape with
    | 2 :: rest => .ok (blocks rest a.data)
    | shape => .error (.shape (.notStacked shape))

end Positions

namespace MagneticField

variable {α : Type} [ElementaryScalar α]

/-- Toroidal components of smaller magnitude are degenerate. -/
def degeneracyThreshold : α := 1e-8

/-- The toroidal component is below the threshold, or no number. -/
def isDegenerate (b : α) : Bool :=
  !(degeneracyThreshold ≤ Scalar.abs b)

/-- The smallest magnitude of a list of components, which those that are no numbers do not count
for. -/
def smallest? (bs : List α) : Option α :=
  bs.foldl (fun seen b ↦
    let a := Scalar.abs b
    match seen with
    | none => if Scalar.isNaN a then none else some a
    | some least => if a < least then some a else some least) none

/-- The number of degenerate components among the given ones, or the failure that they make under
the policy. -/
def checkDegeneracy (components : List α) (policy : DegeneracyPolicy) :
    Except (FieldError α) Nat :=
  let count := components.countP isDegenerate
  if count ≠ 0 ∧ policy = .fail then
    .error (.degenerate count (smallest? components) degeneracyThreshold)
  else .ok count

/-- What the poloidal components are multiplied by at each place: the major radius over the toroidal
component, where one stands for the radius in a geometry without curvature. -/
def scale (field : MagneticField α) (batch : Batch α) : ShapedArray α :=
  let bs := batch.toroidal field
  match h : batch.majorRadius? field with
  | some r => r.zipWith (· / ·) bs (by rw [Batch.shape_majorRadius? h, Batch.shape_toroidal])
  | none => bs.map (1 / ·)

/-- Every place of a batch has its factor. -/
@[simp]
theorem shape_scale (field : MagneticField α) (batch : Batch α) :
    (scale field batch).shape = batch.shape := by
  unfold scale
  split
  · next r h =>
      show r.shape = batch.shape
      exact Batch.shape_majorRadius? h
  · exact Batch.shape_toroidal field batch

/-- The rates of change of the two poloidal coordinates at given positions and one toroidal
coordinate, with the number of warnings: one if the policy lets degenerate places pass and there are
some. -/
def rates (field : MagneticField α) (positions : Positions α) (y : α)
    (policy : DegeneracyPolicy) :
    Except (FieldError α) (ShapedArray α × ShapedArray α × Nat) := do
  let batch := Batch.atAngle (← positions.places) y
  let count ← checkDegeneracy (batch.toroidal field).data.toList policy
  let dx := (batch.radial field).zipWith (· * ·) (scale field batch) (by simp)
  let dz := (batch.vertical field).zipWith (· * ·) (scale field batch) (by simp)
  return (dx, dz, if count = 0 then 0 else 1)

/-- The pairs of an array, one after the other. -/
def interleave (pairs : Array (α × α)) : Array α :=
  pairs.flatMap fun t ↦ #[t.1, t.2]

/-- The tangents at given positions, in their form, with the number of warnings. -/
def tangents (field : MagneticField α) (positions : Positions α) (y : α)
    (policy : DegeneracyPolicy) : Except (FieldError α) (Tangents α × Nat) := do
  let (dx, dz, warnings) ← field.rates positions y policy
  match positions with
  | .flat _ => return (.flat (interleave (dx.data.zip dz.data)), warnings)
  | .stacked _ => return (.split dx dz, warnings)

/-- The tangents at interleaved positions, as an interleaved array. -/
def tangentsAlong (field : MagneticField α) (positions : Array α) (y : α)
    (policy : DegeneracyPolicy) : Except (FieldError α) (Array α × Nat) := do
  match ← field.tangents (.flat positions) y policy with
  | (.flat rates, warnings) => return (rates, warnings)
  | (.split _ _, _) => throw (.shape .splitTangents)

end MagneticField

end PlasmaField
