import Mathlib
import PlasmaField.Orientation
import PlasmaField.Proofs.Exact

/-!
# The side of a turn in exact arithmetic

Exact sums, differences and products have no rounding errors, so the expansions of the refined
determinant hold nothing but the determinant, and a path turns to the side that the determinant's
sign tells, `turn_eq_cmp`.
-/

namespace PlasmaField.Orientation

open scoped Exact

variable {K : Type} [Field K] [LinearOrder K] [FloorRing K]

/-- An exact sum has no error. -/
theorem sum_eq (a b : K) : sum a b = ⟨a + b, 0⟩ := by
  have herror : a - (a + b - (a + b - a)) + (b - (a + b - a)) = 0 := by ring
  exact congrArg (Rounded.mk (a + b)) herror

/-- An exact difference has no error. -/
theorem difference_eq (a b : K) : difference a b = ⟨a - b, 0⟩ := by
  have herror : a - (a - b + (a - (a - b))) + (a - (a - b) - b) = 0 := by ring
  exact congrArg (Rounded.mk (a - b)) herror

/-- All digits of an exact scalar are in its leading half. -/
theorem halves_eq (a : K) : halves a = (a, 0) := by
  have hhigh (c : K) : c - (c - a) = a := sub_sub_self c a
  unfold halves
  simp only [hhigh, sub_self]

/-- An exact product has no error. -/
theorem product_eq (a b : K) : product a b = ⟨a * b, 0⟩ := by
  unfold product
  simp only [halves_eq]
  simp

/-- The difference of exact results as an expansion. -/
theorem minus_eq (p q : K) : Rounded.minus ⟨p, 0⟩ ⟨q, 0⟩ = [0, 0, 0, p - q] := by
  unfold Rounded.minus
  simp only [difference_eq, sum_eq]
  simp [sub_eq_add_neg]

/-- The determinant of the coordinate differences. -/
theorem determinant_eq (a b c : Point K) :
    determinant a b c = (a.x - c.x) * (b.y - c.y) - (a.y - c.y) * (b.x - c.x) := by
  have hrefined (size : K) : refinedDeterminant a b c size =
      (a.x - c.x) * (b.y - c.y) - (a.y - c.y) * (b.x - c.x) := by
    unfold refinedDeterminant
    simp only [difference_eq, product_eq, minus_eq]
    simp
  unfold determinant
  dsimp only
  split
  · rfl
  · exact hrefined _

/-- A path turns to the side of the determinant's sign. -/
theorem turn_eq_cmp (a b c : Point K) :
    turn a b c = cmp ((a.x - c.x) * (b.y - c.y) - (a.y - c.y) * (b.x - c.x)) 0 := by
  unfold turn
  rw [determinant_eq, Exact.literal_zero]
  rfl

end PlasmaField.Orientation
