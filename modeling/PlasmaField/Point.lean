import PlasmaField.Scalar

/-!
# Points of the plane

A `Point` is a pair of coordinates. Two points are at the same place when their coordinates compare
as equal, so that the two zeros are one place and a coordinate that is no number is at none.
-/

namespace PlasmaField

/-- A point of the plane. -/
structure Point (α : Type) where
  x : α
  y : α

/-- Two points have equal coordinates. -/
def Point.samePlace {α : Type} [Scalar α] (p q : Point α) : Bool :=
  p.x == q.x && p.y == q.y

end PlasmaField
