import Mathlib
import PlasmaField.Proofs.Scattered.Location

/-!
# The search by buckets

Only the triangles in the bucket of a target are tested, and only targets in the box of the input
points. This loses no triangle that the target lies on: every triangle that passes the test and has
the target in its own box is among those tested, and a triangle that holds the target has it in its
box, `ofPoints_findsHolders`.
-/

namespace PlasmaField.Scattered

open scoped Exact
open Delaunay (pointAt boundingBox IsBoundingBox isBoundingBox_boundingBox InBox triangulate)

variable {K : Type} [Field K] [LinearOrder K] [FloorRing K]

/-- The search finds a triangle for every target that lies on one, and for every target that has a
triangle which passes the test in whose box it is. What it finds is what the test gives on one of
the triangles. -/
structure FindsHolders (s : Scattered K) : Prop where
  holder : ∀ x y, (∃ t ∈ s.triangles, ∃ w, weightsOn? s.points t x y = some w ∧
    0 ≤ w.1 ∧ 0 ≤ w.2.1 ∧ 0 ≤ w.2.2) → ∃ e, s.locate x y = some e
  boxed : ∀ x y, (∃ t ∈ s.triangles, InBox (Buckets.ownBox s.points t) ⟨x, y⟩ ∧
    ∃ e, s.stencilOn? x y t = some e) → ∃ e, s.locate x y = some e
  tested : ∀ x y e, s.locate x y = some e → ∃ t ∈ s.triangles, s.stencilOn? x y t = some e

/-- The search over every interpolant that is constructed finds the triangles that hold targets. -/
theorem ofPoints_findsHolders [IsStrictOrderedRing K] {points : Array (Point K)} {s : Scattered K}
    (h : ofPoints points = .ok s) : FindsHolders s := by
  obtain ⟨-, -, -, rfl⟩ := ofPoints_eq_ok_iff.mp h
  refine ⟨?holder, ?boxed, ?tested⟩
  case holder =>
    rintro x y ⟨t, ht, w, hw, hnonneg⟩
    obtain ⟨hthin, rfl, -⟩ := weightsOn?_eq_some_iff.mp hw
    exact exists_locate (q := ⟨x, y⟩) ht hthin hnonneg
  case boxed =>
    rintro x y ⟨t, ht, hbox, e, he⟩
    exact exists_locate_of_inBox (q := ⟨x, y⟩) ht hbox he
  case tested =>
    intro x y e he
    unfold locate at he
    split at he
    next =>
      obtain ⟨t, hcandidate, hstencil⟩ := List.exists_of_findSome?_eq_some he
      have hcandidates : (interpolantOf points).buckets.candidates x y = _ :=
        Buckets.candidates_ofTriangles rfl x y
      rw [hcandidates] at hcandidate
      exact ⟨t, (List.mem_filter.mp hcandidate).1, hstencil⟩
    next => cases he

/-- Five points, of which the last one is merged into the second, and a target on one of their
triangles. -/
theorem ofPoints_five_findsHolders :
    ∃ s, ofPoints #[(⟨0, 0⟩ : Point ℚ), ⟨4, 0⟩, ⟨1, 3⟩, ⟨2, 1⟩, ⟨4, 0⟩] = .ok s ∧
      FindsHolders s ∧ ∃ e, s.locate 2 (1 / 2) = some e := by
  set points := #[(⟨0, 0⟩ : Point ℚ), ⟨4, 0⟩, ⟨1, 3⟩, ⟨2, 1⟩, ⟨4, 0⟩]
  have hok : ofPoints points = .ok (interpolantOf points) := ofPoints_of_isOk (by decide +kernel)
  have hholder : ((interpolantOf points).triangles.any fun t ↦
      (weightsOn? (interpolantOf points).points t 2 (1 / 2)).any fun w ↦
        0 ≤ w.1 ∧ 0 ≤ w.2.1 ∧ 0 ≤ w.2.2) = true := by decide +kernel
  obtain ⟨t, ht, hweights⟩ := List.any_eq_true.mp hholder
  obtain ⟨w, hw, hnonneg⟩ := (Option.any_eq_true _ _).mp hweights
  have hfinds := ofPoints_findsHolders hok
  exact ⟨_, hok, hfinds, hfinds.holder 2 (1 / 2) ⟨t, ht, w, hw, of_decide_eq_true hnonneg⟩⟩

end PlasmaField.Scattered
