import Mathlib
import PlasmaField.Scattered
import PlasmaField.Proofs.Delaunay.Enclosure
import PlasmaField.Proofs.Outcome

/-!
# The construction of an interpolant

The points that are kept are input points, in their order. Unless they are all the same the input
has an extent, `sideOf_pos`, and an interpolant is constructed when the kept points can be
triangulated, `ofPoints_eq_ok_iff`.
-/

namespace PlasmaField.Scattered

open scoped Exact
open Delaunay (pointAt boundingBox)

/-- What holds of a list if it holds of the members after the first that are not repetitions of it,
holds of every list. -/
theorem eraseDupsBy_induction {β : Type} (r : β → β → Bool) {motive : List β → Prop}
    (nil : motive [])
    (cons : ∀ a l, motive (l.filter fun b ↦ r b a = false) → motive (a :: l)) (l : List β) :
    motive l := by
  induction hlength : l.length using Nat.strong_induction_on generalizing l with
  | _ n ih =>
      cases l with
      | nil => exact nil
      | cons a l =>
          have hlt : (l.filter fun b ↦ r b a = false).length < n := by
            rw [← hlength, List.length_cons]
            exact Nat.lt_succ_of_le (List.length_filter_le _ _)
          exact cons a l (ih _ hlt _ rfl)

/-- Dropping repeated members keeps the order. -/
theorem eraseDupsBy_sublist {β : Type} (r : β → β → Bool) (l : List β) :
    (l.eraseDupsBy r).Sublist l := by
  induction l using eraseDupsBy_induction r with
  | nil => exact List.Sublist.refl _
  | cons a l ih =>
      rw [List.eraseDupsBy_cons]
      exact (ih.trans List.filter_sublist).cons_cons a

variable {K : Type} [Field K] [LinearOrder K] [FloorRing K]

/-- The larger side of the points' bounding box. -/
def sideOf (points : Array (Point K)) : K :=
  max ((boundingBox points.toList).x₁ - (boundingBox points.toList).x₀)
    ((boundingBox points.toList).y₁ - (boundingBox points.toList).y₀)

/-- The points that are kept, with their numbers among the input points. -/
def keptOf (points : Array (Point K)) : List (Point K × ℕ) :=
  distinct (boundingBox points.toList).x₀ (boundingBox points.toList).y₀
    (sideOf points * mergeDistance) points

/-- The points that are kept. -/
def kept (points : Array (Point K)) : Array (Point K) :=
  ((keptOf points).map (·.1)).toArray

/-- The interpolant over points, if they can be triangulated. -/
def interpolantOf (points : Array (Point K)) : Scattered K :=
  ⟨kept points, Delaunay.triangulate (kept points), ((keptOf points).map (·.2)).toArray,
    points.size, boundingBox points.toList,
    Buckets.ofTriangles (kept points) (Delaunay.triangulate (kept points))⟩

/-- The points are kept in their order. -/
theorem keptOf_sublist (points : Array (Point K)) :
    (keptOf points).Sublist points.toList.zipIdx := by
  have hsquare : (points.toList.zipIdx.map fun p ↦ (square (boundingBox points.toList).x₀
      (boundingBox points.toList).y₀ (sideOf points * mergeDistance) p.1, p)).map (·.2) =
      points.toList.zipIdx := by
    rw [List.map_map]
    exact List.map_id _
  unfold keptOf distinct
  refine ((eraseDupsBy_sublist _ _).map _).trans ?_
  rw [hsquare]

/-- Every point that is kept is an input point. -/
theorem pointAt_kept_mem {points : Array (Point K)} {i : ℕ} (hi : i < (kept points).size) :
    pointAt (kept points) i ∈ points.toList := by
  have hmem : pointAt (kept points) i ∈ (kept points).toList := by
    simp [pointAt, Array.getD_eq_getD_getElem?, hi]
  have hsub := (keptOf_sublist points).map Prod.fst
  rw [List.zipIdx_map_fst] at hsub
  exact hsub.subset hmem

/-- The construction fails on points without an extent and on points without a triangle. -/
theorem ofPoints_eq (points : Array (Point K)) : ofPoints points =
    if points.isEmpty || !(0 < sideOf points : Bool) then
      .error (.shape (.fewScattered points.size))
    else if (Delaunay.triangulate (kept points)).isEmpty then
      .error (.shape (.untriangulated (kept points).size))
    else .ok (interpolantOf points) := by
  have hfinite : ¬ (points.any fun p ↦ !Scalar.isFinite p.x || !Scalar.isFinite p.y) = true := by
    rw [Array.any_eq_true]
    rintro ⟨i, hi, h⟩
    cases h
  unfold ofPoints
  rw [if_neg hfinite]
  simp only [Exact.max_eq, Exact.literal_zero]
  by_cases hextent : (points.isEmpty || !(0 < sideOf points : Bool)) = true
  · rw [if_pos hextent]
    exact if_pos hextent
  · rw [if_neg hextent]
    refine (if_neg hextent).trans ?_
    by_cases hempty : (Delaunay.triangulate (kept points)).isEmpty = true
    · rw [if_pos hempty]
      exact if_pos hempty
    · rw [if_neg hempty]
      exact if_neg hempty

/-- An interpolant is constructed over points that have an extent and can be triangulated. -/
theorem ofPoints_eq_ok_iff {points : Array (Point K)} {s : Scattered K} :
    ofPoints points = .ok s ↔ points ≠ #[] ∧ 0 < sideOf points ∧
      Delaunay.triangulate (kept points) ≠ [] ∧ s = interpolantOf points := by
  rw [ofPoints_eq]
  split_ifs with hextent hempty
  · have hnone : ¬ (points ≠ #[] ∧ 0 < sideOf points) := by simpa [imp_iff_not_or] using hextent
    exact iff_of_false (fun h ↦ by cases h) fun h ↦ hnone ⟨h.1, h.2.1⟩
  · exact iff_of_false (fun h ↦ by cases h) fun h ↦ h.2.2.1 (List.isEmpty_iff.mp hempty)
  · have hboth : points ≠ #[] ∧ 0 < sideOf points := by simpa [not_or] using hextent
    rw [Except.ok.injEq]
    exact ⟨fun h ↦ ⟨hboth.1, hboth.2, fun hnil ↦ hempty (List.isEmpty_iff.mpr hnil), h.symm⟩,
      fun h ↦ h.2.2.2.symm⟩

/-- The construction that succeeds gives the interpolant over the points. -/
theorem ofPoints_of_isOk {points : Array (Point K)} (h : (ofPoints points).isOk = true) :
    ofPoints points = .ok (interpolantOf points) := by
  obtain ⟨s, hs⟩ := Outcome.exists_of_isOk h
  obtain ⟨-, -, -, rfl⟩ := ofPoints_eq_ok_iff.mp hs
  exact hs

section Ordered

variable [IsStrictOrderedRing K] {points : Array (Point K)}

/-- Points of which two different ones are kept have an extent. -/
theorem sideOf_pos {i j : ℕ} (hi : i < (kept points).size) (hj : j < (kept points).size)
    (hne : pointAt (kept points) i ≠ pointAt (kept points) j) : 0 < sideOf points := by
  have hbox := Delaunay.isBoundingBox_boundingBox (List.ne_nil_of_mem (pointAt_kept_mem hi))
  by_contra hside
  obtain ⟨hx, hy⟩ := max_le_iff.mp (not_lt.mp hside)
  have hsame : ∀ {v}, v < (kept points).size → pointAt (kept points) v =
      ⟨(boundingBox points.toList).x₀, (boundingBox points.toList).y₀⟩ := by
    intro v hv
    obtain ⟨hx₀, hx₁⟩ := hbox.mem_x _ (pointAt_kept_mem hv)
    obtain ⟨hy₀, hy₁⟩ := hbox.mem_y _ (pointAt_kept_mem hv)
    have hleft : (pointAt (kept points) v).x = (boundingBox points.toList).x₀ := by linarith
    have hbottom : (pointAt (kept points) v).y = (boundingBox points.toList).y₀ := by linarith
    calc pointAt (kept points) v = ⟨(pointAt (kept points) v).x, (pointAt (kept points) v).y⟩ := rfl
      _ = _ := by rw [hleft, hbottom]
  exact hne ((hsame hi).trans (hsame hj).symm)

end Ordered

end PlasmaField.Scattered
