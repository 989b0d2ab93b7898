import Mathlib
import PlasmaField.Proofs.Delaunay.Hull
import PlasmaField.Proofs.Scattered.Buckets
import PlasmaField.Proofs.Scattered.Construction
import PlasmaField.Proofs.Scattered.Weights

/-!
# Targets in the hull

A target that a triangle holds is located, `exists_locate`, if the triangle is not too thin. The
triangles cover the hull of the points that are kept, so that the fill value is left to targets
outside it, `ofPoints_answersHull`.
-/

namespace PlasmaField.Scattered

open scoped Exact
open Delaunay (pointAt boundingBox Box IsBoundingBox isBoundingBox_boundingBox InBox triangulate
  hull Spans AllSpread EnclosureClear)

variable {K : Type} [Field K] [LinearOrder K] [FloorRing K] [IsStrictOrderedRing K]
  {points : Array (Point K)}

/-- A target that a triangle holds lies in every box around points that have the triangle's
corners. -/
theorem inBox_of_holds {box : Box K} {corners : List (Point K)}
    (hbox : IsBoundingBox box corners) {vertices : Array (Point K)} {t : Triangle K}
    (hcorners : ∀ i ∈ t.corners, pointAt vertices i ∈ corners) (hthin : ¬ Thin vertices t)
    {q : Point K} (hq : Holds vertices t q) : InBox box q := by
  have hne := orientation_ne_of_not_thin hthin
  obtain ⟨ha, hb, hc⟩ := hq
  obtain ⟨hta, htb, htc⟩ := (Delaunay.turned_self t).mem_corners
  exact hbox.inBox_of_mean (hcorners _ hta) (hcorners _ htb) (hcorners _ htc) ha hb hc
    (shares_sum hne q) (shares_x hne q) (shares_y hne q)

omit [Field K] [FloorRing K] [IsStrictOrderedRing K] in
/-- The box around some of the points lies in the box around all. -/
theorem inBox_of_subset {inner outer : Box K} {some all : List (Point K)}
    (hinner : IsBoundingBox inner some) (houter : IsBoundingBox outer all)
    (hsubset : ∀ p ∈ some, p ∈ all) {q : Point K} (hq : InBox inner q) : InBox outer q := by
  obtain ⟨left, hleft, hx₀⟩ := hinner.left
  obtain ⟨right, hright, hx₁⟩ := hinner.right
  obtain ⟨bottom, hbottom, hy₀⟩ := hinner.bottom
  obtain ⟨top, htop, hy₁⟩ := hinner.top
  have hleft := (houter.mem_x left (hsubset left hleft)).1
  have hright := (houter.mem_x right (hsubset right hright)).2
  have hbottom := (houter.mem_y bottom (hsubset bottom hbottom)).1
  have htop := (houter.mem_y top (hsubset top htop)).2
  exact ⟨⟨(hleft.trans_eq hx₀).trans hq.1.1, hq.1.2.trans (hx₁.symm.trans_le hright)⟩,
    (hbottom.trans_eq hy₀).trans hq.2.1, hq.2.2.trans (hy₁.symm.trans_le htop)⟩

/-- A target in the box of a triangle that passes the test is located. -/
theorem exists_locate_of_inBox {t : Triangle K} (ht : t ∈ triangulate (kept points)) {q : Point K}
    (hq : InBox (Buckets.ownBox (kept points) t) q) {e : Stencil K}
    (he : (interpolantOf points).stencilOn? q.x q.y t = some e) :
    ∃ e', (interpolantOf points).locate q.x q.y = some e' := by
  have hown : IsBoundingBox (Buckets.ownBox (kept points) t)
      (t.corners.map (pointAt (kept points))) :=
    isBoundingBox_boundingBox (by simp [Triangle.corners])
  have hkept : ∀ p ∈ t.corners.map (pointAt (kept points)), p ∈ points.toList := by
    intro p hp
    obtain ⟨i, hi, rfl⟩ := List.mem_map.mp hp
    exact pointAt_kept_mem ((Delaunay.mem_triangulate ht).2 i hi)
  have hinput : IsBoundingBox (boundingBox points.toList) points.toList := by
    obtain ⟨p, hp, -⟩ := hown.left
    exact isBoundingBox_boundingBox (List.ne_nil_of_mem (hkept p hp))
  obtain ⟨hx, hy⟩ := inBox_of_subset hown hinput hkept hq
  have hbox : (Scalar.within (interpolantOf points).box.x₀ (interpolantOf points).box.x₁ q.x &&
      Scalar.within (interpolantOf points).box.y₀ (interpolantOf points).box.y₁ q.y) = true :=
    (Bool.and_eq_true _ _).mpr ⟨Exact.within_iff.mpr hx, Exact.within_iff.mpr hy⟩
  unfold locate
  rw [if_pos hbox, ← Option.isSome_iff_exists, List.findSome?_isSome_iff]
  exact ⟨t, Buckets.mem_candidates ht hq, Option.isSome_of_eq_some he⟩

/-- A target that a triangle holds is located, if the triangle is not too thin. -/
theorem exists_locate {t : Triangle K} (ht : t ∈ triangulate (kept points))
    (hthin : ¬ Thin (kept points) t) {q : Point K} (hq : Holds (kept points) t q) :
    ∃ e, (interpolantOf points).locate q.x q.y = some e := by
  have hown : IsBoundingBox (Buckets.ownBox (kept points) t)
      (t.corners.map (pointAt (kept points))) :=
    isBoundingBox_boundingBox (by simp [Triangle.corners])
  exact exists_locate_of_inBox ht (inBox_of_holds hown (fun _ ↦ List.mem_map_of_mem) hthin hq)
    (Option.map_eq_some_iff.mpr ⟨_, weightsOn?_of_holds hthin hq, rfl⟩)

/-- The targets in the hull of the interpolant's points. -/
def hullOf (s : Scattered K) : Set (Point K) :=
  hull (pointAt s.points) s.points.size

/-- Only triangles that are too thin hold the target. -/
def Skipped (s : Scattered K) (q : Point K) : Prop :=
  ∀ t ∈ s.triangles, Holds s.points t q → Thin s.points t

/-- The triangles cover the hull of the points. A target of the hull is located, and what is
interpolated there is a weighted sum of samples and not the fill value, unless only triangles that
are too thin hold it. -/
structure AnswersHull (s : Scattered K) : Prop where
  covers : ∀ q ∈ hullOf s, ∃ t ∈ s.triangles, Holds s.points t q
  locates : ∀ q ∈ hullOf s, ¬ Skipped s q → ∃ e, s.locate q.x q.y = some e
  interpolates : ∀ values targets fill, values.size = s.inputs →
    ∃ results, s.interpolate values targets fill = .ok results ∧
      List.Forall₂ (fun q r ↦ q ∈ hullOf s → ¬ Skipped s q →
        ∃ e, s.locate q.x q.y = some e ∧ r = e.combine values) targets results

omit [IsStrictOrderedRing K] in
/-- With one sample for every input point, each target is answered by its own stencil. -/
theorem interpolate_eq_ok {s : Scattered K} {values : Array K} (h : values.size = s.inputs)
    (targets : List (Point K)) (fill : K) : s.interpolate values targets fill =
      .ok (targets.map fun q ↦ (s.locate q.x q.y).elim fill (·.combine values)) := by
  unfold interpolate apply stencils
  rw [if_neg (by simp [h]), List.map_map]
  rfl

omit [IsStrictOrderedRing K] in
/-- Stencils are applied to samples if there is one sample for every input point. -/
theorem apply_eq_ok_iff {s : Scattered K} {values : Array K} {targets : List (Point K)} {fill : K}
    {results : List K} : s.apply (s.stencils targets) values fill = .ok results ↔
      values.size = s.inputs ∧
        results = targets.map fun q ↦ (s.locate q.x q.y).elim fill (·.combine values) := by
  by_cases h : values.size = s.inputs
  · have hok := interpolate_eq_ok h targets fill
    unfold interpolate at hok
    rw [hok, Except.ok.injEq]
    exact ⟨fun hresults ↦ ⟨h, hresults.symm⟩, fun hresults ↦ hresults.2.symm⟩
  · unfold apply
    rw [if_pos (by simp [h])]
    exact iff_of_false (fun hok ↦ by cases hok) fun hresults ↦ h hresults.1

omit [IsStrictOrderedRing K] in
/-- An interpolant that locates the covered targets interpolates samples there. -/
theorem answersHull_of_locates {s : Scattered K}
    (hcovers : ∀ q ∈ hullOf s, ∃ t ∈ s.triangles, Holds s.points t q)
    (hlocates : ∀ q, ¬ Skipped s q → ∃ e, s.locate q.x q.y = some e) : AnswersHull s := by
  refine ⟨hcovers, fun q _ hq ↦ hlocates q hq, fun values targets fill hsize ↦ ?_⟩
  refine ⟨_, interpolate_eq_ok hsize targets fill, ?_⟩
  rw [List.forall₂_map_right_iff, List.forall₂_same]
  intro q _ _ hq
  obtain ⟨e, he⟩ := hlocates q hq
  exact ⟨e, he, by rw [he]; rfl⟩

/-- If the points that are kept are not all in line, an interpolant is constructed and answers the
targets in their hull, provided that the circle of every triangle that occurs is computed from its
corners and that the enclosing triangle is large enough. -/
theorem ofPoints_answersHull (points : Array (Point K)) (hspans : Spans (kept points))
    (hspread : AllSpread (kept points)) (hclear : EnclosureClear (kept points)) :
    ∃ s, ofPoints points = .ok s ∧ s.points = kept points ∧ s.inputs = points.size ∧
      AnswersHull s := by
  have hside : 0 < sideOf points := by
    obtain ⟨i, hi, j, hj, k, -, hne⟩ := hspans
    refine sideOf_pos hi hj fun h ↦ hne ?_
    rw [h, Delaunay.orientation_eq]
    ring
  have hne : points ≠ #[] := by
    obtain ⟨i, hi, -⟩ := hspans
    rintro rfl
    exact List.not_mem_nil (pointAt_kept_mem hi)
  have htriangles := Delaunay.triangulate_ne_nil hspans hspread hclear
  refine ⟨interpolantOf points, ofPoints_eq_ok_iff.mpr ⟨hne, hside, htriangles, rfl⟩, rfl,
    rfl, answersHull_of_locates (fun q hq ↦ ?_) fun q hq ↦ ?_⟩
  · obtain ⟨t, ht, hwithin⟩ := Delaunay.exists_within_triangulate hspans hspread hclear hq
    exact ⟨t, ht, holds_of_within (Delaunay.proper_of_mem_triangulate hspread ht).ccw hwithin⟩
  · unfold Skipped at hq
    push Not at hq
    obtain ⟨t, ht, hholds, hthin⟩ := hq
    exact exists_locate ht hthin hholds

/-- Five points, of which the last one is merged into the second. -/
theorem ofPoints_five_answersHull :
    ∃ s, ofPoints #[(⟨0, 0⟩ : Point ℚ), ⟨4, 0⟩, ⟨1, 3⟩, ⟨2, 1⟩, ⟨4, 0⟩] = .ok s ∧
      s.points = kept #[⟨0, 0⟩, ⟨4, 0⟩, ⟨1, 3⟩, ⟨2, 1⟩, ⟨4, 0⟩] ∧ s.inputs = 5 ∧ AnswersHull s :=
  ofPoints_answersHull _ (by decide +kernel) (by decide +kernel) (by decide +kernel)

/-- Over the points an interpolant is constructed that does not locate a target in their hull. -/
def Misses (points : Array (Point K)) (q : Point K) : Prop :=
  ∃ s, ofPoints points = .ok s ∧ q ∈ hullOf s ∧ s.locate q.x q.y = none

/-- A mean of three kept points that is not located is missed. -/
theorem misses_of_mean {q : Point K} (hok : (ofPoints points).isOk = true)
    (hnone : ((interpolantOf points).locate q.x q.y).isNone = true) {i j k : ℕ}
    (hi : i < (kept points).size) (hj : j < (kept points).size) (hk : k < (kept points).size)
    {u v w : K} (hu : 0 ≤ u) (hv : 0 ≤ v) (hw : 0 ≤ w) (hsum : u + v + w = 1)
    (hx : q.x = u * (pointAt (kept points) i).x + v * (pointAt (kept points) j).x
      + w * (pointAt (kept points) k).x)
    (hy : q.y = u * (pointAt (kept points) i).y + v * (pointAt (kept points) j).y
      + w * (pointAt (kept points) k).y) : Misses points q :=
  ⟨interpolantOf points, ofPoints_of_isOk hok,
    Delaunay.mem_hull_of_mean hi hj hk hu hv hw hsum hx hy, Option.isNone_iff_eq_none.mp hnone⟩

/-- A square with its centre, so far from the origin that circles are not computed. -/
def farSquare : Array (Point ℚ) :=
  #[⟨2 ^ 30, 2 ^ 30⟩, ⟨2 ^ 30 + 2, 2 ^ 30⟩, ⟨2 ^ 30, 2 ^ 30 + 2⟩, ⟨2 ^ 30 + 1, 2 ^ 30 + 1⟩,
    ⟨2 ^ 30 + 2, 2 ^ 30 + 2⟩]

/-- A triangle with a point so close to an edge that the circle through both reaches beyond the
enclosing triangle. -/
def dentedTriangle : Array (Point ℚ) :=
  #[⟨0, 0⟩, ⟨4, 0⟩, ⟨2, 4⟩, ⟨2, 1 / 256⟩]

/-- Two points on both sides of the border of two squares of the merging grid, and a third one
nearly in line with them. -/
def needle : Array (Point ℚ) :=
  #[⟨-1, 0⟩, ⟨1, 1 / 10 ^ 10 - 1 / 2 ^ 52⟩, ⟨1 - 210 / 2 ^ 52, 1 / 10 ^ 10 + 9 / 10 / 2 ^ 52⟩]

/-- Each condition is needed: targets of the hull are missed where circles are not computed, where
the enclosing triangle is not large enough, and where a triangle is too thin. -/
theorem misses_of_each_condition :
    (Spans (kept farSquare) ∧ EnclosureClear (kept farSquare) ∧
      Misses farSquare ⟨2 ^ 30 + 1 / 2, 2 ^ 30 + 1⟩) ∧
    (Spans (kept dentedTriangle) ∧ AllSpread (kept dentedTriangle) ∧
      Misses dentedTriangle ⟨2, 1 / 512⟩) ∧
    (Spans (kept needle) ∧ AllSpread (kept needle) ∧ EnclosureClear (kept needle) ∧
      Misses needle ⟨-1, 0⟩) := by
  refine ⟨⟨by decide +kernel, by decide +kernel, ?_⟩, ⟨by decide +kernel, by decide +kernel, ?_⟩,
    ⟨by decide +kernel, by decide +kernel, by decide +kernel, ?_⟩⟩
  · apply misses_of_mean (i := 0) (j := 2) (k := 3) (u := 1 / 4) (v := 1 / 4) (w := 1 / 2) <;>
      decide +kernel
  · apply misses_of_mean (i := 0) (j := 1) (k := 3) (u := 1 / 4) (v := 1 / 4) (w := 1 / 2) <;>
      decide +kernel
  · apply misses_of_mean (i := 0) (j := 1) (k := 2) (u := 1) (v := 0) (w := 0) <;>
      decide +kernel

end PlasmaField.Scattered
