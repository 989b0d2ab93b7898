import Mathlib
import PlasmaField.Proofs.Delaunay.Embedding
import PlasmaField.Proofs.Scattered.Buckets
import PlasmaField.Proofs.Scattered.Construction
import PlasmaField.Proofs.Scattered.Weights

/-!
# Interpolants over images

The interpolant over the images of points keeps the images of the same points and has the images of
the same triangles. A target's image has the stencil of the target, with the images of its weights,
`locate_map`. What is evaluated over the rational numbers is therefore also known over the reals,
`ofPoints_map`.
-/

namespace PlasmaField

open scoped Exact
open Delaunay (pointAt boundingBox Box boundingBox_map pointAt_map orientation_map triangulate
  triangulate_map)

/-- The stencil of the same points with the images of the weights. -/
def Stencil.map {α β : Type} (f : α → β) (e : Stencil α) : Stencil β :=
  ⟨e.i, e.j, e.k, f e.wi, f e.wj, f e.wk⟩

variable {K L : Type} [Field K] [LinearOrder K] [FloorRing K] [Field L] [LinearOrder L]
  [FloorRing L] {f : K →+* L} (hf : StrictMono f)

namespace Buckets

include hf

/-- The images of points fall into the buckets of the points. -/
theorem bucketOf_map (points : Array (Point K)) (triangles : List (Triangle K)) (x y : K) :
    (ofTriangles (points.map (Point.map f)) (triangles.map (Triangle.map f))).bucketOf (f x) (f y) =
      (ofTriangles points triangles).bucketOf x y := by
  unfold bucketOf cellOf ofTriangles
  simp only [Array.toList_map, boundingBox_map hf, List.length_map]
  unfold Box.map
  simp only [Exact.ofNat_eq, ← map_natCast f, ← Exact.map_tiny f, ← map_sub, ← map_div₀,
    Exact.max_map hf, Exact.floorUpTo_map hf]

/-- The box of the image of a triangle. -/
theorem ownBox_map (points : Array (Point K)) (t : Triangle K) :
    ownBox (points.map (Point.map f)) (t.map f) = (ownBox points t).map f := by
  have hcorners : (t.map f).corners.map (pointAt (points.map (Point.map f))) =
      (t.corners.map (pointAt points)).map (Point.map f) := by
    rw [List.map_map]
    exact List.map_congr_left fun i _ ↦ pointAt_map f points i
  unfold ownBox
  rw [hcorners, boundingBox_map hf]

/-- The candidates at the image of a point are the images of the candidates at the point. -/
theorem candidates_map (points : Array (Point K)) (triangles : List (Triangle K)) (x y : K) :
    (ofTriangles (points.map (Point.map f)) (triangles.map (Triangle.map f))).candidates
        (f x) (f y) = ((ofTriangles points triangles).candidates x y).map (Triangle.map f) := by
  rw [candidates_ofTriangles rfl, candidates_ofTriangles rfl, bucketOf_map hf]
  refine Delaunay.filter_images fun t _ ↦ ?_
  unfold reaches
  rw [ownBox_map hf]
  unfold Box.map
  simp only [bucketOf_map hf]

end Buckets

namespace Scattered

/-- Dropping members with repeated keys does not depend on what the members are called. -/
theorem eraseDupsBy_map {β γ : Type} {related : β → β → Bool} {related' : γ → γ → Bool} {g : β → γ}
    (h : ∀ s t, related' (g s) (g t) = related s t) (l : List β) :
    (l.map g).eraseDupsBy related' = (l.eraseDupsBy related).map g := by
  induction l using eraseDupsBy_induction related with
  | nil => rfl
  | cons a l ih =>
      have hfilter : (l.map g).filter (fun b ↦ related' b (g a) = false) =
          (l.filter fun b ↦ related b a = false).map g :=
        Delaunay.filter_images fun b _ ↦ by rw [h]
      rw [List.map_cons, List.eraseDupsBy_cons, List.eraseDupsBy_cons, List.map_cons, hfilter, ih]

variable [IsStrictOrderedRing K] [IsStrictOrderedRing L] (points : Array (Point K))
include hf

omit [IsStrictOrderedRing K] [IsStrictOrderedRing L] in
/-- The larger side of the bounding box of images. -/
theorem sideOf_map : sideOf (points.map (Point.map f)) = f (sideOf points) := by
  unfold sideOf
  rw [Array.toList_map, boundingBox_map hf]
  unfold Box.map
  simp only [← map_sub, hf.monotone.map_max]

/-- The images of the same points are kept. -/
theorem keptOf_map :
    keptOf (points.map (Point.map f)) = (keptOf points).map (Prod.map (Point.map f) id) := by
  have hdistance : (mergeDistance : L) = f mergeDistance := by
    unfold mergeDistance
    rw [Exact.literal_scientific, Exact.literal_scientific, Exact.map_decimal]
  unfold keptOf
  rw [sideOf_map hf, hdistance, Array.toList_map, boundingBox_map hf]
  unfold Box.map
  generalize boundingBox points.toList = box
  have hsquare : ∀ p : Point K, square (f box.x₀) (f box.y₀)
      (f (sideOf points) * f mergeDistance) (p.map f) =
        square box.x₀ box.y₀ (sideOf points * mergeDistance) p := by
    intro p
    unfold square Point.map
    simp only [← map_sub, ← map_mul, ← map_div₀, Exact.nearest_map hf]
  have hkeys : ∀ l : List (Point K × ℕ),
      (l.map (Prod.map (Point.map f) id)).map (fun p ↦ (square (f box.x₀) (f box.y₀)
        (f (sideOf points) * f mergeDistance) p.1, p)) =
      (l.map fun p ↦ (square box.x₀ box.y₀ (sideOf points * mergeDistance) p.1, p)).map
        (Prod.map id (Prod.map (Point.map f) id)) := fun l ↦ by
    rw [List.map_map, List.map_map]
    exact List.map_congr_left fun p _ ↦ congrArg (·, _) (hsquare p.1)
  unfold distinct
  rw [Array.toList_map, List.zipIdx_map, hkeys, eraseDupsBy_map fun _ _ ↦ rfl, List.map_map,
    List.map_map]
  rfl

/-- The images of the same points are kept. -/
theorem kept_map : kept (points.map (Point.map f)) = (kept points).map (Point.map f) := by
  unfold kept
  rw [keptOf_map hf, List.map_toArray, List.map_map, List.map_map]
  rfl

omit [IsStrictOrderedRing K] [IsStrictOrderedRing L] in
/-- A triangle of images is too thin when the triangle is. -/
theorem thin_map_iff (vertices : Array (Point K)) (t : Triangle K) :
    Thin (vertices.map (Point.map f)) (t.map f) ↔ Thin vertices t := by
  have habs : ∀ x : K, |f x| = f |x| := fun x ↦ Exact.abs_map hf x
  unfold Thin Triangle.map
  simp only [pointAt_map, orientation_map]
  unfold Point.map
  simp only [← map_sub, habs, ← Exact.map_epsilon f, ← map_add, ← map_pow, ← map_mul,
    hf.le_iff_le]

/-- The weights of the image of a target on a triangle of images. -/
theorem weightsOn?_map (vertices : Array (Point K)) (t : Triangle K) (x y : K) :
    weightsOn? (vertices.map (Point.map f)) (t.map f) (f x) (f y) =
      (weightsOn? vertices t x y).map (Prod.map f (Prod.map f f)) := by
  have hslack : (-slack : L) = f (-slack) := by
    unfold slack
    rw [Exact.literal_scientific, Exact.literal_scientific, map_neg, Exact.map_decimal]
  have hshares : sharesOf (vertices.map (Point.map f)) (t.map f) ⟨f x, f y⟩ =
      Prod.map f (Prod.map f f) (sharesOf vertices t ⟨x, y⟩) := by
    have htarget : (⟨f x, f y⟩ : Point L) = (⟨x, y⟩ : Point K).map f := rfl
    unfold sharesOf Triangle.map
    simp only [htarget, pointAt_map, orientation_map, Prod.map_apply, map_div₀]
  rw [weightsOn?_eq, weightsOn?_eq, hshares]
  simp only [thin_map_iff hf, hslack, Prod.map_fst, Prod.map_snd, hf.le_iff_le]
  split_ifs
  · rfl
  · rfl
  · rfl

/-- The stencil of the image of a target. -/
theorem locate_map (x y : K) :
    (interpolantOf (points.map (Point.map f))).locate (f x) (f y) =
      ((interpolantOf points).locate x y).map (Stencil.map f) := by
  have hrepresentative : (interpolantOf (points.map (Point.map f))).representative =
      (interpolantOf points).representative := by
    unfold interpolantOf
    rw [keptOf_map hf, List.map_map]
    rfl
  have hcandidates : (interpolantOf (points.map (Point.map f))).buckets.candidates (f x) (f y) =
      ((interpolantOf points).buckets.candidates x y).map (Triangle.map f) := by
    unfold interpolantOf
    dsimp only
    rw [kept_map hf, triangulate_map hf, Buckets.candidates_map hf]
  have hstencil : ∀ t, (interpolantOf (points.map (Point.map f))).stencilOn? (f x) (f y) (t.map f) =
      ((interpolantOf points).stencilOn? x y t).map (Stencil.map f) := by
    intro t
    have hpoints : (interpolantOf (points.map (Point.map f))).points =
        (interpolantOf points).points.map (Point.map f) := kept_map hf points
    unfold stencilOn?
    rw [hpoints, weightsOn?_map hf, hrepresentative, Option.map_map, Option.map_map]
    rfl
  have hbox : (interpolantOf (points.map (Point.map f))).box =
      (interpolantOf points).box.map f := by
    unfold interpolantOf
    dsimp only
    rw [Array.toList_map, boundingBox_map hf]
  have hfind : (fun t ↦ (interpolantOf (points.map (Point.map f))).stencilOn? (f x) (f y) t) ∘
      Triangle.map f = Option.map (Stencil.map f) ∘ (interpolantOf points).stencilOn? x y :=
    funext hstencil
  unfold locate
  rw [hbox, hcandidates, List.findSome?_map, hfind, ← List.map_findSome?]
  unfold Box.map
  simp only [Exact.within_map hf]
  split
  · rfl
  · rfl

/-- Where an interpolant is constructed over points, one is constructed over their images, and the
images of targets have the stencils of the targets. -/
theorem ofPoints_map {s : Scattered K} (h : ofPoints points = .ok s) :
    ∃ s', ofPoints (points.map (Point.map f)) = .ok s' ∧ s'.inputs = s.inputs ∧
      ∀ x y, s'.locate (f x) (f y) = (s.locate x y).map (Stencil.map f) := by
  obtain ⟨hne, hside, htriangles, rfl⟩ := ofPoints_eq_ok_iff.mp h
  refine ⟨interpolantOf (points.map (Point.map f)), ofPoints_eq_ok_iff.mpr ⟨?_, ?_, ?_, rfl⟩, ?_,
    locate_map hf points⟩
  · simpa using hne
  · rw [sideOf_map hf]
    exact map_zero f ▸ hf hside
  · rw [kept_map hf, triangulate_map hf]
    simpa using htriangles
  · exact Array.size_map

end Scattered

end PlasmaField
