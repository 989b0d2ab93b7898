import Mathlib
import PlasmaField.Proofs.Delaunay.Images
import PlasmaField.Proofs.Embedding

/-!
# Triangulations of images

Every test of the triangulation compares sums and products of coordinates, so that an embedding of
ordered fields leaves the answers as they are. The triangles of the images of points are therefore
the images of the points' triangles, `triangulate_map`.
-/

namespace PlasmaField

/-- The point whose coordinates are images. -/
def Point.map {α β : Type} (f : α → β) (p : Point α) : Point β :=
  ⟨f p.x, f p.y⟩

/-- The triangle with the same corners whose circumcircle is the image of the circle. -/
def Triangle.map {α β : Type} (f : α → β) (t : Triangle α) : Triangle β :=
  ⟨t.a, t.b, t.c, t.centre.map f, f t.radiusSq⟩

namespace Delaunay

open scoped Exact

/-- The box whose sides are images. -/
def Box.map {α β : Type} (f : α → β) (b : Box α) : Box β :=
  ⟨f b.x₀, f b.x₁, f b.y₀, f b.y₁⟩

variable {K L : Type} [Field K] [LinearOrder K] [FloorRing K] [Field L] [LinearOrder L]
  [FloorRing L] (f : K →+* L)

/-- A point of an array of images. -/
theorem pointAt_map (points : Array (Point K)) (i : ℕ) :
    pointAt (points.map (Point.map f)) i = (pointAt points i).map f := by
  unfold pointAt
  cases hget : points[i]? with
  | none => simp [Array.getD_eq_getD_getElem?, hget, Point.map]
  | some p => simp [Array.getD_eq_getD_getElem?, hget]

/-- The image of an orientation. -/
theorem orientation_map (a b p : Point K) :
    orientation (a.map f) (b.map f) (p.map f) = f (orientation a b p) := by
  unfold orientation Point.map
  simp only [map_sub, map_mul]

variable {f} (hf : StrictMono f)
include hf

/-- The bounding box of images. -/
theorem boundingBox_map (points : List (Point K)) :
    boundingBox (points.map (Point.map f)) = (boundingBox points).map f := by
  have hx : (points.map (Point.map f)).map (·.x) = (points.map (·.x)).map f := by
    rw [List.map_map, List.map_map]
    rfl
  have hy : (points.map (Point.map f)).map (·.y) = (points.map (·.y)).map f := by
    rw [List.map_map, List.map_map]
    rfl
  have hgetD : ∀ range : Option (K × K),
      (range.map (Prod.map f f)).getD (Scalar.infinity, -Scalar.infinity) =
        (range.getD (Scalar.infinity, -Scalar.infinity)).map f f := by
    intro range
    cases range with
    | none => simp
    | some range => rfl
  unfold boundingBox
  rw [hx, hy, Exact.range?_map hf, Exact.range?_map hf, hgetD, hgetD]
  rfl

/-- A triangle of images holds the image of a point when the triangle holds the point. -/
theorem holds_map (points : Array (Point K)) (t : Triangle K) (p : Point K) :
    holds (points.map (Point.map f)) (t.map f) (p.map f) = holds points t p := by
  unfold holds Triangle.map
  simp only [pointAt_map, orientation_map, Exact.literal_zero, Exact.map_lt_zero_iff hf,
    Exact.zero_lt_map_iff hf]

/-- The image of a circle holds the image of a point when the circle holds the point. -/
theorem inCircle_map (p : Point K) (t : Triangle K) :
    inCircle (p.map f) (t.map f) = inCircle p t := by
  unfold inCircle Triangle.map Point.map
  simp only [← map_sub, ← map_mul, ← map_add, hf.lt_iff_lt]

/-- The centre of the circle through images. -/
theorem centreOf_map (p₀ p₁ p₂ : Point K) :
    centreOf (p₀.map f) (p₁.map f) (p₂.map f) = (centreOf p₀ p₁ p₂).map f := by
  have hone : (1 : L) = f 1 := (map_one f).symm
  have htwo : (2 : L) = f 2 := (map_ofNat f 2).symm
  have hthree : (3 : L) = f 3 := (map_ofNat f 3).symm
  unfold centreOf Point.map
  simp only [Exact.literal_ofNat, Exact.literal_one, hone, htwo, hthree, ← Exact.map_epsilon f,
    ← map_add, ← map_sub, ← map_mul, ← map_div₀, Exact.max_map hf, Exact.abs_map hf, hf.lt_iff_lt]
  split
  · rfl
  · rfl

/-- The triangle of images with given corners. -/
theorem triangleOf_map (points : Array (Point K)) (i j k : ℕ) :
    triangleOf (points.map (Point.map f)) i j k = (triangleOf points i j k).map f := by
  unfold triangleOf
  simp only [pointAt_map, centreOf_map hf]
  unfold Triangle.map Point.map
  simp only [map_sub, map_mul, map_add]

/-- Inserting the image of a point into images gives the images of what inserting the point
gives. -/
theorem insert_map (points : Array (Point K)) (triangles : List (Triangle K)) (i : ℕ) :
    insert (points.map (Point.map f)) (triangles.map (Triangle.map f)) i =
      (insert points triangles i).map (Triangle.map f) := by
  have htests : KeepsTests points (points.map (Point.map f)) (Triangle.map f) triangles i :=
    ⟨fun _ ↦ rfl, fun t _ ↦ by rw [pointAt_map, inCircle_map hf],
      fun t _ ↦ by rw [pointAt_map, holds_map hf]⟩
  obtain ⟨kept, edges, -, -, hinsert, himages⟩ := htests.exists_insert
  rw [hinsert, himages, List.map_append, List.map_map]
  simp only [triangleOf_map hf]
  rfl

/-- The enclosing triangle of images is the image of the enclosing triangle. -/
theorem enclosed_map [IsStrictOrderedRing K] [IsStrictOrderedRing L] (points : Array (Point K)) :
    enclosed (points.map (Point.map f)) = (enclosed points).map (Point.map f) := by
  have hhundred : (100 : L) = f 100 := (map_ofNat f 100).symm
  unfold enclosed enclosingScale
  simp only [Array.toList_map, boundingBox_map hf, Array.map_append]
  unfold Box.map
  simp only [Exact.literal_ofNat, Exact.literal_scientific, ← Exact.map_decimal f,
    ← Exact.map_tiny f, hhundred, ← map_add, ← map_sub, ← map_mul, Exact.max_map hf,
    List.map_toArray, List.map_cons, List.map_nil]
  rfl

/-- The triangles of images of points are the images of the points' triangles. -/
theorem triangulate_map [IsStrictOrderedRing K] [IsStrictOrderedRing L]
    (points : Array (Point K)) :
    triangulate (points.map (Point.map f)) = (triangulate points).map (Triangle.map f) := by
  have hfold : ∀ (l : List ℕ) (all : Array (Point K)) (triangles : List (Triangle K)),
      l.foldl (insert (all.map (Point.map f))) (triangles.map (Triangle.map f)) =
        (l.foldl (insert all) triangles).map (Triangle.map f) := fun l all triangles ↦
    List.foldl_hom _ fun triangles i ↦ insert_map hf all triangles i
  unfold triangulate
  simp only [Array.size_map, enclosed_map hf, triangleOf_map hf]
  split
  · rfl
  · rw [← List.map_singleton, hfold, List.filter_map]
    rfl

end Delaunay

end PlasmaField
