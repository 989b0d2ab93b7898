import Mathlib
import PlasmaField.Scattered
import PlasmaField.Proofs.Delaunay.Enclosure

/-!
# The buckets of a triangulation

A point's bucket lists the triangles whose own bounding box reaches into it, in the order of the
triangulation, `candidates_ofTriangles`. Moving a point moves its column and row the same way, so
that a triangle is among the candidates at every point of its box, `mem_candidates`.
-/

namespace PlasmaField.Buckets

open scoped Exact
open Delaunay (boundingBox pointAt Box InBox)

variable {K : Type} [Field K] [LinearOrder K] [FloorRing K]

/-- The column and row of the bucket that a point falls into. -/
def bucketOf (b : Buckets K) (x y : K) : ℕ × ℕ :=
  cellOf b.x₀ b.y₀ b.cellX b.cellY b.side x y

/-- The box of a triangle's corners. -/
def ownBox (points : Array (Point K)) (t : Triangle K) : Box K :=
  boundingBox (t.corners.map (pointAt points))

/-- The box of a triangle reaches into the bucket with this column and row. -/
def reaches (b : Buckets K) (points : Array (Point K)) (t : Triangle K) (place : ℕ × ℕ) : Bool :=
  (b.bucketOf (ownBox points t).x₀ (ownBox points t).y₀).1 ≤ place.1 &&
    place.1 ≤ (b.bucketOf (ownBox points t).x₁ (ownBox points t).y₁).1 &&
    (b.bucketOf (ownBox points t).x₀ (ownBox points t).y₀).2 ≤ place.2 &&
    place.2 ≤ (b.bucketOf (ownBox points t).x₁ (ownBox points t).y₁).2

/-- There is at least one bucket along a side. -/
theorem sideFor_pos (triangles : ℕ) : 0 < sideFor triangles :=
  Nat.lt_of_lt_of_le Nat.one_pos (Nat.le_max_left _ _)

/-- Every point falls into a bucket. -/
theorem bucketOf_lt {b : Buckets K} (hside : 0 < b.side) (x y : K) :
    (b.bucketOf x y).1 < b.side ∧ (b.bucketOf x y).2 < b.side :=
  ⟨Exact.floorUpTo_lt hside _, Exact.floorUpTo_lt hside _⟩

/-- A bucket is numbered by its column and row. -/
theorem number_of_place {side i j : ℕ} (hi : i < side) (hj : j < side) :
    j * side + i < side * side ∧ (j * side + i) % side = i ∧ (j * side + i) / side = j := by
  refine ⟨?_, ?_, ?_⟩
  · calc j * side + i < j * side + side := by omega
      _ = (j + 1) * side := by ring
      _ ≤ side * side := Nat.mul_le_mul_right _ hj
  · rw [Nat.mul_comm, Nat.mul_add_mod, Nat.mod_eq_of_lt hi]
  · rw [Nat.mul_comm, Nat.mul_add_div (by omega), Nat.div_eq_of_lt hi, Nat.add_zero]

/-- A bucket lists the triangles that reach into its column and row, in their order. -/
theorem getD_cells {points : Array (Point K)} {triangles : List (Triangle K)} {b : Buckets K}
    (hb : b = ofTriangles points triangles) {n : ℕ} (hn : n < b.side * b.side) :
    b.cells.getD n [] = triangles.filter fun t ↦ b.reaches points t (n % b.side, n / b.side) := by
  subst hb
  have hsize : (ofTriangles points triangles).cells.size =
      (ofTriangles points triangles).side * (ofTriangles points triangles).side := Array.size_ofFn
  rw [← hsize] at hn
  rw [Array.getD_eq_getD_getElem?, Array.getElem?_eq_getElem hn, Option.getD_some]
  refine (Array.getElem_ofFn _).trans ?_
  dsimp only
  rw [List.filter_map, List.map_map]
  exact List.map_id _

/-- The candidates at a point are the triangles that reach into its bucket. -/
theorem candidates_ofTriangles {points : Array (Point K)} {triangles : List (Triangle K)}
    {b : Buckets K} (hb : b = ofTriangles points triangles) (x y : K) :
    b.candidates x y = triangles.filter fun t ↦ b.reaches points t (b.bucketOf x y) := by
  have hside : b.side = sideFor triangles.length := congrArg Buckets.side hb
  obtain ⟨hi, hj⟩ := bucketOf_lt (hside ▸ sideFor_pos triangles.length) x y
  obtain ⟨hnumber, hcolumn, hrow⟩ := number_of_place hi hj
  show b.cells.getD ((b.bucketOf x y).2 * b.side + (b.bucketOf x y).1) [] = _
  rw [getD_cells hb hnumber, hcolumn, hrow]

section Ordered

variable [IsStrictOrderedRing K]

/-- The buckets have an extent along each axis. -/
theorem cell_pos (points : Array (Point K)) (triangles : List (Triangle K)) :
    0 < (ofTriangles points triangles).cellX ∧ 0 < (ofTriangles points triangles).cellY :=
  ⟨Exact.max_tiny_pos _, Exact.max_tiny_pos _⟩

/-- A point further to the right does not fall into a column further to the left, nor one further up
into a lower row. -/
theorem bucketOf_mono {b : Buckets K} (hb : 0 < b.cellX ∧ 0 < b.cellY) {x x' y y' : K}
    (hx : x ≤ x') (hy : y ≤ y') : (b.bucketOf x y).1 ≤ (b.bucketOf x' y').1 ∧
      (b.bucketOf x y).2 ≤ (b.bucketOf x' y').2 :=
  ⟨Exact.floorUpTo_mono _ (div_le_div_of_nonneg_right (sub_le_sub_right hx _) hb.1.le),
    Exact.floorUpTo_mono _ (div_le_div_of_nonneg_right (sub_le_sub_right hy _) hb.2.le)⟩

/-- A triangle is among the candidates at every point of its own box. -/
theorem mem_candidates {points : Array (Point K)} {triangles : List (Triangle K)} {t : Triangle K}
    (ht : t ∈ triangles) {q : Point K} (hq : InBox (ownBox points t) q) :
    t ∈ (ofTriangles points triangles).candidates q.x q.y := by
  obtain ⟨hx, hy⟩ := hq
  have hb := cell_pos points triangles
  obtain ⟨hleft, hbottom⟩ := bucketOf_mono hb hx.1 hy.1
  obtain ⟨hright, htop⟩ := bucketOf_mono hb hx.2 hy.2
  rw [candidates_ofTriangles rfl, List.mem_filter]
  refine ⟨ht, ?_⟩
  unfold reaches
  simp only [Bool.and_eq_true, decide_eq_true_eq]
  exact ⟨⟨⟨hleft, hright⟩, hbottom⟩, htop⟩

end Ordered

end PlasmaField.Buckets
