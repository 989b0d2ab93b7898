import Mathlib
import PlasmaField.Proofs.Delaunay.Partition

/-!
# The enclosing triangle

The bounding box of points reaches from the least to the greatest coordinate along each axis. The
large triangle around the box runs counterclockwise and has every point strictly within it.
-/

namespace PlasmaField.Delaunay

open scoped Exact

variable {K : Type} [Field K] [LinearOrder K] [FloorRing K]

/-- The bounding box of points reaches on every side to one of them, and holds them all. -/
structure IsBoundingBox (box : Box K) (points : List (Point K)) : Prop where
  left : ∃ p ∈ points, p.x = box.x₀
  right : ∃ p ∈ points, p.x = box.x₁
  bottom : ∃ p ∈ points, p.y = box.y₀
  top : ∃ p ∈ points, p.y = box.y₁
  mem_x : ∀ p ∈ points, box.x₀ ≤ p.x ∧ p.x ≤ box.x₁
  mem_y : ∀ p ∈ points, box.y₀ ≤ p.y ∧ p.y ≤ box.y₁

/-- The box that is computed for points is their bounding box. -/
theorem isBoundingBox_boundingBox {points : List (Point K)} (h : points ≠ []) :
    IsBoundingBox (boundingBox points) points := by
  have hmap : ∀ f : Point K → K, points.map f ≠ [] := fun f ↦ mt List.map_eq_nil_iff.mp h
  obtain ⟨x₀, x₁, hx, hmemx, hx₀, hx₁⟩ := Exact.exists_range (hmap (·.x))
  obtain ⟨y₀, y₁, hy, hmemy, hy₀, hy₁⟩ := Exact.exists_range (hmap (·.y))
  have hbox : boundingBox points = ⟨x₀, x₁, y₀, y₁⟩ := by
    unfold boundingBox
    rw [hx, hy]
    rfl
  rw [hbox]
  exact ⟨List.mem_map.mp hx₀, List.mem_map.mp hx₁, List.mem_map.mp hy₀, List.mem_map.mp hy₁,
    fun p hp ↦ hmemx p.x (List.mem_map_of_mem hp), fun p hp ↦ hmemy p.y (List.mem_map_of_mem hp)⟩

omit [FloorRing K] [Field K] in
/-- Points have one bounding box. -/
theorem IsBoundingBox.eq {box box' : Box K} {points : List (Point K)}
    (h : IsBoundingBox box points) (h' : IsBoundingBox box' points) : box = box' := by
  have hx : ∀ {b b' : Box K}, IsBoundingBox b points → IsBoundingBox b' points →
      b'.x₀ ≤ b.x₀ ∧ b.x₁ ≤ b'.x₁ := by
    intro b b' hb hb'
    obtain ⟨p, hp, hleft⟩ := hb.left
    obtain ⟨q, hq, hright⟩ := hb.right
    exact ⟨hleft ▸ (hb'.mem_x p hp).1, hright ▸ (hb'.mem_x q hq).2⟩
  have hy : ∀ {b b' : Box K}, IsBoundingBox b points → IsBoundingBox b' points →
      b'.y₀ ≤ b.y₀ ∧ b.y₁ ≤ b'.y₁ := by
    intro b b' hb hb'
    obtain ⟨p, hp, hbottom⟩ := hb.bottom
    obtain ⟨q, hq, htop⟩ := hb.top
    exact ⟨hbottom ▸ (hb'.mem_y p hp).1, htop ▸ (hb'.mem_y q hq).2⟩
  rcases box with ⟨x₀, x₁, y₀, y₁⟩
  rcases box' with ⟨x₀', x₁', y₀', y₁'⟩
  congr
  · exact le_antisymm (hx h' h).1 (hx h h').1
  · exact le_antisymm (hx h h').2 (hx h' h).2
  · exact le_antisymm (hy h' h).1 (hy h h').1
  · exact le_antisymm (hy h h').2 (hy h' h).2

/-- The point lies in the box. -/
def InBox (box : Box K) (q : Point K) : Prop :=
  (box.x₀ ≤ q.x ∧ q.x ≤ box.x₁) ∧ box.y₀ ≤ q.y ∧ q.y ≤ box.y₁

omit [FloorRing K] in
/-- A mean of numbers of a range lies in the range. -/
theorem mean_mem_range [IsStrictOrderedRing K] {lower upper u v w a b c : K} (hu : 0 ≤ u)
    (hv : 0 ≤ v) (hw : 0 ≤ w) (hsum : u + v + w = 1) (ha : lower ≤ a ∧ a ≤ upper)
    (hb : lower ≤ b ∧ b ≤ upper) (hc : lower ≤ c ∧ c ≤ upper) :
    lower ≤ u * a + v * b + w * c ∧ u * a + v * b + w * c ≤ upper := by
  constructor
  · calc lower = u * lower + v * lower + w * lower := by linear_combination -lower * hsum
      _ ≤ u * a + v * b + w * c := by
        gcongr
        exacts [ha.1, hb.1, hc.1]
  · calc u * a + v * b + w * c ≤ u * upper + v * upper + w * upper := by
          gcongr
          exacts [ha.2, hb.2, hc.2]
      _ = upper := by linear_combination upper * hsum

omit [FloorRing K] in
/-- The bounding box of points has the means of three of them. -/
theorem IsBoundingBox.inBox_of_mean [IsStrictOrderedRing K] {box : Box K}
    {points : List (Point K)} (h : IsBoundingBox box points) {a b c : Point K} (ha : a ∈ points)
    (hb : b ∈ points) (hc : c ∈ points) {u v w : K} (hu : 0 ≤ u) (hv : 0 ≤ v) (hw : 0 ≤ w)
    (hsum : u + v + w = 1) {q : Point K} (hx : q.x = u * a.x + v * b.x + w * c.x)
    (hy : q.y = u * a.y + v * b.y + w * c.y) : InBox box q := by
  unfold InBox
  rw [hx, hy]
  exact ⟨mean_mem_range hu hv hw hsum (h.mem_x a ha) (h.mem_x b hb) (h.mem_x c hc),
    mean_mem_range hu hv hw hsum (h.mem_y a ha) (h.mem_y b hb) (h.mem_y c hc)⟩

/-- The larger side of the bounding box, or a positive number in the place of zero. -/
def extentOf (points : Array (Point K)) : K :=
  max (max ((boundingBox points.toList).x₁ - (boundingBox points.toList).x₀)
    ((boundingBox points.toList).y₁ - (boundingBox points.toList).y₀)) Scalar.tiny

/-- The middle of the bounding box. -/
def middleOf (points : Array (Point K)) : Point K :=
  ⟨((boundingBox points.toList).x₀ + (boundingBox points.toList).x₁) / 2,
    ((boundingBox points.toList).y₀ + (boundingBox points.toList).y₁) / 2⟩

/-- The corners of the large triangle, by the middle of the box and its larger side. -/
def outerCorners (points : Array (Point K)) : Array (Point K) :=
  #[⟨(middleOf points).x - extentOf points * 100, (middleOf points).y - extentOf points * 100⟩,
    ⟨(middleOf points).x + extentOf points * 100, (middleOf points).y - extentOf points * 100⟩,
    ⟨(middleOf points).x, (middleOf points).y + extentOf points * 100⟩]

/-- The points are followed by the corners of the large triangle. -/
theorem enclosed_eq (points : Array (Point K)) :
    enclosed points = points ++ outerCorners points := by
  have hhalf : ∀ v : K, (0.5 : K) * v = v / 2 := by
    intro v
    norm_num
    ring
  unfold outerCorners extentOf middleOf
  rw [← hhalf, ← hhalf]
  unfold enclosed enclosingScale
  simp only [Exact.max_eq, Exact.literal_ofNat, Exact.literal_scientific]

/-- The larger side of the bounding box is positive. -/
theorem extentOf_pos [IsStrictOrderedRing K] (points : Array (Point K)) : 0 < extentOf points :=
  Exact.tiny_pos.trans_le (le_max_right _ _)

/-- The enclosing triangle of points, whose corners are numbered after them. -/
def outerOf (points : Array (Point K)) : Triangle K :=
  triangleOf (enclosed points) points.size (points.size + 1) (points.size + 2)

/-- The points keep their numbers. -/
theorem pointAt_enclosed {points : Array (Point K)} {i : ℕ} (hi : i < points.size) :
    pointAt (enclosed points) i = pointAt points i := by
  rw [enclosed_eq]
  simp [pointAt, Array.getD_eq_getD_getElem?, Array.getElem?_append_left hi]

/-- The corners of the large triangle have the next numbers. -/
theorem pointAt_enclosed_outer (points : Array (Point K)) (i : ℕ) :
    pointAt (enclosed points) (points.size + i) = pointAt (outerCorners points) i := by
  rw [enclosed_eq]
  simp [pointAt, Array.getD_eq_getD_getElem?, Array.getElem?_append_right]

/-- The corners of the enclosing triangle. -/
theorem pointAt_outerOf (points : Array (Point K)) :
    pointAt (enclosed points) (outerOf points).a =
      ⟨(middleOf points).x - extentOf points * 100, (middleOf points).y - extentOf points * 100⟩ ∧
    pointAt (enclosed points) (outerOf points).b =
      ⟨(middleOf points).x + extentOf points * 100, (middleOf points).y - extentOf points * 100⟩ ∧
    pointAt (enclosed points) (outerOf points).c =
      ⟨(middleOf points).x, (middleOf points).y + extentOf points * 100⟩ :=
  ⟨pointAt_enclosed_outer points 0, pointAt_enclosed_outer points 1,
    pointAt_enclosed_outer points 2⟩

section Ordered

variable [IsStrictOrderedRing K] {points : Array (Point K)}

/-- No point is further from the middle of the box than half its larger side. -/
theorem mem_box {i : ℕ} (hi : i < points.size) :
    |(pointAt points i).x - (middleOf points).x| ≤ extentOf points / 2 ∧
      |(pointAt points i).y - (middleOf points).y| ≤ extentOf points / 2 := by
  have hmem : pointAt points i ∈ points.toList := by
    simp [pointAt, Array.getD_eq_getD_getElem?, hi]
  have hbox := isBoundingBox_boundingBox (List.ne_nil_of_mem hmem)
  obtain ⟨hx₀, hx₁⟩ := hbox.mem_x _ hmem
  obtain ⟨hy₀, hy₁⟩ := hbox.mem_y _ hmem
  have hx : (boundingBox points.toList).x₁ - (boundingBox points.toList).x₀ ≤ extentOf points :=
    (le_max_left _ _).trans (le_max_left _ _)
  have hy : (boundingBox points.toList).y₁ - (boundingBox points.toList).y₀ ≤ extentOf points :=
    (le_max_right _ _).trans (le_max_left _ _)
  unfold middleOf
  constructor
  · rw [abs_le]
    constructor <;> linarith
  · rw [abs_le]
    constructor <;> linarith

/-- The enclosing triangle runs counterclockwise. -/
theorem outerOf_ccw (points : Array (Point K)) :
    0 < orientation (pointAt (enclosed points) (outerOf points).a)
      (pointAt (enclosed points) (outerOf points).b)
      (pointAt (enclosed points) (outerOf points).c) := by
  obtain ⟨ha, hb, hc⟩ := pointAt_outerOf points
  have hpos := extentOf_pos points
  rw [ha, hb, hc, orientation_eq]
  have hsquare : 0 < 40000 * (extentOf points * extentOf points) := by positivity
  refine hsquare.trans_eq ?_
  ring

/-- Every point lies strictly within the enclosing triangle. -/
theorem strictlyWithin_outerOf {i : ℕ} (hi : i < points.size) :
    StrictlyWithin (pointAt (enclosed points)) (outerOf points)
      (pointAt (enclosed points) i) := by
  obtain ⟨ha, hb, hc⟩ := pointAt_outerOf points
  obtain ⟨hx, hy⟩ := mem_box hi
  rw [abs_le] at hx hy
  have hpos := extentOf_pos points
  rw [strictlyWithin_iff, ha, hb, hc, pointAt_enclosed hi]
  simp only [orientation_eq]
  refine ⟨?_, ?_, ?_⟩
  · nlinarith
  · nlinarith
  · nlinarith

end Ordered

end PlasmaField.Delaunay
