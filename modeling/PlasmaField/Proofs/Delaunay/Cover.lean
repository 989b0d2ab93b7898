import Mathlib
import PlasmaField.Proofs.Delaunay.Circle

/-!
# Counting the triangles that hold a point

A ray from a point crosses the edges of a triangle that has the point inside once more from right to
left than back, and equally often otherwise. `cover` counts the crossings of a triangle, one edge at
a time, with a rule for ends on the ray and for points on an edge that makes opposite edges cancel,
`edgeCover_swap`. The count is zero or one, and one only for triangles that hold the point,
`cover_cases`. It is one within a triangle, and one of two triangles on both sides of an edge counts
for a point on the edge.
-/

namespace PlasmaField.Delaunay

open scoped Exact

section Signs

variable {K : Type} [Field K] [LinearOrder K]

/-- The signed crossing of an edge whose ends lie on the sides `s` and `t` of a ray, seen from a
point at `g` beside the edge. -/
def crossing (s t g : K) : ℤ :=
  (if s ≤ 0 ∧ 0 < t ∧ 0 < g then 1 else 0) - (if t ≤ 0 ∧ 0 < s ∧ g < 0 then 1 else 0)

/-- Opposite edges are crossed in opposite directions. -/
theorem crossing_swap [IsStrictOrderedRing K] (s t g : K) :
    crossing t s (-g) = -crossing s t g := by
  unfold crossing
  simp only [neg_pos, neg_lt_zero]
  ring

/-- Seen from the left, no edge is crossed backward. -/
theorem crossing_nonneg {g : K} (s t : K) (hg : 0 ≤ g) : 0 ≤ crossing s t g := by
  unfold crossing
  simp only [hg.not_gt, and_false, if_false, sub_zero]
  split <;> simp

variable [IsStrictOrderedRing K] {A B C s t v : K}

/-- One end of a triangle's edges lies to the right of the ray. -/
theorem crossing_sum_right (hsum : 0 < A + B + C) (hmean : A * s + B * t + C * v = 0)
    (hs : s ≤ 0) (ht : 0 < t) (hv : 0 < v) :
    crossing s t C + crossing t v A + crossing v s B = 0 ∨
      crossing s t C + crossing t v A + crossing v s B = 1 ∧ 0 ≤ A ∧ 0 ≤ B ∧ 0 ≤ C := by
  have hst : crossing s t C = if 0 < C then 1 else 0 := by
    simp [crossing, hs, ht, ht.not_ge]
  have htv : crossing t v A = 0 := by
    simp [crossing, ht.not_ge, hv.not_ge]
  have hvs : crossing v s B = -if B < 0 then 1 else 0 := by
    simp [crossing, hs, hv, hv.not_ge]
  rw [hst, htv, hvs]
  rcases lt_or_ge 0 C with hC | hC <;> rcases lt_or_ge B 0 with hB | hB
  · simp [hC, hB]
  · have hA : 0 ≤ A := by
      by_contra hA
      nlinarith [mul_nonneg_of_nonpos_of_nonpos (not_le.mp hA).le hs, mul_nonneg hB ht.le,
        mul_pos hC hv]
    simp [hC, hB.not_gt, hA, hB, hC.le]
  · have hA : 0 < A := by linarith
    nlinarith [mul_nonpos_of_nonneg_of_nonpos hA.le hs, mul_neg_of_neg_of_pos hB ht,
      mul_nonpos_of_nonpos_of_nonneg hC hv.le]
  · simp [hC.not_gt, hB.not_gt]

/-- Two ends of a triangle's edges lie to the right of the ray. -/
theorem crossing_sum_left (hsum : 0 < A + B + C) (hmean : A * s + B * t + C * v = 0)
    (hs : s ≤ 0) (ht : t ≤ 0) (hv : 0 < v) :
    crossing s t C + crossing t v A + crossing v s B = 0 ∨
      crossing s t C + crossing t v A + crossing v s B = 1 ∧ 0 ≤ A ∧ 0 ≤ B ∧ 0 ≤ C := by
  have hst : crossing s t C = 0 := by
    simp [crossing, hs.not_gt, ht.not_gt]
  have htv : crossing t v A = if 0 < A then 1 else 0 := by
    simp [crossing, ht, hv, hv.not_ge]
  have hvs : crossing v s B = -if B < 0 then 1 else 0 := by
    simp [crossing, hs, hv, hv.not_ge]
  rw [hst, htv, hvs]
  rcases lt_or_ge 0 A with hA | hA <;> rcases lt_or_ge B 0 with hB | hB
  · simp [hA, hB]
  · have hC : 0 ≤ C := by
      by_contra hC
      nlinarith [mul_nonpos_of_nonneg_of_nonpos hA.le hs, mul_nonpos_of_nonneg_of_nonpos hB ht,
        mul_neg_of_neg_of_pos (not_le.mp hC) hv]
    simp [hA, hB.not_gt, hA.le, hB, hC]
  · have hC : 0 < C := by linarith
    nlinarith [mul_nonneg_of_nonpos_of_nonpos hA hs, mul_nonneg_of_nonpos_of_nonpos hB.le ht,
      mul_pos hC hv]
  · simp [hA.not_gt, hB.not_gt]

/-- The crossings of the three edges of a triangle around its mean with the weights `A`, `B` and
`C`. -/
theorem crossing_sum_cases (hsum : 0 < A + B + C) (hmean : A * s + B * t + C * v = 0) :
    crossing s t C + crossing t v A + crossing v s B = 0 ∨
      crossing s t C + crossing t v A + crossing v s B = 1 ∧ 0 ≤ A ∧ 0 ≤ B ∧ 0 ≤ C := by
  have hrotate : 0 < B + C + A := by linarith
  have hrotate' : 0 < C + A + B := by linarith
  have hmean' : B * t + C * v + A * s = 0 := by linarith
  have hmean'' : C * v + A * s + B * t = 0 := by linarith
  -- one end on its own side of the ray is rotated to the place that the two lemmas above have it in
  rcases lt_or_ge 0 s with hs | hs <;> rcases lt_or_ge 0 t with ht | ht <;>
    rcases lt_or_ge 0 v with hv | hv
  · left
    simp [crossing, hs.not_ge, ht.not_ge, hv.not_ge]
  · have h := crossing_sum_right hrotate' hmean'' hv hs ht
    rw [add_rotate] at h
    tauto
  · have h := crossing_sum_right hrotate hmean' ht hv hs
    rw [← add_rotate] at h
    tauto
  · have h := crossing_sum_left hrotate hmean' ht hv hs
    rw [← add_rotate] at h
    tauto
  · exact crossing_sum_right hsum hmean hs ht hv
  · have h := crossing_sum_left hrotate' hmean'' hv hs ht
    rw [add_rotate] at h
    tauto
  · exact crossing_sum_left hsum hmean hs ht hv
  · left
    simp [crossing, hs.not_gt, ht.not_gt, hv.not_gt]

omit [Field K] [IsStrictOrderedRing K] in
/-- An edge whose left side is seen and that leads across the ray is crossed. -/
theorem crossing_eq_one [Field K] {g : K} (hs : s ≤ 0) (ht : 0 < t) (hg : 0 < g) :
    crossing s t g = 1 := by
  simp [crossing, hs, ht, hg, ht.not_ge]

/-- Within a triangle the edges are crossed, unless all ends lie on the ray's line. -/
theorem crossing_sum_inside (hmean : A * s + B * t + C * v = 0) (hA : 0 < A) (hB : 0 < B)
    (hC : 0 < C) (hne : ¬(s = 0 ∧ t = 0)) :
    crossing s t C + crossing t v A + crossing v s B = 1 := by
  have hst := crossing_nonneg s t hC.le
  have htv := crossing_nonneg t v hA.le
  have hvs := crossing_nonneg v s hB.le
  have hpos : 0 < crossing s t C + crossing t v A + crossing v s B := by
    rcases le_or_gt s 0 with hs | hs <;> rcases le_or_gt t 0 with ht | ht
    · rcases le_or_gt v 0 with hv | hv
      · have hs' := mul_nonpos_of_nonneg_of_nonpos hA.le hs
        have ht' := mul_nonpos_of_nonneg_of_nonpos hB.le ht
        have hv' := mul_nonpos_of_nonneg_of_nonpos hC.le hv
        have hs₀ : A * s = 0 := by linarith
        have ht₀ : B * t = 0 := by linarith
        exact absurd ⟨(mul_eq_zero.mp hs₀).resolve_left hA.ne',
          (mul_eq_zero.mp ht₀).resolve_left hB.ne'⟩ hne
      · rw [crossing_eq_one ht hv hA]
        omega
    · rw [crossing_eq_one hs ht hC]
      omega
    · rcases le_or_gt v 0 with hv | hv
      · rw [crossing_eq_one hv hs hB]
        omega
      · rw [crossing_eq_one ht hv hA]
        omega
    · have hv : v ≤ 0 := by
        by_contra hv
        nlinarith [mul_pos hA hs, mul_pos hB ht, mul_pos hC (not_le.mp hv)]
      rw [crossing_eq_one hv hs hB]
      omega
  rcases crossing_sum_cases (by linarith) hmean with h | h
  · omega
  · exact h.1

omit [IsStrictOrderedRing K] in
/-- From a point on an edge the other edges are crossed when the edge leads back across the ray. -/
theorem crossing_sum_edge (hA : 0 < A) (hB : 0 < B) (hs : 0 < s) (ht : t < 0) :
    crossing s t 0 + crossing t v A + crossing v s B = 1 := by
  rcases le_or_gt v 0 with hv | hv
  · simp [crossing, hs, ht.le, hv, hA, hB, ht.not_gt, hs.not_ge, hv.not_gt, hA.not_gt]
  · simp [crossing, hs, ht.le, hv, hA, hB, ht.not_gt, hs.not_ge, hv.not_ge, hA.not_gt, hB.not_gt]

omit [IsStrictOrderedRing K] in
/-- From a point on an edge along the ray the other edges are crossed when the third end lies to the
right of the ray. -/
theorem crossing_sum_edge_along (hA : 0 < A) (hB : 0 < B) (hv : 0 < v) :
    crossing 0 0 (0 : K) + crossing 0 v A + crossing v 0 B = 1 := by
  simp [crossing, hA, hB.not_gt, hv]

end Signs

section Triangles

variable {K : Type} [Field K] [LinearOrder K] [FloorRing K]

/-- The side of the line from `q` in the direction `u` that `v` lies on. -/
def side (u q v : Point K) : K :=
  u.x * (v.y - q.y) - u.y * (v.x - q.x)

/-- The signed crossing of an edge and the ray from `q` in the direction `u`. -/
def edgeCover (u q a b : Point K) : ℤ :=
  crossing (side u q a) (side u q b) (orientation a b q)

/-- The number of times that a triangle holds `q`, by the ray in the direction `u`. -/
def cover (u q a b c : Point K) : ℤ :=
  edgeCover u q a b + edgeCover u q b c + edgeCover u q c a

variable [IsStrictOrderedRing K] (u q a b c d : Point K)

/-- Opposite edges cancel. -/
theorem edgeCover_swap : edgeCover u q b a = -edgeCover u q a b := by
  unfold edgeCover
  rw [orientation_swap, crossing_swap]

omit [IsStrictOrderedRing K] in
/-- The sides of the corners balance with the weights of the point. -/
theorem side_mean : orientation b c q * side u q a + orientation c a q * side u q b
    + orientation a b q * side u q c = 0 := by
  unfold side
  simp only [orientation_eq]
  ring

variable {u q a b c d}

/-- A triangle is counted once or not at all, and only if it holds the point. -/
theorem cover_cases (h : 0 < orientation a b c) : cover u q a b c = 0 ∨
    cover u q a b c = 1 ∧
      0 ≤ orientation b c q ∧ 0 ≤ orientation c a q ∧ 0 ≤ orientation a b q :=
  crossing_sum_cases (by rwa [orientation_add]) (side_mean u q a b c)

/-- A ray with a direction is not in line with a triangle's edges. -/
theorem side_ne_zero (h : 0 < orientation a b c) (hu : u.x ≠ 0 ∨ u.y ≠ 0)
    (ha : side u q a = 0) (hb : side u q b = 0) : side u q c ≠ 0 := by
  intro hc
  have hx : orientation a b c * u.x = 0 := by
    unfold side at ha hb hc
    rw [orientation_eq]
    linear_combination (c.x - b.x) * ha + (a.x - c.x) * hb + (b.x - a.x) * hc
  have hy : orientation a b c * u.y = 0 := by
    unfold side at ha hb hc
    rw [orientation_eq]
    linear_combination (c.y - b.y) * ha + (a.y - c.y) * hb + (b.y - a.y) * hc
  rcases hu with hu | hu
  · exact hu ((mul_eq_zero.mp hx).resolve_left h.ne')
  · exact hu ((mul_eq_zero.mp hy).resolve_left h.ne')

/-- A point within a triangle is counted. -/
theorem cover_inside (h : 0 < orientation a b c) (hu : u.x ≠ 0 ∨ u.y ≠ 0)
    (hA : 0 < orientation b c q) (hB : 0 < orientation c a q) (hC : 0 < orientation a b q) :
    cover u q a b c = 1 := by
  have hmean := side_mean u q a b c
  refine crossing_sum_inside hmean hA hB hC fun hst ↦ side_ne_zero h hu hst.1 hst.2 ?_
  rw [hst.1, hst.2, mul_zero, mul_zero, zero_add, zero_add] at hmean
  exact (mul_eq_zero.mp hmean).resolve_left hC.ne'

omit [IsStrictOrderedRing K] in
/-- A point on an edge is counted when the edge leads back across the ray. -/
theorem cover_of_edge (hA : 0 < orientation b c q) (hB : 0 < orientation c a q)
    (hC : orientation a b q = 0) (hs : 0 < side u q a) (ht : side u q b < 0) :
    cover u q a b c = 1 := by
  unfold cover edgeCover
  rw [hC]
  exact crossing_sum_edge hA hB hs ht

/-- A point on the edge between two triangles is counted for one of them. -/
theorem cover_of_edge_pair (h : 0 < orientation a b c) (h' : 0 < orientation b a d)
    (hu : u.x ≠ 0 ∨ u.y ≠ 0) (hA : 0 < orientation b c q) (hB : 0 < orientation c a q)
    (hC : orientation a b q = 0) : cover u q a b c = 1 ∨ cover u q b a d = 1 := by
  have hA' : 0 < orientation a d q := by
    have hmul : orientation a b c * orientation a d q =
        orientation c a q * orientation b a d + orientation a b q * orientation a d c := by
      simp only [orientation_eq]
      ring
    rw [hC, zero_mul, add_zero] at hmul
    exact (mul_pos_iff_of_pos_left h).mp (hmul ▸ mul_pos hB h')
  have hB' : 0 < orientation d b q := by
    have hmul : orientation a b c * orientation d b q =
        orientation b c q * orientation b a d + orientation a b q * orientation d b c := by
      simp only [orientation_eq]
      ring
    rw [hC, zero_mul, add_zero] at hmul
    exact (mul_pos_iff_of_pos_left h).mp (hmul ▸ mul_pos hA h')
  have hC' : orientation b a q = 0 := by
    rw [orientation_swap, hC, neg_zero]
  have hmean := side_mean u q a b c
  rw [hC, zero_mul, add_zero] at hmean
  rcases lt_trichotomy (side u q a) 0 with hs | hs | hs
  · right
    have ht : 0 < side u q b := by
      by_contra ht
      nlinarith [mul_neg_of_pos_of_neg hA hs, mul_nonpos_of_nonneg_of_nonpos hB.le (not_lt.mp ht)]
    exact cover_of_edge hA' hB' hC' ht hs
  · have ht : side u q b = 0 := by
      rw [hs, mul_zero, zero_add] at hmean
      exact (mul_eq_zero.mp hmean).resolve_left hB.ne'
    -- the third corners lie on different sides of the common edge, along which the ray leads
    have hthird : side u q d * orientation a b c = -side u q c * orientation b a d := by
      unfold side at hs ht ⊢
      simp only [orientation_eq]
      linear_combination ((c.x - b.x) * (d.y - b.y) - (c.y - b.y) * (d.x - b.x)) * hs
        - ((c.x - a.x) * (d.y - a.y) - (c.y - a.y) * (d.x - a.x)) * ht
    unfold cover edgeCover
    rw [hs, ht, hC, hC']
    rcases lt_or_gt_of_ne (side_ne_zero h hu hs ht) with hc | hc
    · right
      have hd : 0 < side u q d :=
        (mul_pos_iff_of_pos_right h).mp (hthird ▸ mul_pos (neg_pos.mpr hc) h')
      exact crossing_sum_edge_along hA' hB' hd
    · left
      exact crossing_sum_edge_along hA hB hc
  · left
    have ht : side u q b < 0 := by
      by_contra ht
      nlinarith [mul_pos hA hs, mul_nonneg hB.le (not_lt.mp ht)]
    exact cover_of_edge hA hB hC hs ht

/-- The point halfway between the ends of an edge. -/
def midpoint (a b : Point K) : Point K :=
  ⟨(a.x + b.x) / 2, (a.y + b.y) / 2⟩

/-- The direction to the left of an edge. -/
def leftward (a b : Point K) : Point K :=
  ⟨-(b.y - a.y), b.x - a.x⟩

/-- Halfway along an edge the triangle to the left is counted, by the ray to the left. -/
theorem cover_midpoint (h : 0 < orientation a b c) :
    cover (leftward a b) (midpoint a b) a b c = 1 := by
  have hA : orientation b c (midpoint a b) = orientation a b c / 2 := by
    simp only [orientation_eq, midpoint]
    ring
  have hB : orientation c a (midpoint a b) = orientation a b c / 2 := by
    simp only [orientation_eq, midpoint]
    ring
  have hC : orientation a b (midpoint a b) = 0 := by
    simp only [orientation_eq, midpoint]
    ring
  have hs : side (leftward a b) (midpoint a b) a = distSq a b / 2 := by
    unfold side leftward midpoint distSq
    ring
  have ht : side (leftward a b) (midpoint a b) b = -(distSq a b / 2) := by
    unfold side leftward midpoint distSq
    ring
  have hdist := distSq_pos (ne_of_orientation_pos h).1
  refine cover_of_edge ?_ ?_ hC ?_ ?_
  · rw [hA]
    exact half_pos h
  · rw [hB]
    exact half_pos h
  · rw [hs]
    exact half_pos hdist
  · rw [ht]
    exact neg_neg_of_pos (half_pos hdist)

/-- The direction from a point toward the middle of an edge. -/
def toward (q a b : Point K) : Point K :=
  ⟨(a.x - q.x) + (b.x - q.x), (a.y - q.y) + (b.y - q.y)⟩

/-- An edge whose left side is seen is crossed by the ray toward its middle. -/
theorem edgeCover_toward (h : 0 < orientation a b q) : edgeCover (toward q a b) q a b = 1 := by
  have hs : side (toward q a b) q a = -orientation a b q := by
    rw [orientation_eq]
    unfold side toward
    ring
  have ht : side (toward q a b) q b = orientation a b q := by
    rw [orientation_eq]
    unfold side toward
    ring
  unfold edgeCover
  rw [hs, ht]
  exact crossing_eq_one (neg_neg_of_pos h).le h h

omit [IsStrictOrderedRing K] in
/-- The direction toward the middle of an edge that is seen from its left. -/
theorem toward_ne_zero (h : 0 < orientation a b q) :
    (toward q a b).x ≠ 0 ∨ (toward q a b).y ≠ 0 := by
  by_contra hzero
  obtain ⟨hx, hy⟩ := not_or.mp hzero
  have ht : side (toward q a b) q b = orientation a b q := by
    rw [orientation_eq]
    unfold side toward
    ring
  unfold side at ht
  rw [not_not.mp hx, not_not.mp hy, zero_mul, zero_mul, sub_zero] at ht
  exact h.ne ht

end Triangles

end PlasmaField.Delaunay
