import Mathlib
import PlasmaField.Proofs.Delaunay.Cover

/-!
# Circles with no point within them

A circle through two points can be widened to one side until it meets a point, `exists_wider`. The
points that are closest to each other have no other point within the circle between them, so that
among points that are not all in line there are three whose circle has no point within it,
`exists_empty_circle`.
-/

namespace PlasmaField.Delaunay

open scoped Exact

variable {K : Type} [Field K] [LinearOrder K] [FloorRing K]

/-- The centre moved along the middle line of `a` and `b`. -/
def shift (o a b : Point K) (m : K) : Point K :=
  ⟨o.x + m * (b.y - a.y) / 2, o.y - m * (b.x - a.x) / 2⟩

/-- Moving the centre adds a multiple of the orientation to the powers. -/
theorem distSq_shift [CharZero K] (o a b : Point K) (m : K) (p : Point K) :
    distSq (shift o a b m) p - distSq (shift o a b m) a =
      distSq o p - distSq o a + m * orientation a b p := by
  unfold distSq shift
  simp only [orientation_eq]
  field_simp
  ring

/-- From two points on, the centre can be moved to be as far from any third point off their line. -/
theorem equidistant_shift [CharZero K] {o a b c : Point K} (hab : distSq o a = distSq o b)
    (hc : orientation a b c ≠ 0) :
    Equidistant (shift o a b ((distSq o c - distSq o a) / -orientation a b c)) a b c := by
  set m := (distSq o c - distSq o a) / -orientation a b c with hm
  have hmeets : distSq o c - distSq o a + m * orientation a b c = 0 := by
    rw [hm]
    field_simp
    ring
  have hsecond := distSq_shift o a b m b
  rw [orientation_right, hab, sub_self, mul_zero, add_zero, sub_eq_zero] at hsecond
  have hthird := distSq_shift o a b m c
  rw [hmeets, sub_eq_zero] at hthird
  exact ⟨hsecond.symm, hsecond.trans hthird.symm⟩

omit [LinearOrder K] [FloorRing K] in
/-- The middle of two points is as far from both. -/
theorem distSq_midpoint_eq [CharZero K] (a b : Point K) :
    distSq (midpoint a b) a = distSq (midpoint a b) b := by
  unfold distSq midpoint
  ring

/-- Three points that are not in line have a circle. -/
theorem exists_equidistant [CharZero K] {a b c : Point K} (h : orientation a b c ≠ 0) :
    ∃ o, Equidistant o a b c :=
  ⟨_, equidistant_shift (distSq_midpoint_eq a b) h⟩

/-- The circle around `o` through point number `i` has none of the points below `n` within it. -/
def EmptyCircle (pos : ℕ → Point K) (n : ℕ) (o : Point K) (i : ℕ) : Prop :=
  ∀ v < n, distSq o (pos i) ≤ distSq o (pos v)

variable [IsStrictOrderedRing K] {pos : ℕ → Point K} {n : ℕ}

omit [IsStrictOrderedRing K] in
/-- The difference of two powers at a point is the corners' mean, with the opposite triangles as
weights. -/
theorem orientation_mul_power_sub (a b c p o o' : Point K) (r r' : K) :
    orientation a b c * (power o r p - power o' r' p) =
      orientation b c p * (power o r a - power o' r' a)
        + orientation c a p * (power o r b - power o' r' b)
        + orientation a b p * (power o r c - power o' r' c) := by
  unfold power
  simp only [orientation_eq]
  ring

/-- The mean of three points. -/
def mean (a b c : Point K) : Point K :=
  ⟨(a.x + b.x + c.x) / 3, (a.y + b.y + c.y) / 3⟩

omit [IsStrictOrderedRing K] in
/-- The orientation of a mean is the mean of the orientations. -/
theorem orientation_mean (a b x y z : Point K) : orientation a b (mean x y z) =
    (orientation a b x + orientation a b y + orientation a b z) / 3 := by
  simp only [orientation_eq, mean]
  ring

/-- Two circles are the same if the first has no smaller powers at the corners of a triangle, and no
larger ones at the corners of another one whose mean the triangle holds. -/
theorem power_eq_of_mean {a b c x y z o o' : Point K} {r r' : K} (habc : 0 < orientation a b c)
    (hxyz : orientation x y z ≠ 0) (hA : 0 ≤ orientation b c (mean x y z))
    (hB : 0 ≤ orientation c a (mean x y z)) (hC : 0 ≤ orientation a b (mean x y z))
    (ha : power o' r' a ≤ power o r a) (hb : power o' r' b ≤ power o r b)
    (hc : power o' r' c ≤ power o r c) (hx : power o r x ≤ power o' r' x)
    (hy : power o r y ≤ power o' r' y) (hz : power o r z ≤ power o' r' z) (p : Point K) :
    power o r p = power o' r' p := by
  have hthird : power o r (mean x y z) - power o' r' (mean x y z) =
      ((power o r x - power o' r' x) + (power o r y - power o' r' y)
        + (power o r z - power o' r' z)) / 3 := by
    unfold power mean
    ring
  have hmean : 0 ≤ power o r (mean x y z) - power o' r' (mean x y z) := by
    refine (mul_nonneg_iff_of_pos_left habc).mp ?_
    rw [orientation_mul_power_sub]
    exact add_nonneg (add_nonneg (mul_nonneg hA (sub_nonneg.mpr ha))
      (mul_nonneg hB (sub_nonneg.mpr hb))) (mul_nonneg hC (sub_nonneg.mpr hc))
  have hx₀ : power o r x - power o' r' x = 0 := by linarith
  have hy₀ : power o r y - power o' r' y = 0 := by linarith
  have hz₀ : power o r z - power o' r' z = 0 := by linarith
  have hp := orientation_mul_power_sub x y z p o o' r r'
  rw [hx₀, hy₀, hz₀, mul_zero, mul_zero, mul_zero, add_zero, add_zero] at hp
  exact sub_eq_zero.mp ((mul_eq_zero.mp hp).resolve_left hxyz)

/-- A circle through two points that has no point within it can be widened to the right until it
meets a point there. -/
theorem exists_wider {o : Point K} {i j : ℕ} (hj : distSq o (pos i) = distSq o (pos j))
    (hempty : EmptyCircle pos n o i)
    (hright : ∃ v < n, orientation (pos i) (pos j) (pos v) < 0) :
    ∃ l < n, orientation (pos i) (pos j) (pos l) < 0 ∧
      ∃ o', Equidistant o' (pos i) (pos j) (pos l) ∧ EmptyCircle pos n o' i := by
  obtain ⟨v, hv, hneg⟩ := hright
  -- the circle meets first the point for which the centre moves least
  obtain ⟨l, hl, hmin⟩ := Finset.exists_min_image
    ((Finset.range n).filter fun v ↦ orientation (pos i) (pos j) (pos v) < 0)
    (fun v ↦ (distSq o (pos v) - distSq o (pos i)) / -orientation (pos i) (pos j) (pos v))
    ⟨v, by simp [hv, hneg]⟩
  simp only [Finset.mem_filter, Finset.mem_range] at hl hmin
  obtain ⟨hl, hlneg⟩ := hl
  set m := (distSq o (pos l) - distSq o (pos i)) / -orientation (pos i) (pos j) (pos l) with hm
  have hm0 : 0 ≤ m := div_nonneg (sub_nonneg.mpr (hempty l hl)) (neg_nonneg.mpr hlneg.le)
  have hshift := distSq_shift o (pos i) (pos j) m
  refine ⟨l, hl, hlneg, shift o (pos i) (pos j) m, equidistant_shift hj hlneg.ne, fun w hw ↦ ?_⟩
  rw [← sub_nonneg, hshift]
  have hpower := sub_nonneg.mpr (hempty w hw)
  rcases lt_or_ge (orientation (pos i) (pos j) (pos w)) 0 with hside | hside
  · have hle := hmin w ⟨hw, hside⟩
    rw [le_div_iff₀ (neg_pos.mpr hside)] at hle
    linarith
  · exact add_nonneg hpower (mul_nonneg hm0 hside)

omit [LinearOrder K] [FloorRing K] [IsStrictOrderedRing K] in
/-- The power with respect to the circle between two points. -/
theorem distSq_midpoint [CharZero K] (a b p : Point K) :
    distSq (midpoint a b) p - distSq (midpoint a b) a =
      (distSq a p + distSq b p - distSq a b) / 2 := by
  unfold distSq midpoint
  ring

/-- Points on the line through two different points are in line. -/
theorem orientation_eq_zero_of_line {a b : Point K} (hab : a ≠ b) {x y z : Point K}
    (hx : orientation a b x = 0) (hy : orientation a b y = 0) (hz : orientation a b z = 0) :
    orientation x y z = 0 := by
  have hmul : distSq a b * orientation x y z = 0 := by
    unfold distSq
    simp only [orientation_eq] at *
    linear_combination
      ((b.x - a.x) * (y.x - x.x) + (b.y - a.y) * (y.y - x.y)) * (hz - hx)
        - ((b.x - a.x) * (z.x - x.x) + (b.y - a.y) * (z.y - x.y)) * (hy - hx)
  exact (mul_eq_zero.mp hmul).resolve_left (distSq_pos hab).ne'

/-- The circle between two points that are closest to each other is empty. -/
theorem exists_empty_midpoint
    (hne : ∃ i < n, ∃ j < n, pos i ≠ pos j) :
    ∃ i < n, ∃ j < n, pos i ≠ pos j ∧ EmptyCircle pos n (midpoint (pos i) (pos j)) i := by
  classical
  obtain ⟨i₀, hi₀, j₀, hj₀, hne₀⟩ := hne
  obtain ⟨⟨i, j⟩, hij, hmin⟩ := Finset.exists_min_image
    ((Finset.range n ×ˢ Finset.range n).filter fun e ↦ pos e.1 ≠ pos e.2)
    (fun e ↦ distSq (pos e.1) (pos e.2)) ⟨(i₀, j₀), by simp [hi₀, hj₀, hne₀]⟩
  simp only [Finset.mem_filter, Finset.mem_product, Finset.mem_range, Prod.forall] at hij hmin
  obtain ⟨⟨hi, hj⟩, hne⟩ := hij
  refine ⟨i, hi, j, hj, hne, fun v hv ↦ ?_⟩
  rw [← sub_nonneg, distSq_midpoint]
  by_cases hvi : pos v = pos i
  · have hzero : distSq (pos i) (pos v) + distSq (pos j) (pos v) - distSq (pos i) (pos j) = 0 := by
      rw [hvi]
      unfold distSq
      ring
    rw [hzero, zero_div]
  · have hle := hmin i v ⟨⟨hi, hv⟩, fun h ↦ hvi h.symm⟩
    have hnonneg : 0 ≤ distSq (pos j) (pos v) := by
      unfold distSq
      positivity
    linarith

/-- Among points that are not all in line there are three whose circle has no point within it. -/
theorem exists_empty_circle
    (hline : ∃ i < n, ∃ j < n, ∃ k < n, orientation (pos i) (pos j) (pos k) ≠ 0) :
    ∃ i < n, ∃ j < n, ∃ k < n, orientation (pos i) (pos j) (pos k) ≠ 0 ∧
      ∃ o, Equidistant o (pos i) (pos j) (pos k) ∧ EmptyCircle pos n o i := by
  obtain ⟨i₀, hi₀, j₀, hj₀, k₀, hk₀, hne₀⟩ := hline
  have hdistinct : pos i₀ ≠ pos j₀ := by
    intro h
    simp [orientation_eq, h] at hne₀
  obtain ⟨i, hi, j, hj, hne, hempty⟩ := exists_empty_midpoint ⟨i₀, hi₀, j₀, hj₀, hdistinct⟩
  have hsame := distSq_midpoint_eq (pos i) (pos j)
  obtain ⟨v, hv, hside⟩ : ∃ v < n, orientation (pos i) (pos j) (pos v) ≠ 0 := by
    by_contra hall
    push Not at hall
    exact hne₀ (orientation_eq_zero_of_line hne (hall i₀ hi₀) (hall j₀ hj₀) (hall k₀ hk₀))
  rcases lt_or_gt_of_ne hside with hright | hleft
  · obtain ⟨l, hl, hlside, hcircle⟩ := exists_wider hsame hempty ⟨v, hv, hright⟩
    exact ⟨i, hi, j, hj, l, hl, hlside.ne, hcircle⟩
  · have hempty' : EmptyCircle pos n (midpoint (pos i) (pos j)) j := fun w hw ↦
      hsame ▸ hempty w hw
    obtain ⟨l, hl, hlside, hcircle⟩ := exists_wider hsame.symm hempty'
      ⟨v, hv, by rw [orientation_swap]; exact neg_neg_of_pos hleft⟩
    exact ⟨j, hj, i, hi, l, hl, hlside.ne, hcircle⟩

end PlasmaField.Delaunay
