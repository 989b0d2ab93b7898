import Mathlib
import PlasmaField.Delaunay
import PlasmaField.Proofs.Exact

/-!
# Triangles and their circles

Facts about the orientation of three points and the power of a point with respect to a circle, over
exact scalars. Two circles through two common points differ by a multiple of the orientation with
respect to these points, `power_sub_power`, which decides on which side one circle reaches further.
A triangle lies in its circumcircle, `power_neg`. The computed centre is the circumcentre unless the
corners are nearly in line, `equidistant_centreOf`.
-/

namespace PlasmaField.Delaunay

open scoped Exact

variable {K : Type} [Field K]

/-- The power of a point with respect to a circle: negative inside, zero on the circle. -/
def power (centre : Point K) (radiusSq : K) (p : Point K) : K :=
  (p.x - centre.x) ^ 2 + (p.y - centre.y) ^ 2 - radiusSq

/-- The square of the distance of two points. -/
def distSq (a b : Point K) : K :=
  (b.x - a.x) ^ 2 + (b.y - a.y) ^ 2

/-- The point is as far from the three corners. -/
def Equidistant (o a b c : Point K) : Prop :=
  distSq o a = distSq o b ∧ distSq o b = distSq o c

/-- The power is the difference to the square of the distance from the centre. -/
theorem power_eq (o : Point K) (r : K) (p : Point K) : power o r p = distSq o p - r :=
  rfl

section Orientation

variable [LinearOrder K] [FloorRing K] (a b c p : Point K)

/-- The orientation in the field's operations. -/
theorem orientation_eq :
    orientation a b p = (b.x - a.x) * (p.y - a.y) - (b.y - a.y) * (p.x - a.x) :=
  rfl

/-- The corners may be rotated. -/
theorem orientation_rotate : orientation b c a = orientation a b c := by
  simp only [orientation_eq]
  ring

/-- Exchanging the ends of an edge exchanges its sides. -/
theorem orientation_swap : orientation b a p = -orientation a b p := by
  simp only [orientation_eq]
  ring

/-- The ends of an edge lie on it. -/
theorem orientation_left : orientation a b a = 0 := by
  rw [orientation_eq]
  ring

/-- The ends of an edge lie on it. -/
theorem orientation_right : orientation a b b = 0 := by
  rw [orientation_eq]
  ring

/-- The triangles that a point makes with the edges add up to the triangle. -/
theorem orientation_add :
    orientation b c p + orientation c a p + orientation a b p = orientation a b c := by
  simp only [orientation_eq]
  ring

/-- The point is the corners' mean with the opposite triangles as weights, along `x`. -/
theorem orientation_mul_x : orientation a b c * p.x =
    orientation b c p * a.x + orientation c a p * b.x + orientation a b p * c.x := by
  simp only [orientation_eq]
  ring

/-- The point is the corners' mean with the opposite triangles as weights, along `y`. -/
theorem orientation_mul_y : orientation a b c * p.y =
    orientation b c p * a.y + orientation c a p * b.y + orientation a b p * c.y := by
  simp only [orientation_eq]
  ring

variable {a b c p}

/-- The powers with respect to two circles through two common points differ by the same multiple of
the orientation at every point. -/
theorem power_sub_power {o o' : Point K} {r r' : K} (q : Point K) (ha : power o r a = 0)
    (hb : power o r b = 0) (ha' : power o' r' a = 0) (hb' : power o' r' b = 0) :
    (power o r p - power o' r' p) * orientation a b q =
      (power o r q - power o' r' q) * orientation a b p := by
  unfold power at *
  simp only [orientation_eq] at *
  linear_combination ((p.x - a.x) * (q.y - a.y) - (p.y - a.y) * (q.x - a.x)) * (hb - hb')
    - ((p.x - b.x) * (q.y - b.y) - (p.y - b.y) * (q.x - b.x)) * (ha - ha')

/-- Of two circles through two common points, the one that passes through a point on their left
reaches less far to the side that the other one has left of the point. -/
theorem power_le_power [IsStrictOrderedRing K] {o o' : Point K} {r r' : K} {q : Point K}
    (ha : power o r a = 0) (hb : power o r b = 0) (ha' : power o' r' a = 0)
    (hb' : power o' r' b = 0) (hp : power o r p = 0) (hleft : 0 < orientation a b p)
    (h : 0 ≤ -power o' r' p * orientation a b q) : power o' r' q ≤ power o r q := by
  have hpencil := power_sub_power (p := q) p ha hb ha' hb'
  rw [hp, zero_sub] at hpencil
  rw [← hpencil] at h
  exact sub_nonneg.mp (nonneg_of_mul_nonneg_left h hleft)

/-- On which side of the circle through three points a point lies: negative inside, zero on it. -/
def circleSide (a b c p : Point K) : K :=
  -(orientation b c p * orientation c a p * distSq a b
    + orientation c a p * orientation a b p * distSq b c
    + orientation a b p * orientation b c p * distSq c a)

/-- The power with respect to the circumcircle, by the products of the triangles that the point
makes with the edges. -/
theorem power_mul_orientation_sq {o : Point K} {r : K} (ha : power o r a = 0)
    (hb : power o r b = 0) (hc : power o r c = 0) :
    power o r p * orientation a b c ^ 2 = circleSide a b c p := by
  unfold power circleSide distSq at *
  simp only [orientation_eq]
  linear_combination
    ((b.x - a.x) * (c.y - a.y) - (b.y - a.y) * (c.x - a.x)) *
      (((c.x - b.x) * (p.y - b.y) - (c.y - b.y) * (p.x - b.x)) * ha
        + ((a.x - c.x) * (p.y - c.y) - (a.y - c.y) * (p.x - c.x)) * hb
        + ((b.x - a.x) * (p.y - a.y) - (b.y - a.y) * (p.x - a.x)) * hc)

section Ordered

variable [IsStrictOrderedRing K]

omit [FloorRing K] in
/-- Different points have a positive distance. -/
theorem distSq_pos (h : a ≠ b) : 0 < distSq a b := by
  unfold distSq
  rcases ne_or_eq a.x b.x with hx | hx
  · have hne : b.x - a.x ≠ 0 := sub_ne_zero.mpr hx.symm
    positivity
  · have hy : b.y - a.y ≠ 0 := by
      intro hy
      apply h
      rcases a with ⟨ax, ay⟩
      rcases b with ⟨bx, bY⟩
      simp only at hx hy
      rw [hx, sub_eq_zero.mp hy]
    positivity

omit [IsStrictOrderedRing K] in
/-- The side of a circle says how a point's distance from the centre compares to the radius. -/
theorem circleSide_eq {o : Point K} (ho : Equidistant o a b c) :
    circleSide a b c p = (distSq o p - distSq o a) * orientation a b c ^ 2 := by
  have hb : power o (distSq o a) b = 0 := sub_eq_zero.mpr ho.1.symm
  have hc : power o (distSq o a) c = 0 := sub_eq_zero.mpr (ho.1.trans ho.2).symm
  exact (power_mul_orientation_sq (sub_self _) hb hc).symm

/-- A point lies within no circle that it is not on the inner side of. -/
theorem circleSide_nonneg_iff {o : Point K} (ho : Equidistant o a b c)
    (h : orientation a b c ≠ 0) : 0 ≤ circleSide a b c p ↔ distSq o a ≤ distSq o p := by
  rw [circleSide_eq ho, mul_nonneg_iff_of_pos_right (by positivity), sub_nonneg]

/-- A point lies outside a circle when it is on the outer side. -/
theorem circleSide_pos_iff {o : Point K} (ho : Equidistant o a b c)
    (h : orientation a b c ≠ 0) : 0 < circleSide a b c p ↔ distSq o a < distSq o p := by
  rw [circleSide_eq ho, mul_pos_iff_of_pos_right (by positivity), sub_pos]

omit [IsStrictOrderedRing K] in
/-- The corners of a triangle are different points. -/
theorem ne_of_orientation_pos (h : 0 < orientation a b c) : a ≠ b ∧ b ≠ c ∧ c ≠ a := by
  refine ⟨?_, ?_, ?_⟩
  · rintro rfl
    simp [orientation_eq] at h
  · rintro rfl
    rw [orientation_right] at h
    exact h.false
  · rintro rfl
    rw [orientation_left] at h
    exact h.false

omit [IsStrictOrderedRing K] in
/-- A point in line with two edges of a triangle is their common corner. -/
theorem eq_of_orientation_eq_zero (h : 0 < orientation a b c) (hb : orientation c a p = 0)
    (hc : orientation a b p = 0) : p = a := by
  have hsum := orientation_add a b c p
  have hx := orientation_mul_x a b c p
  have hy := orientation_mul_y a b c p
  rw [hb, hc, add_zero, add_zero] at hsum
  rw [hb, hc, hsum, zero_mul, zero_mul, add_zero, add_zero] at hx hy
  rcases p with ⟨px, py⟩
  rcases a with ⟨ax, ay⟩
  congr
  · exact mul_left_cancel₀ h.ne' hx
  · exact mul_left_cancel₀ h.ne' hy

/-- A point of a triangle that is not a corner lies within the circumcircle. -/
theorem power_neg {o : Point K} {r : K} (h : 0 < orientation a b c) (ha : power o r a = 0)
    (hb : power o r b = 0) (hc : power o r c = 0) (hA : 0 ≤ orientation b c p)
    (hB : 0 ≤ orientation c a p) (hC : 0 ≤ orientation a b p) (hpa : p ≠ a) (hpb : p ≠ b)
    (hpc : p ≠ c) : power o r p < 0 := by
  obtain ⟨hab, hbc, hca⟩ := ne_of_orientation_pos h
  have hab := distSq_pos hab
  have hbc := distSq_pos hbc
  have hca := distSq_pos hca
  -- in line with two edges the point would be their common corner, so one product is positive
  have hnotA : ¬(orientation c a p = 0 ∧ orientation a b p = 0) := fun h₀ ↦
    hpa (eq_of_orientation_eq_zero h h₀.1 h₀.2)
  have hnotB : ¬(orientation a b p = 0 ∧ orientation b c p = 0) := fun h₀ ↦
    hpb (eq_of_orientation_eq_zero (by rwa [orientation_rotate]) h₀.1 h₀.2)
  have hnotC : ¬(orientation b c p = 0 ∧ orientation c a p = 0) := fun h₀ ↦
    hpc (eq_of_orientation_eq_zero (by rwa [orientation_rotate, orientation_rotate]) h₀.1 h₀.2)
  have hpos : 0 < orientation b c p * orientation c a p * distSq a b
      + orientation c a p * orientation a b p * distSq b c
      + orientation a b p * orientation b c p * distSq c a := by
    rcases hA.eq_or_lt with hA | hA
    · have hB : 0 < orientation c a p := hB.lt_of_ne fun h₀ ↦ hnotC ⟨hA.symm, h₀.symm⟩
      have hC : 0 < orientation a b p := hC.lt_of_ne fun h₀ ↦ hnotB ⟨h₀.symm, hA.symm⟩
      rw [← hA]
      simp only [zero_mul, mul_zero, zero_add, add_zero]
      positivity
    · rcases hB.eq_or_lt with hB | hB
      · have hC : 0 < orientation a b p := hC.lt_of_ne fun h₀ ↦ hnotA ⟨hB.symm, h₀.symm⟩
        rw [← hB]
        simp only [zero_mul, mul_zero, zero_add]
        positivity
      · positivity
  have hpower := power_mul_orientation_sq (p := p) ha hb hc
  unfold circleSide at hpower
  by_contra hge
  have := mul_nonneg (not_lt.mp hge) (sq_nonneg (orientation a b c))
  linarith

end Ordered

end Orientation

/-! ## The computed centre -/

section Centre

variable [LinearOrder K] [FloorRing K]

/-- The corners are far enough from a line for the centre to be computed. -/
def Spread (p₀ p₁ p₂ : Point K) : Prop :=
  Scalar.epsilon * max (p₀.x ^ 2 + p₀.y ^ 2 + (p₁.x ^ 2 + p₁.y ^ 2) + (p₂.x ^ 2 + p₂.y ^ 2)) 1 <
    |2 * (p₀.x * (p₁.y - p₂.y) + p₁.x * (p₂.y - p₀.y) + p₂.x * (p₀.y - p₁.y))|

/-- Corners are spread when their orientation exceeds a bound. -/
theorem spread_iff [IsStrictOrderedRing K] {p₀ p₁ p₂ : Point K} : Spread p₀ p₁ p₂ ↔
    Scalar.epsilon * max (p₀.x ^ 2 + p₀.y ^ 2 + (p₁.x ^ 2 + p₁.y ^ 2) + (p₂.x ^ 2 + p₂.y ^ 2)) 1 <
      2 * |orientation p₀ p₁ p₂| := by
  have harea : 2 * (p₀.x * (p₁.y - p₂.y) + p₁.x * (p₂.y - p₀.y) + p₂.x * (p₀.y - p₁.y)) =
      2 * orientation p₀ p₁ p₂ := by
    rw [orientation_eq]
    ring
  rw [Spread, harea, abs_mul, abs_two]

/-- Spread corners are not near a line by an absolute measure, either. -/
theorem Spread.epsilon_lt [IsStrictOrderedRing K] {p₀ p₁ p₂ : Point K} (h : Spread p₀ p₁ p₂) :
    Scalar.epsilon < 2 * |orientation p₀ p₁ p₂| := by
  refine (le_mul_of_one_le_right Exact.epsilon_pos.le ?_).trans_lt (spread_iff.mp h)
  exact le_max_right _ _

/-- Spread corners are not in line. -/
theorem Spread.orientation_ne [IsStrictOrderedRing K] {p₀ p₁ p₂ : Point K} (h : Spread p₀ p₁ p₂) :
    orientation p₀ p₁ p₂ ≠ 0 := by
  have hpos := Exact.epsilon_pos.trans h.epsilon_lt
  rw [mul_pos_iff_of_pos_left two_pos] at hpos
  exact abs_pos.mp hpos

/-- The centre of spread corners in coordinates. -/
theorem centreOf_of_spread {p₀ p₁ p₂ : Point K} (h : Spread p₀ p₁ p₂) : centreOf p₀ p₁ p₂ =
    ⟨((p₀.x ^ 2 + p₀.y ^ 2) * (p₁.y - p₂.y) + (p₁.x ^ 2 + p₁.y ^ 2) * (p₂.y - p₀.y)
        + (p₂.x ^ 2 + p₂.y ^ 2) * (p₀.y - p₁.y)) / (2 * orientation p₀ p₁ p₂),
      ((p₀.x ^ 2 + p₀.y ^ 2) * (p₂.x - p₁.x) + (p₁.x ^ 2 + p₁.y ^ 2) * (p₀.x - p₂.x)
        + (p₂.x ^ 2 + p₂.y ^ 2) * (p₁.x - p₀.x)) / (2 * orientation p₀ p₁ p₂)⟩ := by
  have harea : 2 * orientation p₀ p₁ p₂ =
      2 * (p₀.x * (p₁.y - p₂.y) + p₁.x * (p₂.y - p₀.y) + p₂.x * (p₀.y - p₁.y)) := by
    rw [orientation_eq]
    ring
  rw [harea]
  unfold centreOf
  simp only [Exact.literal_ofNat, Exact.literal_one, Exact.max_eq, ← pow_two]
  exact if_pos h

/-- The centre of corners that are not spread is their centroid. -/
theorem centreOf_of_not_spread {p₀ p₁ p₂ : Point K} (h : ¬ Spread p₀ p₁ p₂) :
    centreOf p₀ p₁ p₂ = ⟨(p₀.x + p₁.x + p₂.x) / 3, (p₀.y + p₁.y + p₂.y) / 3⟩ := by
  unfold centreOf
  simp only [Exact.literal_ofNat, Exact.literal_one, Exact.max_eq, ← pow_two]
  exact if_neg h

/-- The centre of spread corners is as far from each of them. -/
theorem equidistant_centreOf [IsStrictOrderedRing K] {p₀ p₁ p₂ : Point K} (h : Spread p₀ p₁ p₂) :
    Equidistant (centreOf p₀ p₁ p₂) p₀ p₁ p₂ := by
  have hne := h.orientation_ne
  rw [centreOf_of_spread h]
  unfold Equidistant distSq
  constructor
  · field_simp
    rw [orientation_eq]
    ring
  · field_simp
    rw [orientation_eq]
    ring

end Centre

end PlasmaField.Delaunay
