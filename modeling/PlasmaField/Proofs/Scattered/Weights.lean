import Mathlib
import PlasmaField.Scattered
import PlasmaField.Proofs.Delaunay.Partition

/-!
# The weights of a target on a triangle

The weights that are computed for a target are the shares that the target's triangles with the
edges have in the whole, `weightsOn?_eq_some_iff`. They add up to one and have the target as their
mean of the corners. No weight is negative when the triangle holds the target.
-/

namespace PlasmaField.Scattered

open scoped Exact
open Delaunay (pointAt orientation Within)

variable {K : Type} [Field K] [LinearOrder K] [FloorRing K]

/-- The triangle is too thin for targets to be located on it. -/
def Thin (points : Array (Point K)) (t : Triangle K) : Prop :=
  |orientation (pointAt points t.a) (pointAt points t.b) (pointAt points t.c)| ≤
    Scalar.epsilon * (|(pointAt points t.a).x - (pointAt points t.c).x|
      + |(pointAt points t.a).y - (pointAt points t.c).y|) ^ 2

/-- Whether a triangle is too thin can be computed. -/
instance (points : Array (Point K)) (t : Triangle K) : Decidable (Thin points t) :=
  inferInstanceAs (Decidable (_ ≤ _))

/-- The shares of the triangles that a target makes with the edges, each for the opposite corner. -/
def sharesOf (points : Array (Point K)) (t : Triangle K) (q : Point K) : K × K × K :=
  (orientation (pointAt points t.b) (pointAt points t.c) q /
      orientation (pointAt points t.a) (pointAt points t.b) (pointAt points t.c),
    orientation (pointAt points t.c) (pointAt points t.a) q /
      orientation (pointAt points t.a) (pointAt points t.b) (pointAt points t.c),
    orientation (pointAt points t.a) (pointAt points t.b) q /
      orientation (pointAt points t.a) (pointAt points t.b) (pointAt points t.c))

section Shares

variable {points : Array (Point K)} {t : Triangle K}
  (ht : orientation (pointAt points t.a) (pointAt points t.b) (pointAt points t.c) ≠ 0)
  (q : Point K)
include ht

/-- The shares add up to one. -/
theorem shares_sum :
    (sharesOf points t q).1 + (sharesOf points t q).2.1 + (sharesOf points t q).2.2 = 1 := by
  unfold sharesOf
  rw [← add_div, ← add_div, Delaunay.orientation_add, div_self ht]

/-- The target is the corners' mean with the shares as weights, along `x`. -/
theorem shares_x : q.x = (sharesOf points t q).1 * (pointAt points t.a).x
    + (sharesOf points t q).2.1 * (pointAt points t.b).x
    + (sharesOf points t q).2.2 * (pointAt points t.c).x := by
  have hmul := Delaunay.orientation_mul_x (pointAt points t.a) (pointAt points t.b)
    (pointAt points t.c) q
  unfold sharesOf
  field_simp
  rw [mul_comm, hmul]

/-- The target is the corners' mean with the shares as weights, along `y`. -/
theorem shares_y : q.y = (sharesOf points t q).1 * (pointAt points t.a).y
    + (sharesOf points t q).2.1 * (pointAt points t.b).y
    + (sharesOf points t q).2.2 * (pointAt points t.c).y := by
  have hmul := Delaunay.orientation_mul_y (pointAt points t.a) (pointAt points t.b)
    (pointAt points t.c) q
  unfold sharesOf
  field_simp
  rw [mul_comm, hmul]

end Shares

variable [IsStrictOrderedRing K] {points : Array (Point K)} {t : Triangle K}

/-- A triangle that is not too thin has corners that are not in line. -/
theorem orientation_ne_of_not_thin (h : ¬ Thin points t) :
    orientation (pointAt points t.a) (pointAt points t.b) (pointAt points t.c) ≠ 0 := by
  intro hzero
  refine h ?_
  unfold Thin
  rw [hzero, abs_zero]
  exact mul_nonneg Exact.epsilon_pos.le (sq_nonneg _)

/-- The determinants that are computed are twice the signed areas. -/
theorem weightsOn?_eq (points : Array (Point K)) (t : Triangle K) (x y : K) :
    weightsOn? points t x y =
      if Thin points t then none
      else if -slack ≤ (sharesOf points t ⟨x, y⟩).1 ∧ -slack ≤ (sharesOf points t ⟨x, y⟩).2.1 ∧
          -slack ≤ (sharesOf points t ⟨x, y⟩).2.2 then some (sharesOf points t ⟨x, y⟩)
        else none := by
  have hdet : ∀ a b c : Point K,
      (b.y - c.y) * (a.x - c.x) + (c.x - b.x) * (a.y - c.y) = orientation a b c := by
    intro a b c
    rw [Delaunay.orientation_eq]
    ring
  have hfirst : ∀ b c : Point K, (b.y - c.y) * (x - c.x) + (c.x - b.x) * (y - c.y) =
      orientation b c ⟨x, y⟩ := by
    intro b c
    rw [Delaunay.orientation_eq]
    ring
  have hsecond : ∀ a c : Point K, (c.y - a.y) * (x - c.x) + (a.x - c.x) * (y - c.y) =
      orientation c a ⟨x, y⟩ := by
    intro a c
    rw [Delaunay.orientation_eq]
    ring
  have hpow : ∀ v : K, Scalar.pow v 2 = v ^ 2 := fun v ↦ Exact.pow_eq v 2
  unfold weightsOn?
  simp only [hdet, hfirst, hsecond, hpow, Exact.literal_one]
  by_cases h : Thin points t
  · rw [if_pos h]
    exact if_pos h
  · have hsum := shares_sum (orientation_ne_of_not_thin h) ⟨x, y⟩
    have hthird : 1 - (sharesOf points t ⟨x, y⟩).1 - (sharesOf points t ⟨x, y⟩).2.1 =
        (sharesOf points t ⟨x, y⟩).2.2 := by linear_combination -hsum
    unfold sharesOf at hthird ⊢
    rw [if_neg h, hthird]
    refine (if_neg h).trans ?_
    simp only [Bool.and_eq_true, decide_eq_true_eq, and_assoc]

/-- A target has weights on a triangle when the triangle is not too thin and no share is too far
below zero, and the weights are then the shares. -/
theorem weightsOn?_eq_some_iff {x y : K} {w : K × K × K} :
    weightsOn? points t x y = some w ↔ ¬ Thin points t ∧ w = sharesOf points t ⟨x, y⟩ ∧
      -slack ≤ w.1 ∧ -slack ≤ w.2.1 ∧ -slack ≤ w.2.2 := by
  rw [weightsOn?_eq]
  split_ifs with hthin hslack
  · simp [hthin]
  · constructor
    · intro hw
      obtain rfl := Option.some.inj hw
      exact ⟨hthin, rfl, hslack⟩
    · rintro ⟨-, rfl, -⟩
      rfl
  · constructor
    · intro hw
      cases hw
    · rintro ⟨-, rfl, h⟩
      exact absurd h hslack

/-- The slack is positive. -/
theorem slack_pos : (0 : K) < slack := by
  unfold slack
  exact Exact.decimal_pos one_pos _

/-- The triangle holds the target: no share is negative. -/
def Holds (points : Array (Point K)) (t : Triangle K) (q : Point K) : Prop :=
  0 ≤ (sharesOf points t q).1 ∧ 0 ≤ (sharesOf points t q).2.1 ∧ 0 ≤ (sharesOf points t q).2.2

/-- A triangle that runs counterclockwise holds the targets on the left side of its edges. -/
theorem holds_of_within
    (hccw : 0 < orientation (pointAt points t.a) (pointAt points t.b) (pointAt points t.c))
    {q : Point K} (hq : Within (pointAt points) t q) : Holds points t q := by
  obtain ⟨hc, ha, hb⟩ := Delaunay.within_iff.mp hq
  exact ⟨div_nonneg ha hccw.le, div_nonneg hb hccw.le, div_nonneg hc hccw.le⟩

/-- The weights of a target on a triangle that holds it and is not too thin are its shares. -/
theorem weightsOn?_of_holds (hthin : ¬ Thin points t) {q : Point K} (hq : Holds points t q) :
    weightsOn? points t q.x q.y = some (sharesOf points t q) := by
  have hslack : ∀ v : K, 0 ≤ v → -slack ≤ v := fun v hv ↦ (neg_nonpos.mpr slack_pos.le).trans hv
  obtain ⟨ha, hb, hc⟩ := hq
  exact weightsOn?_eq_some_iff.mpr ⟨hthin, rfl, hslack _ ha, hslack _ hb, hslack _ hc⟩

end PlasmaField.Scattered
