import Mathlib
import PlasmaField.Spline.Bicubic
import PlasmaField.Proofs.Outcome
import PlasmaField.Proofs.Spline.Curvature

/-!
# The pieces of a natural spline

Over exact scalars the value and the slope of a natural spline on a knot interval are polynomials
that agree with those of the next interval at the knot between them, so `eval` and `derivative` may
be computed on any closed interval that holds the query. The piece is also the cubic with given
values and slopes at the interval's ends, `evalOn_eq_hermite`.
-/

namespace PlasmaField.CubicSpline

open Outcome (bind_eq_ok_iff guard_eq_ok_iff)
open Scalar (nth)
open Spline (Increasing IsCurvature IsSlope gap secant leftSlope rightSlope interval curvatures)
open scoped Exact

variable {K : Type} [Field K] [LinearOrder K] [FloorRing K]

/-- A spline is built from two or more increasing knots and as many values that have curvatures. -/
theorem through_eq_ok_iff (x y : Array K) (s : CubicSpline K) :
    through x y = .ok s ↔ 2 ≤ x.size ∧ Increasing x ∧ y.size = x.size ∧
      ∃ m, curvatures x y = .ok m ∧ s = ⟨x, y, m⟩ := by
  unfold through
  constructor
  · intro h
    obtain ⟨_, hx, h⟩ := bind_eq_ok_iff.mp h
    obtain ⟨hsize, h⟩ := guard_eq_ok_iff.mp h
    obtain ⟨-, h⟩ := guard_eq_ok_iff.mp h
    obtain ⟨m, hm, h⟩ := bind_eq_ok_iff.mp h
    cases h
    obtain ⟨hn, hx⟩ := (Spline.checkKnots_eq_ok_iff .single x).mp hx
    exact ⟨hn, hx, by simpa using hsize, m, hm, rfl⟩
  · rintro ⟨hn, hx, hsize, m, hm, rfl⟩
    refine bind_eq_ok_iff.mpr ⟨(), (Spline.checkKnots_eq_ok_iff .single x).mpr ⟨hn, hx⟩, ?_⟩
    refine guard_eq_ok_iff.mpr ⟨by simpa using hsize, ?_⟩
    refine guard_eq_ok_iff.mpr ⟨by simp, ?_⟩
    exact bind_eq_ok_iff.mpr ⟨m, hm, rfl⟩

/-- The value on a knot interval. -/
theorem evalOn_eq (s : CubicSpline K) (i : ℕ) (v : K) :
    s.evalOn i v = nth s.m i * (nth s.x (i + 1) - v) ^ 3 / (6 * gap s.x i)
      + nth s.m (i + 1) * (v - nth s.x i) ^ 3 / (6 * gap s.x i)
      + (nth s.y i / gap s.x i - nth s.m i * gap s.x i / 6) * (nth s.x (i + 1) - v)
      + (nth s.y (i + 1) / gap s.x i - nth s.m (i + 1) * gap s.x i / 6) * (v - nth s.x i) := by
  rw [← Exact.pow_eq, ← Exact.pow_eq]
  unfold evalOn
  simp only [Exact.literal_ofNat]
  rfl

/-- The slope on a knot interval. -/
theorem derivativeOn_eq (s : CubicSpline K) (i : ℕ) (v : K) :
    s.derivativeOn i v = -nth s.m i * (nth s.x (i + 1) - v) ^ 2 / (2 * gap s.x i)
      + nth s.m (i + 1) * (v - nth s.x i) ^ 2 / (2 * gap s.x i)
      + secant s.x (nth s.y) i - (nth s.m (i + 1) - nth s.m i) * gap s.x i / 6 := by
  rw [pow_two, pow_two, ← mul_assoc, ← mul_assoc]
  unfold derivativeOn
  simp only [Exact.literal_ofNat]
  rfl

section Ends

variable {s : CubicSpline K} {i : ℕ}

/-- A piece takes the value at its left knot. -/
theorem evalOn_left [CharZero K] (h : gap s.x i ≠ 0) : s.evalOn i (nth s.x i) = nth s.y i := by
  rw [evalOn_eq, show nth s.x (i + 1) - nth s.x i = gap s.x i from rfl, sub_self]
  field_simp
  ring

/-- A piece takes the value at its right knot. -/
theorem evalOn_right [CharZero K] (h : gap s.x i ≠ 0) :
    s.evalOn i (nth s.x (i + 1)) = nth s.y (i + 1) := by
  rw [evalOn_eq, show nth s.x (i + 1) - nth s.x i = gap s.x i from rfl, sub_self]
  field_simp
  ring

/-- The slope of a piece at its left knot. -/
theorem derivativeOn_left [CharZero K] (h : gap s.x i ≠ 0) :
    s.derivativeOn i (nth s.x i) = leftSlope s.x (nth s.y) (nth s.m) i := by
  rw [derivativeOn_eq, show nth s.x (i + 1) - nth s.x i = gap s.x i from rfl, sub_self]
  unfold leftSlope
  field_simp
  ring

/-- The slope of a piece at its right knot. -/
theorem derivativeOn_right [CharZero K] (h : gap s.x i ≠ 0) :
    s.derivativeOn i (nth s.x (i + 1)) = rightSlope s.x (nth s.y) (nth s.m) i := by
  rw [derivativeOn_eq, show nth s.x (i + 1) - nth s.x i = gap s.x i from rfl, sub_self]
  unfold rightSlope
  field_simp
  ring

end Ends

/-- The cubic on an interval of length `h` with the values `y₀`, `y₁` and the slopes `d₀`, `d₁` at
its ends, by its weights. -/
def hermiteSum (w : BicubicSpline.Weights K) (h y₀ d₀ y₁ d₁ : K) : K :=
  y₀ * w.value₀ + d₀ * (w.slope₀ * h) + y₁ * w.value₁ + d₁ * (w.slope₁ * h)

/-- The Hermite weights. -/
theorem hermite_eq (t : K) : BicubicSpline.hermite t =
    ⟨2 * t ^ 3 - 3 * t ^ 2 + 1, t ^ 3 - 2 * t ^ 2 + t, -2 * t ^ 3 + 3 * t ^ 2, t ^ 3 - t ^ 2⟩ := by
  rw [pow_succ t 2, pow_two]
  unfold BicubicSpline.hermite
  simp only [Exact.literal_ofNat, Exact.literal_one]

/-- The derivatives of the Hermite weights. -/
theorem hermiteSlope_eq (t : K) : BicubicSpline.hermiteSlope t =
    ⟨6 * t ^ 2 - 6 * t, 3 * t ^ 2 - 4 * t + 1, -6 * t ^ 2 + 6 * t, 3 * t ^ 2 - 2 * t⟩ := by
  rw [pow_two]
  unfold BicubicSpline.hermiteSlope
  simp only [Exact.literal_ofNat, Exact.literal_one]

/-- A piece is the cubic with the values and slopes at its ends. -/
theorem evalOn_eq_hermite [CharZero K] {s : CubicSpline K} {i : ℕ} (h : gap s.x i ≠ 0) (v : K) :
    s.evalOn i v = hermiteSum (BicubicSpline.hermite ((v - nth s.x i) / gap s.x i)) (gap s.x i)
      (nth s.y i) (leftSlope s.x (nth s.y) (nth s.m) i)
      (nth s.y (i + 1)) (rightSlope s.x (nth s.y) (nth s.m) i) := by
  rw [evalOn_eq, show nth s.x (i + 1) - v = gap s.x i - (v - nth s.x i) by unfold gap; ring,
    hermite_eq]
  unfold hermiteSum leftSlope rightSlope secant
  field_simp
  ring

/-- The slope of a piece is that of the cubic with the values and slopes at its ends. -/
theorem derivativeOn_eq_hermite [CharZero K] {s : CubicSpline K} {i : ℕ} (h : gap s.x i ≠ 0)
    (v : K) : s.derivativeOn i v =
      hermiteSum (BicubicSpline.hermiteSlope ((v - nth s.x i) / gap s.x i)) (gap s.x i)
        (nth s.y i) (leftSlope s.x (nth s.y) (nth s.m) i)
        (nth s.y (i + 1)) (rightSlope s.x (nth s.y) (nth s.m) i) * (1 / gap s.x i) := by
  rw [derivativeOn_eq, show nth s.x (i + 1) - v = gap s.x i - (v - nth s.x i) by unfold gap; ring,
    hermiteSlope_eq]
  unfold hermiteSum leftSlope rightSlope secant
  field_simp
  ring

/-- Below the knots the slope is zero. -/
theorem derivative_of_lt {s : CubicSpline K} {v : K} (h : v < s.xMin) : s.derivative v = 0 := by
  unfold derivative
  rw [if_pos (by simp [h]), Exact.literal_zero]

/-- Above the knots the slope is zero. -/
theorem derivative_of_gt {s : CubicSpline K} {v : K} (h : s.xMax < v) : s.derivative v = 0 := by
  unfold derivative
  rw [if_pos (by simp [h]), Exact.literal_zero]

section Query

variable [IsStrictOrderedRing K] {s : CubicSpline K} (hx : Increasing s.x)
include hx

omit [IsStrictOrderedRing K] in
/-- The value beyond the knots is that at the clamped query. -/
theorem eval_clamp (hn : 0 < s.x.size) (v : K) :
    s.eval (Scalar.clamp s.xMin s.xMax v) = s.eval v := by
  obtain ⟨hl, hu⟩ := hx.clamp_mem hn v
  unfold eval xMin xMax
  rw [Exact.clamp_of_mem hl hu]

/-- On a closed knot interval the value is that of the interval's piece. -/
theorem eval_eq_evalOn {i : ℕ} {v : K} (hi : i + 1 < s.x.size) (hleft : nth s.x i ≤ v)
    (hright : v ≤ nth s.x (i + 1)) : s.eval v = s.evalOn i v := by
  have hfirst : s.xMin ≤ v := (hx.le (Nat.zero_le i) (by omega)).trans hleft
  have hlast : v ≤ s.xMax := hright.trans (hx.le (by omega) (by omega))
  show s.evalOn (interval s.x (Scalar.clamp s.xMin s.xMax v)) (Scalar.clamp s.xMin s.xMax v) = _
  rw [Exact.clamp_of_mem hfirst hlast]
  refine Spline.apply_interval hx s.evalOn (fun j hj ↦ ?_) hi hleft hright
  rw [evalOn_right (hx.gap_pos (by omega)).ne', evalOn_left (hx.gap_pos (by omega)).ne']

/-- On a closed knot interval the slope is that of the interval's piece. -/
theorem derivative_eq_derivativeOn (hm : IsCurvature s.x (nth s.y) (nth s.m)) {i : ℕ} {v : K}
    (hi : i + 1 < s.x.size) (hleft : nth s.x i ≤ v) (hright : v ≤ nth s.x (i + 1)) :
    s.derivative v = s.derivativeOn i v := by
  have hfirst : s.xMin ≤ v := (hx.le (Nat.zero_le i) (by omega)).trans hleft
  have hlast : v ≤ s.xMax := hright.trans (hx.le (by omega) (by omega))
  have hinside : s.derivative v = s.derivativeOn (interval s.x v) v := by
    unfold derivative
    rw [if_neg (by simp [hfirst.not_gt, hlast.not_gt])]
  rw [hinside]
  refine Spline.apply_interval hx s.derivativeOn (fun j hj ↦ ?_) hi hleft hright
  rw [derivativeOn_right (hx.gap_pos (by omega)).ne', derivativeOn_left (hx.gap_pos hj).ne',
    hm.rightSlope_eq hj]

/-- On a closed knot interval the value is that of the cubic with the slopes at its ends. -/
theorem eval_eq_hermite (hm : curvatures s.x s.y = .ok s.m) {d : ℕ → K}
    (hd : IsSlope s.x (nth s.y) d) {i : ℕ} {v : K} (hi : i + 1 < s.x.size)
    (hleft : nth s.x i ≤ v) (hright : v ≤ nth s.x (i + 1)) : s.eval v =
      hermiteSum (BicubicSpline.hermite ((v - nth s.x i) / gap s.x i)) (gap s.x i)
        (nth s.y i) (d i) (nth s.y (i + 1)) (d (i + 1)) := by
  obtain ⟨hd₀, hd₁⟩ := hd.ends (by omega) hm hi
  rw [eval_eq_evalOn hx hi hleft hright, evalOn_eq_hermite (hx.gap_pos hi).ne', hd₀, hd₁]

/-- On a closed knot interval the slope is that of the cubic with the slopes at its ends. -/
theorem derivative_eq_hermite (hm : curvatures s.x s.y = .ok s.m) {d : ℕ → K}
    (hd : IsSlope s.x (nth s.y) d) {i : ℕ} {v : K} (hi : i + 1 < s.x.size)
    (hleft : nth s.x i ≤ v) (hright : v ≤ nth s.x (i + 1)) : s.derivative v =
      hermiteSum (BicubicSpline.hermiteSlope ((v - nth s.x i) / gap s.x i)) (gap s.x i)
        (nth s.y i) (d i) (nth s.y (i + 1)) (d (i + 1)) * (1 / gap s.x i) := by
  obtain ⟨hd₀, hd₁⟩ := hd.ends (by omega) hm hi
  have hcurvature := (Spline.isCurvature_of_curvatures (by omega) hm).2
  rw [derivative_eq_derivativeOn hx hcurvature hi hleft hright,
    derivativeOn_eq_hermite (hx.gap_pos hi).ne', hd₀, hd₁]

end Query

end PlasmaField.CubicSpline
