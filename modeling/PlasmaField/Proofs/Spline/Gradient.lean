import Mathlib
import PlasmaField.Proofs.Spline.Smooth
import PlasmaField.Proofs.Spline.Tensor

/-!
# The gradient of a bicubic spline

Along either axis a bicubic spline is a piecewise cubic with given values and slopes at the knots,
and its computed derivative is the slope of that cubic. The pieces are glued at the knots by
`hasDerivWithinAt_cubic`, so that within the rectangle of knots the computed derivatives are the
partial derivatives of the value, `hasDerivWithinAt_value_x` and `hasDerivWithinAt_value_y`. Beyond
the rectangle the value stays that of the edge while the computed derivatives stay those at the
edge.
-/

namespace PlasmaField.BicubicSpline

open Scalar (nth)
open Spline (Increasing gap interval)
open CubicSpline (hermiteSum hermite_eq hermiteSlope_eq)
open Set
open scoped Exact

/-! ## Piecewise cubics -/

/-- The cubic on knot interval `i` with the values `y` and the slopes `d` at the knots. -/
noncomputable def cubicOn (x : Array ℝ) (y d : ℕ → ℝ) (i : ℕ) (v : ℝ) : ℝ :=
  hermiteSum (hermite ((v - nth x i) / gap x i)) (gap x i) (y i) (d i) (y (i + 1)) (d (i + 1))

/-- The slope of this cubic. -/
noncomputable def cubicSlopeOn (x : Array ℝ) (y d : ℕ → ℝ) (i : ℕ) (v : ℝ) : ℝ :=
  hermiteSum (hermiteSlope ((v - nth x i) / gap x i)) (gap x i) (y i) (d i) (y (i + 1))
    (d (i + 1)) * (1 / gap x i)

section Pieces

variable {x : Array ℝ} {y d : ℕ → ℝ} {i : ℕ}

/-- A cubic takes the value at the left knot. -/
theorem cubicOn_left : cubicOn x y d i (nth x i) = y i := by
  unfold cubicOn
  rw [sub_self, zero_div, hermite_eq]
  unfold hermiteSum
  ring

/-- A cubic has the slope at the left knot. -/
theorem cubicSlopeOn_left (h : gap x i ≠ 0) : cubicSlopeOn x y d i (nth x i) = d i := by
  unfold cubicSlopeOn
  rw [sub_self, zero_div, hermiteSlope_eq]
  unfold hermiteSum
  field_simp
  ring

/-- A cubic takes the value at the right knot. -/
theorem cubicOn_right (h : gap x i ≠ 0) : cubicOn x y d i (nth x (i + 1)) = y (i + 1) := by
  unfold cubicOn
  rw [show nth x (i + 1) - nth x i = gap x i from rfl, div_self h, hermite_eq]
  unfold hermiteSum
  ring

/-- A cubic has the slope at the right knot. -/
theorem cubicSlopeOn_right (h : gap x i ≠ 0) :
    cubicSlopeOn x y d i (nth x (i + 1)) = d (i + 1) := by
  unfold cubicSlopeOn
  rw [show nth x (i + 1) - nth x i = gap x i from rfl, div_self h, hermiteSlope_eq]
  unfold hermiteSum
  field_simp
  ring

/-- The derivative of a cubic on the unit interval, by its weights. -/
theorem hasDerivAt_hermiteSum (h y₀ d₀ y₁ d₁ t : ℝ) :
    HasDerivAt (fun t ↦ hermiteSum (hermite t) h y₀ d₀ y₁ d₁)
      (hermiteSum (hermiteSlope t) h y₀ d₀ y₁ d₁) t := by
  have hcube := hasDerivAt_pow 3 t
  have hsquare := hasDerivAt_pow 2 t
  have hvalue₀ := (((hcube.const_mul 2).fun_sub (hsquare.const_mul 3)).add_const 1).const_mul y₀
  have hslope₀ := ((((hcube.fun_sub (hsquare.const_mul 2)).fun_add (hasDerivAt_id t)).mul_const
    h).const_mul d₀)
  have hvalue₁ := ((hcube.const_mul (-2)).fun_add (hsquare.const_mul 3)).const_mul y₁
  have hslope₁ := (((hcube.fun_sub hsquare).mul_const h).const_mul d₁)
  have hsum := ((hvalue₀.fun_add hslope₀).fun_add hvalue₁).fun_add hslope₁
  simp only [hermite_eq, hermiteSlope_eq]
  unfold hermiteSum
  refine hsum.congr_deriv ?_
  push_cast
  ring

/-- The derivative of a cubic is its slope. -/
theorem hasDerivAt_cubicOn (v : ℝ) :
    HasDerivAt (cubicOn x y d i) (cubicSlopeOn x y d i v) v := by
  have hplace : HasDerivAt (fun v ↦ (v - nth x i) / gap x i) (1 / gap x i) v :=
    ((hasDerivAt_id v).sub_const _).div_const _
  have hweights := hasDerivAt_hermiteSum (gap x i) (y i) (d i) (y (i + 1)) (d (i + 1))
    ((v - nth x i) / gap x i)
  refine (HasDerivAt.comp (h := fun v ↦ (v - nth x i) / gap x i) v hweights hplace).congr_deriv ?_
  rfl

end Pieces

section Glued

variable {x : Array ℝ} (hn : 2 ≤ x.size) (hx : Increasing x) (y d : ℕ → ℝ)
include hx

/-- On a closed knot interval the value is that of the interval's cubic. -/
theorem cubicOn_interval {i : ℕ} {v : ℝ} (hi : i + 1 < x.size)
    (hv : v ∈ Icc (nth x i) (nth x (i + 1))) :
    cubicOn x y d (interval x v) v = cubicOn x y d i v := by
  refine Spline.apply_interval hx (cubicOn x y d) (fun j hj ↦ ?_) hi hv.1 hv.2
  rw [cubicOn_right (hx.gap_pos (by omega)).ne', cubicOn_left]

/-- On a closed knot interval the slope is that of the interval's cubic. -/
theorem cubicSlopeOn_interval {i : ℕ} {v : ℝ} (hi : i + 1 < x.size)
    (hv : v ∈ Icc (nth x i) (nth x (i + 1))) :
    cubicSlopeOn x y d (interval x v) v = cubicSlopeOn x y d i v := by
  refine Spline.apply_interval hx (cubicSlopeOn x y d) (fun j hj ↦ ?_) hi hv.1 hv.2
  rw [cubicSlopeOn_right (hx.gap_pos (by omega)).ne', cubicSlopeOn_left (hx.gap_pos hj).ne']

include hn

/-- At a knot the piecewise cubic takes the value there. -/
theorem cubicOn_knot {i : ℕ} (hi : i < x.size) :
    cubicOn x y d (interval x (nth x i)) (nth x i) = y i := by
  by_cases hlast : i + 1 < x.size
  · rw [cubicOn_interval hx y d hlast ⟨le_rfl, (hx i hlast).le⟩, cubicOn_left]
  · obtain ⟨j, rfl⟩ : ∃ j, i = j + 1 := ⟨i - 1, by omega⟩
    rw [cubicOn_interval hx y d hi ⟨(hx j hi).le, le_rfl⟩, cubicOn_right (hx.gap_pos hi).ne']

/-- At a knot the piecewise slope is the slope there. -/
theorem cubicSlopeOn_knot {i : ℕ} (hi : i < x.size) :
    cubicSlopeOn x y d (interval x (nth x i)) (nth x i) = d i := by
  by_cases hlast : i + 1 < x.size
  · rw [cubicSlopeOn_interval hx y d hlast ⟨le_rfl, (hx i hlast).le⟩,
      cubicSlopeOn_left (hx.gap_pos hlast).ne']
  · obtain ⟨j, rfl⟩ : ∃ j, i = j + 1 := ⟨i - 1, by omega⟩
    rw [cubicSlopeOn_interval hx y d hi ⟨(hx j hi).le, le_rfl⟩,
      cubicSlopeOn_right (hx.gap_pos hi).ne']

/-- Between the first and the last knot the piecewise cubic has the piecewise slope. -/
theorem hasDerivWithinAt_cubic (v : ℝ) :
    HasDerivWithinAt (fun v ↦ cubicOn x y d (interval x v) v)
      (cubicSlopeOn x y d (interval x v) v) (Icc (nth x 0) (nth x (x.size - 1))) v := by
  refine CubicSpline.of_knots hn (P := fun t ↦ HasDerivWithinAt
      (fun v ↦ cubicOn x y d (interval x v) v) (cubicSlopeOn x y d (interval x v) v) t v)
    (fun _ _ ↦ HasDerivWithinAt.union) v
    (fun _ ↦ CubicSpline.hasDerivWithinAt_of_notMem_closure) (fun i hi hv ↦ ?_) hx
  rw [cubicSlopeOn_interval hx y d hi hv]
  exact (hasDerivAt_cubicOn v).hasDerivWithinAt.congr
    (fun w hw ↦ cubicOn_interval hx y d hi hw) (cubicOn_interval hx y d hi hv)

end Glued

/-! ## The spline along one axis -/

variable (s : BicubicSpline ℝ)

/-- The cubic along `y` through column `i` on knot interval `j`, by its weights. -/
noncomputable def upward (j : ℕ) (w : Weights ℝ) (i : ℕ) : ℝ :=
  hermiteSum w (gap s.y j) (s.f.get j i) (s.fy.get j i) (s.f.get (j + 1) i) (s.fy.get (j + 1) i)

/-- The slope along `x` of the cubics along `y`. -/
noncomputable def upwardSlope (j : ℕ) (w : Weights ℝ) (i : ℕ) : ℝ :=
  hermiteSum w (gap s.y j) (s.fx.get j i) (s.fxy.get j i) (s.fx.get (j + 1) i)
    (s.fxy.get (j + 1) i)

/-- A patch is also the cubic along `x` through cubics along `y`. -/
theorem patch_eq_upward (i j : ℕ) (wx wy : Weights ℝ) :
    s.patch i j wx wy (gap s.x i) (gap s.y j) = hermiteSum wx (gap s.x i)
      (s.upward j wy i) (s.upwardSlope j wy i)
      (s.upward j wy (i + 1)) (s.upwardSlope j wy (i + 1)) := by
  unfold patch corner upward upwardSlope hermiteSum
  rw [Exact.literal_zero]
  ring

/-- The place of a query along `x`, moved between the knots. -/
noncomputable def clampX (v : ℝ) : ℝ :=
  Scalar.clamp (nth s.x 0) (nth s.x (s.x.size - 1)) v

/-- The place of a query along `y`, moved between the knots. -/
noncomputable def clampY (v : ℝ) : ℝ :=
  Scalar.clamp (nth s.y 0) (nth s.y (s.y.size - 1)) v

/-- The Hermite weights of a place between knots. -/
noncomputable def weightsAt (x : Array ℝ) (v : ℝ) : Weights ℝ :=
  hermite ((v - nth x (interval x v)) / gap x (interval x v))

section Queries

variable (xq yq : ℝ)

/-- The value at a query, as a piecewise cubic along `x`. -/
theorem value_eq_along_x : s.value xq yq = cubicOn s.x
    (s.upward (interval s.y (s.clampY yq)) (weightsAt s.y (s.clampY yq)))
    (s.upwardSlope (interval s.y (s.clampY yq)) (weightsAt s.y (s.clampY yq)))
    (interval s.x (s.clampX xq)) (s.clampX xq) := by
  unfold cubicOn value evalWith
  rw [← patch_eq_upward, Exact.literal_one, mul_one, mul_one]
  rfl

/-- The derivative along `x` at a query, as the slope of the piecewise cubic. -/
theorem derivativeX_eq_along_x : s.derivativeX xq yq = cubicSlopeOn s.x
    (s.upward (interval s.y (s.clampY yq)) (weightsAt s.y (s.clampY yq)))
    (s.upwardSlope (interval s.y (s.clampY yq)) (weightsAt s.y (s.clampY yq)))
    (interval s.x (s.clampX xq)) (s.clampX xq) := by
  unfold cubicSlopeOn derivativeX evalWith
  rw [← patch_eq_upward, Exact.literal_one, mul_one]
  rfl

/-- The value at a query, as a piecewise cubic along `y`. -/
theorem value_eq_along_y : s.value xq yq = cubicOn s.y
    (s.across (interval s.x (s.clampX xq)) (weightsAt s.x (s.clampX xq)))
    (s.acrossSlope (interval s.x (s.clampX xq)) (weightsAt s.x (s.clampX xq)))
    (interval s.y (s.clampY yq)) (s.clampY yq) := by
  unfold cubicOn value evalWith
  rw [← patch_eq, Exact.literal_one, mul_one, mul_one]
  rfl

/-- The derivative along `y` at a query, as the slope of the piecewise cubic. -/
theorem derivativeY_eq_along_y : s.derivativeY xq yq = cubicSlopeOn s.y
    (s.across (interval s.x (s.clampX xq)) (weightsAt s.x (s.clampX xq)))
    (s.acrossSlope (interval s.x (s.clampX xq)) (weightsAt s.x (s.clampX xq)))
    (interval s.y (s.clampY yq)) (s.clampY yq) := by
  unfold cubicSlopeOn derivativeY evalWith
  rw [← patch_eq, Exact.literal_one]
  dsimp only
  rw [mul_one]
  rfl

end Queries

/-! ## Partial derivatives -/

variable {s} (hs : s.IsTensor)
include hs

/-- Queries along `x` are moved between the knots. -/
theorem IsTensor.clampX_mem (xq : ℝ) :
    s.clampX xq ∈ Icc (nth s.x 0) (nth s.x (s.x.size - 1)) :=
  hs.increasing_x.clamp_mem (Nat.zero_lt_of_lt hs.two_le_x) xq

/-- Queries along `y` are moved between the knots. -/
theorem IsTensor.clampY_mem (yq : ℝ) :
    s.clampY yq ∈ Icc (nth s.y 0) (nth s.y (s.y.size - 1)) :=
  hs.increasing_y.clamp_mem (Nat.zero_lt_of_lt hs.two_le_y) yq

/-- Within the rectangle of knots the computed derivative along `x` is that of the value. Beyond the
rectangle it is the one at the edge. -/
theorem IsTensor.hasDerivWithinAt_value_x (xq yq : ℝ) :
    HasDerivWithinAt (fun v ↦ s.value v yq) (s.derivativeX xq yq)
      (Icc (nth s.x 0) (nth s.x (s.x.size - 1))) (s.clampX xq) := by
  have hclamp : ∀ v ∈ Icc (nth s.x 0) (nth s.x (s.x.size - 1)), s.clampX v = v := fun v hv ↦
    Exact.clamp_of_mem hv.1 hv.2
  have hvalue : ∀ v ∈ Icc (nth s.x 0) (nth s.x (s.x.size - 1)), s.value v yq = _ := fun v hv ↦
    (s.value_eq_along_x v yq).trans (by rw [hclamp v hv])
  rw [derivativeX_eq_along_x]
  exact (hasDerivWithinAt_cubic hs.two_le_x hs.increasing_x _ _ (s.clampX xq)).congr hvalue
    (hvalue _ (hs.clampX_mem xq))

/-- Within the rectangle of knots the computed derivative along `y` is that of the value. Beyond the
rectangle it is the one at the edge. -/
theorem IsTensor.hasDerivWithinAt_value_y (xq yq : ℝ) :
    HasDerivWithinAt (fun v ↦ s.value xq v) (s.derivativeY xq yq)
      (Icc (nth s.y 0) (nth s.y (s.y.size - 1))) (s.clampY yq) := by
  have hclamp : ∀ v ∈ Icc (nth s.y 0) (nth s.y (s.y.size - 1)), s.clampY v = v := fun v hv ↦
    Exact.clamp_of_mem hv.1 hv.2
  have hvalue : ∀ v ∈ Icc (nth s.y 0) (nth s.y (s.y.size - 1)), s.value xq v = _ := fun v hv ↦
    (s.value_eq_along_y xq v).trans (by rw [hclamp v hv])
  rw [derivativeY_eq_along_y]
  exact (hasDerivWithinAt_cubic hs.two_le_y hs.increasing_y _ _ (s.clampY yq)).congr hvalue
    (hvalue _ (hs.clampY_mem yq))

/-- The computed derivative along `x` at a knot, or where queries are moved to it. -/
theorem IsTensor.derivativeX_knot {i j : ℕ} (hi : i < s.x.size) (hj : j < s.y.size) {xq yq : ℝ}
    (hx : s.clampX xq = nth s.x i) (hy : s.clampY yq = nth s.y j) :
    s.derivativeX xq yq = s.fx.get j i := by
  rw [derivativeX_eq_along_x, hx, hy, cubicSlopeOn_knot hs.two_le_x hs.increasing_x _ _ hi]
  exact cubicOn_knot hs.two_le_y hs.increasing_y (fun j ↦ s.fx.get j i) (fun j ↦ s.fxy.get j i) hj

/-- The value at a knot is the one given there. -/
theorem IsTensor.value_knot {i j : ℕ} (hi : i < s.x.size) (hj : j < s.y.size) :
    s.value (nth s.x i) (nth s.y j) = s.f.get j i := by
  have hx : s.clampX (nth s.x i) = nth s.x i := Exact.clamp_of_mem
    (hs.increasing_x.le (Nat.zero_le i) hi) (hs.increasing_x.le (by omega) (by omega))
  have hy : s.clampY (nth s.y j) = nth s.y j := Exact.clamp_of_mem
    (hs.increasing_y.le (Nat.zero_le j) hj) (hs.increasing_y.le (by omega) (by omega))
  rw [value_eq_along_x, hx, hy, cubicOn_knot hs.two_le_x hs.increasing_x _ _ hi]
  exact cubicOn_knot hs.two_le_y hs.increasing_y (fun j ↦ s.f.get j i) (fun j ↦ s.fy.get j i) hj

/-! ## Beyond the rectangle -/

omit hs in
/-- A function of the clamped place is constant near a place beyond the range. -/
theorem hasDerivAt_of_clamp {f : ℝ → ℝ} {a b : ℝ} (hab : a ≤ b)
    (hf : ∀ v w, Scalar.clamp a b v = Scalar.clamp a b w → f v = f w) {v : ℝ} (hv : v ∉ Icc a b) :
    HasDerivAt f 0 v := by
  have hconstant : ∀ᶠ w in nhds v, f w = f v := by
    rcases lt_or_ge v a with hlow | hlow
    · filter_upwards [gt_mem_nhds hlow] with w hw
      exact hf w v (by rw [Exact.clamp_of_lt hab hw, Exact.clamp_of_lt hab hlow])
    · have hhigh : b < v := lt_of_not_ge fun h ↦ hv ⟨hlow, h⟩
      filter_upwards [lt_mem_nhds hhigh] with w hw
      exact hf w v (by rw [Exact.clamp_of_gt hab hw, Exact.clamp_of_gt hab hhigh])
  exact (hasDerivAt_const v (f v)).congr_of_eventuallyEq hconstant

/-- Beyond the knots along `x` the value is constant along `x`. -/
theorem IsTensor.hasDerivAt_value_x {xq : ℝ} (yq : ℝ)
    (hx : xq ∉ Icc (nth s.x 0) (nth s.x (s.x.size - 1))) :
    HasDerivAt (fun v ↦ s.value v yq) 0 xq := by
  refine hasDerivAt_of_clamp
    (hs.increasing_x.le (Nat.zero_le _) (Nat.sub_one_lt_of_lt hs.two_le_x)) (fun v w hvw ↦ ?_) hx
  have hclamp : s.clampX v = s.clampX w := hvw
  rw [value_eq_along_x, value_eq_along_x, hclamp]

/-- Beyond the knots along `y` the value is constant along `y`. -/
theorem IsTensor.hasDerivAt_value_y (xq : ℝ) {yq : ℝ}
    (hy : yq ∉ Icc (nth s.y 0) (nth s.y (s.y.size - 1))) :
    HasDerivAt (fun v ↦ s.value xq v) 0 yq := by
  refine hasDerivAt_of_clamp
    (hs.increasing_y.le (Nat.zero_le _) (Nat.sub_one_lt_of_lt hs.two_le_y)) (fun v w hvw ↦ ?_) hy
  have hclamp : s.clampY v = s.clampY w := hvw
  rw [value_eq_along_y, value_eq_along_y, hclamp]

end PlasmaField.BicubicSpline
