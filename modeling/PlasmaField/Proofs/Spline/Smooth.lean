import Mathlib
import PlasmaField.Proofs.Spline.Pieces

/-!
# Smoothness of natural splines

Over the real numbers the spline through values at knots that are not too close together is the
natural interpolating cubic spline, `through_isNaturalSpline`: it takes the values, is a cubic on
every knot interval, is twice continuously differentiable with vanishing second derivative at both
ends, and `derivative` is its derivative. The functions of the pieces are glued at the knots by
`of_pieces`.
-/

namespace PlasmaField.CubicSpline

open Scalar (nth)
open Spline (Increasing IsCurvature gap secant interval curvatures)
open Set
open scoped Exact

/-- The function `f` with the slope `f'` is the natural cubic spline through the values `y` at the
knots `x`, continued beyond the knots by the end values. -/
structure IsNaturalSpline (x y : Array ℝ) (f f' : ℝ → ℝ) : Prop where
  interpolates : ∀ i < x.size, f (nth x i) = nth y i
  cubic : ∀ i, i + 1 < x.size → ∃ p : Polynomial ℝ, p.degree ≤ 3 ∧
    ∀ v ∈ Icc (nth x i) (nth x (i + 1)), f v = p.eval v
  smooth : ContDiffOn ℝ 2 f (Icc (nth x 0) (nth x (x.size - 1)))
  curvature_first :
    iteratedDerivWithin 2 f (Icc (nth x 0) (nth x (x.size - 1))) (nth x 0) = 0
  curvature_last :
    iteratedDerivWithin 2 f (Icc (nth x 0) (nth x (x.size - 1))) (nth x (x.size - 1)) = 0
  slope : ∀ v ∈ Ioo (nth x 0) (nth x (x.size - 1)), HasDerivAt f (f' v) v
  below : ∀ v < nth x 0, f v = nth y 0 ∧ f' v = 0
  above : ∀ v > nth x (x.size - 1), f v = nth y (x.size - 1) ∧ f' v = 0

/-- A property of sets that unions keep passes from the pieces of an interval to the interval. -/
theorem of_pieces {P : Set ℝ → Prop} (hunion : ∀ s t, P s → P t → P (s ∪ t)) {t : ℕ → ℝ} {n : ℕ}
    (ht : ∀ i < n + 1, t i ≤ t (i + 1)) (h : ∀ i < n + 1, P (Icc (t i) (t (i + 1)))) :
    P (Icc (t 0) (t (n + 1))) := by
  induction n with
  | zero => exact h 0 one_pos
  | succ n ih =>
      have hfront := ih (fun i hi ↦ ht i (by omega)) (fun i hi ↦ h i (by omega))
      have hmono : ∀ m ≤ n + 1, t 0 ≤ t m := by
        intro m hm
        induction m with
        | zero => exact le_rfl
        | succ m ihm => exact (ihm (by omega)).trans (ht m (by omega))
      rw [← Icc_union_Icc_eq_Icc (hmono (n + 1) le_rfl) (ht (n + 1) (by omega))]
      exact hunion _ _ hfront (h (n + 1) (by omega))

/-- A property of sets at a place holds of the range of knots if it holds of the closed knot
intervals that have the place and of the sets whose closure does not. -/
theorem of_knots {x : Array ℝ} (hn : 2 ≤ x.size) {P : Set ℝ → Prop}
    (hunion : ∀ s t, P s → P t → P (s ∪ t)) (v : ℝ) (haway : ∀ s, v ∉ closure s → P s)
    (h : ∀ i, i + 1 < x.size → v ∈ Icc (nth x i) (nth x (i + 1)) →
      P (Icc (nth x i) (nth x (i + 1)))) (hx : Increasing x) :
    P (Icc (nth x 0) (nth x (x.size - 1))) := by
  rw [show x.size - 1 = x.size - 2 + 1 by omega]
  refine of_pieces hunion (fun i hi ↦ (hx i (by omega)).le) fun i hi ↦ ?_
  by_cases hv : v ∈ Icc (nth x i) (nth x (i + 1))
  · exact h i (by omega) hv
  · exact haway _ (by rwa [isClosed_Icc.closure_eq])

/-- Away from a set every number is a derivative along it. -/
theorem hasDerivWithinAt_of_notMem_closure {s : Set ℝ} {f : ℝ → ℝ} {c v : ℝ}
    (h : v ∉ closure s) : HasDerivWithinAt f c s v :=
  hasDerivWithinAt_iff_hasFDerivWithinAt.mpr (.of_notMem_closure h)

/-- A function with a continuous second derivative along a set is twice continuously differentiable
there. -/
theorem contDiffOn_two {s : Set ℝ} (hs : UniqueDiffOn ℝ s) {f g k : ℝ → ℝ}
    (hf : ∀ v ∈ s, HasDerivWithinAt f (g v) s v) (hg : ∀ v ∈ s, HasDerivWithinAt g (k v) s v)
    (hk : ContinuousOn k s) : ContDiffOn ℝ 2 f s := by
  have hderiv : EqOn (derivWithin f s) g s := fun v hv ↦ (hf v hv).derivWithin (hs v hv)
  have hderiv' : EqOn (derivWithin g s) k s := fun v hv ↦ (hg v hv).derivWithin (hs v hv)
  have hone : ContDiffOn ℝ 1 g s := by
    rw [contDiffOn_one_iff_derivWithin hs]
    exact ⟨fun v hv ↦ (hg v hv).differentiableWithinAt, hk.congr hderiv'⟩
  rw [show (2 : WithTop ℕ∞) = 1 + 1 from one_add_one_eq_two.symm,
    contDiffOn_succ_iff_derivWithin hs]
  exact ⟨fun v hv ↦ (hf v hv).differentiableWithinAt, by simp, hone.congr hderiv⟩

/-- The second derivative along a set. -/
theorem iteratedDerivWithin_two {s : Set ℝ} (hs : UniqueDiffOn ℝ s) {f g : ℝ → ℝ} {c v : ℝ}
    (hf : ∀ v ∈ s, HasDerivWithinAt f (g v) s v) (hv : v ∈ s) (hg : HasDerivWithinAt g c s v) :
    iteratedDerivWithin 2 f s v = c := by
  have hderiv : EqOn (derivWithin f s) g s := fun v hv ↦ (hf v hv).derivWithin (hs v hv)
  rw [show 2 = 1 + 1 from rfl, iteratedDerivWithin_succ, iteratedDerivWithin_one,
    derivWithin_congr hderiv (hderiv hv)]
  exact hg.derivWithin (hs v hv)

/-! ## The pieces as polynomials -/

/-- The value on knot interval `i` as a polynomial. -/
noncomputable def piece (s : CubicSpline ℝ) (i : ℕ) : Polynomial ℝ :=
  .C (nth s.m i / (6 * gap s.x i)) * (.C (nth s.x (i + 1)) - .X) ^ 3
    + .C (nth s.m (i + 1) / (6 * gap s.x i)) * (.X - .C (nth s.x i)) ^ 3
    + .C (nth s.y i / gap s.x i - nth s.m i * gap s.x i / 6) * (.C (nth s.x (i + 1)) - .X)
    + .C (nth s.y (i + 1) / gap s.x i - nth s.m (i + 1) * gap s.x i / 6) * (.X - .C (nth s.x i))

/-- The second derivative on knot interval `i`, from those at its ends. -/
noncomputable def curvatureOn (s : CubicSpline ℝ) (i : ℕ) (v : ℝ) : ℝ :=
  (nth s.m i * (nth s.x (i + 1) - v) + nth s.m (i + 1) * (v - nth s.x i)) / gap s.x i

/-- The second derivative at a place between the knots. -/
noncomputable def curvature (s : CubicSpline ℝ) (v : ℝ) : ℝ :=
  s.curvatureOn (interval s.x v) v

variable (s : CubicSpline ℝ) (i : ℕ)

/-- A piece is a cubic. -/
theorem degree_piece : (s.piece i).degree ≤ 3 := by
  unfold piece
  compute_degree

/-- A piece computes the value. -/
theorem eval_piece (v : ℝ) : (s.piece i).eval v = s.evalOn i v := by
  rw [evalOn_eq]
  simp only [piece, Polynomial.eval_add, Polynomial.eval_mul, Polynomial.eval_C,
    Polynomial.eval_pow, Polynomial.eval_sub, Polynomial.eval_X]
  ring

/-- The value's derivative is the slope. -/
theorem hasDerivAt_evalOn {s : CubicSpline ℝ} {i : ℕ} (h : gap s.x i ≠ 0) (v : ℝ) :
    HasDerivAt (s.evalOn i) (s.derivativeOn i v) v := by
  have hpiece : s.evalOn i = fun v ↦ (s.piece i).eval v := funext fun v ↦ (eval_piece s i v).symm
  rw [hpiece]
  refine ((s.piece i).hasDerivAt v).congr_deriv ?_
  rw [derivativeOn_eq]
  simp [piece, Polynomial.derivative_pow, secant]
  field_simp
  ring

/-- The slope's derivative is the second derivative. -/
theorem hasDerivAt_derivativeOn {s : CubicSpline ℝ} {i : ℕ} (h : gap s.x i ≠ 0) (v : ℝ) :
    HasDerivAt (s.derivativeOn i) (s.curvatureOn i v) v := by
  have hslope : s.derivativeOn i = fun v ↦ ((s.piece i).derivative).eval v := by
    funext v
    exact (hasDerivAt_evalOn h v).unique (((s.piece i).hasDerivAt v).congr_of_eventuallyEq
      (.of_forall fun v ↦ (eval_piece s i v).symm))
  rw [hslope]
  refine ((s.piece i).derivative.hasDerivAt v).congr_deriv ?_
  simp [piece, Polynomial.derivative_pow, curvatureOn]
  field_simp
  ring

/-! ## The spline between its knots -/

section Glued

variable {s : CubicSpline ℝ} (hn : 2 ≤ s.x.size) (hx : Increasing s.x)
  (hm : IsCurvature s.x (nth s.y) (nth s.m))

include hx in
/-- On a closed knot interval the second derivative is that of the interval's piece. -/
theorem curvature_eq_curvatureOn {i : ℕ} {v : ℝ} (hi : i + 1 < s.x.size) (hleft : nth s.x i ≤ v)
    (hright : v ≤ nth s.x (i + 1)) : s.curvature v = s.curvatureOn i v := by
  refine Spline.apply_interval hx s.curvatureOn (fun j hj ↦ ?_) hi hleft hright
  have hgap := (hx.gap_pos (i := j) (by omega)).ne'
  have hgap' := (hx.gap_pos hj).ne'
  unfold curvatureOn gap at *
  field_simp
  ring

include hn hx hm

/-- Between the knots the spline has the slope `derivative`. -/
theorem hasDerivWithinAt_eval (v : ℝ) : HasDerivWithinAt s.eval (s.derivative v)
    (Icc (nth s.x 0) (nth s.x (s.x.size - 1))) v := by
  refine of_knots hn (P := fun t ↦ HasDerivWithinAt s.eval (s.derivative v) t v)
    (fun _ _ ↦ HasDerivWithinAt.union) v (fun _ ↦ hasDerivWithinAt_of_notMem_closure)
    (fun i hi hv ↦ ?_) hx
  rw [derivative_eq_derivativeOn hx hm hi hv.1 hv.2]
  exact (hasDerivAt_evalOn (hx.gap_pos hi).ne' v).hasDerivWithinAt.congr
    (fun w hw ↦ eval_eq_evalOn hx hi hw.1 hw.2) (eval_eq_evalOn hx hi hv.1 hv.2)

/-- Between the knots the slope has the derivative `curvature`. -/
theorem hasDerivWithinAt_derivative (v : ℝ) : HasDerivWithinAt s.derivative (s.curvature v)
    (Icc (nth s.x 0) (nth s.x (s.x.size - 1))) v := by
  refine of_knots hn (P := fun t ↦ HasDerivWithinAt s.derivative (s.curvature v) t v)
    (fun _ _ ↦ HasDerivWithinAt.union) v (fun _ ↦ hasDerivWithinAt_of_notMem_closure)
    (fun i hi hv ↦ ?_) hx
  rw [curvature_eq_curvatureOn hx hi hv.1 hv.2]
  exact (hasDerivAt_derivativeOn (hx.gap_pos hi).ne' v).hasDerivWithinAt.congr
    (fun w hw ↦ derivative_eq_derivativeOn hx hm hi hw.1 hw.2)
    (derivative_eq_derivativeOn hx hm hi hv.1 hv.2)

omit hm in
/-- Between the knots the second derivative is continuous. -/
theorem continuousOn_curvature :
    ContinuousOn s.curvature (Icc (nth s.x 0) (nth s.x (s.x.size - 1))) := by
  intro v _
  refine of_knots hn (P := fun t ↦ ContinuousWithinAt s.curvature t v)
    (fun _ _ ↦ ContinuousWithinAt.union) v (fun _ ↦ continuousWithinAt_of_notMem_closure)
    (fun i hi hv ↦ ?_) hx
  have hcontinuous : Continuous (s.curvatureOn i) := by
    unfold curvatureOn
    fun_prop
  exact hcontinuous.continuousWithinAt.congr
    (fun w hw ↦ curvature_eq_curvatureOn hx hi hw.1 hw.2)
    (curvature_eq_curvatureOn hx hi hv.1 hv.2)

/-- A spline with the curvatures of its values is the natural spline through them. -/
theorem isNaturalSpline_of_isCurvature : IsNaturalSpline s.x s.y s.eval s.derivative := by
  have hgap : ∀ {i}, i + 1 < s.x.size → gap s.x i ≠ 0 := fun hi ↦ (hx.gap_pos hi).ne'
  have hends : nth s.x 0 < nth s.x (s.x.size - 1) := hx.lt (by omega) (by omega)
  have hunique := uniqueDiffOn_Icc hends
  have heval := fun v (_ : v ∈ Icc (nth s.x 0) (nth s.x (s.x.size - 1))) ↦
    hasDerivWithinAt_eval hn hx hm v
  -- the last knot has no interval on its right and is the right end of the one before
  have hknot : ∀ i < s.x.size, s.eval (nth s.x i) = nth s.y i := by
    intro i hi
    by_cases hlast : i + 1 < s.x.size
    · rw [eval_eq_evalOn hx hlast le_rfl (hx i hlast).le, evalOn_left (hgap hlast)]
    · obtain ⟨j, rfl⟩ : ∃ j, i = j + 1 := ⟨i - 1, by omega⟩
      rw [eval_eq_evalOn hx hi (hx j hi).le le_rfl, evalOn_right (hgap hi)]
  refine ⟨hknot, fun i hi ↦ ⟨s.piece i, degree_piece s i, fun v hv ↦ ?_⟩, ?_, ?_, ?_, ?_, ?_, ?_⟩
  · rw [eval_piece, eval_eq_evalOn hx hi hv.1 hv.2]
  · exact contDiffOn_two hunique heval (fun v _ ↦ hasDerivWithinAt_derivative hn hx hm v)
      (continuousOn_curvature hn hx)
  · rw [iteratedDerivWithin_two hunique heval (left_mem_Icc.mpr hends.le)
      (hasDerivWithinAt_derivative hn hx hm _),
      curvature_eq_curvatureOn hx (i := 0) (by omega) le_rfl (hx 0 (by omega)).le]
    simp [curvatureOn, hm.first]
  · obtain ⟨i, hi⟩ : ∃ i, s.x.size - 1 = i + 1 := ⟨s.x.size - 2, by omega⟩
    rw [iteratedDerivWithin_two hunique heval (right_mem_Icc.mpr hends.le)
      (hasDerivWithinAt_derivative hn hx hm _), hi,
      curvature_eq_curvatureOn hx (by omega) (hx i (by omega)).le le_rfl]
    simp [curvatureOn, ← hi, hm.last]
  · intro v hv
    exact (heval v (Ioo_subset_Icc_self hv)).hasDerivAt (Icc_mem_nhds hv.1 hv.2)
  · intro v hv
    have hclamp : Scalar.clamp s.xMin s.xMax v = nth s.x 0 := Exact.clamp_of_lt hends.le hv
    refine ⟨?_, derivative_of_lt hv⟩
    rw [← eval_clamp hx (by omega), hclamp]
    exact hknot 0 (by omega)
  · intro v hv
    have hclamp : Scalar.clamp s.xMin s.xMax v = nth s.x (s.x.size - 1) :=
      Exact.clamp_of_gt hends.le hv
    refine ⟨?_, derivative_of_gt hv⟩
    rw [← eval_clamp hx (by omega), hclamp]
    exact hknot (s.x.size - 1) (by omega)

end Glued

/-- Through values at two or more knots that are at least `1e-300` apart there is a spline, and it
is the natural interpolating cubic spline. -/
theorem through_isNaturalSpline (x y : Array ℝ) (hn : 2 ≤ x.size) (hy : y.size = x.size)
    (hgap : ∀ i, i + 1 < x.size → 1e-300 ≤ nth x (i + 1) - nth x i) :
    ∃ s, through x y = .ok s ∧ IsNaturalSpline x y s.eval s.derivative := by
  have hx : Increasing x := fun i hi ↦
    sub_pos.mp ((Exact.decimal_pos one_pos 300).trans_le (hgap i hi))
  obtain ⟨m, hm⟩ := Spline.curvatures_of_gaps hn hgap y
  have hcurvature := (Spline.isCurvature_of_curvatures hn hm).2
  exact ⟨⟨x, y, m⟩, (through_eq_ok_iff x y _).mpr ⟨hn, hx, hy, m, hm, rfl⟩,
    isNaturalSpline_of_isCurvature (s := ⟨x, y, m⟩) hn hx hcurvature⟩

/-- The spline through three values at unevenly spaced knots. -/
theorem through_three_isNaturalSpline : ∃ s, through #[(0 : ℝ), 1, 3] #[2, -1, 5] = .ok s ∧
    IsNaturalSpline #[0, 1, 3] #[2, -1, 5] s.eval s.derivative := by
  refine through_isNaturalSpline _ _ (by decide) rfl fun i hi ↦ ?_
  have hlt : i < 2 := Nat.lt_of_succ_lt_succ hi
  refine (Exact.decimal_le_one 300).trans ?_
  interval_cases i
  · norm_num [Exact.nth_eq_getD]
  · norm_num [Exact.nth_eq_getD]

end PlasmaField.CubicSpline
