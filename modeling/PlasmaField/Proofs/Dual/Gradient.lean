import Mathlib
import PlasmaField.Dual
import PlasmaField.Proofs.Elementary

/-!
# Dual numbers and gradients

A dual carries a function at a point of the plane when its value is the function's value there and
its derivatives make up the function's gradient, `Dual.Carries`. Over the reals every operation on
duals keeps this: the result carries the same operation applied to the functions. Operations on one
dual are instances of the chain rule, `Carries.chain`.
-/

namespace PlasmaField.Dual

open scoped Exact Elementary

/-- The gradient that a dual holds, as a linear map on displacements. -/
noncomputable def gradient (a : Dual ℝ) : ℝ × ℝ →L[ℝ] ℝ :=
  a.dx • ContinuousLinearMap.fst ℝ ℝ ℝ + a.dz • ContinuousLinearMap.snd ℝ ℝ ℝ

/-- The gradient along a displacement. -/
theorem gradient_apply (a : Dual ℝ) (v : ℝ × ℝ) : a.gradient v = a.dx * v.1 + a.dz * v.2 :=
  rfl

/-- The dual has the value and the gradient of the function `f` at the point `q`. -/
structure Carries (a : Dual ℝ) (f : ℝ × ℝ → ℝ) (q : ℝ × ℝ) : Prop where
  value_eq : a.value = f q
  hasFDerivAt : HasFDerivAt f a.gradient q

variable {a b : Dual ℝ} {f g : ℝ × ℝ → ℝ} {q : ℝ × ℝ}

/-- A dual carries a function whose derivative along every displacement it gives. -/
theorem carries_of_apply {d : ℝ × ℝ →L[ℝ] ℝ} (hvalue : a.value = f q) (hf : HasFDerivAt f d q)
    (hd : ∀ v, d v = a.dx * v.1 + a.dz * v.2) : a.Carries f q :=
  ⟨hvalue, hf.congr_fderiv (ContinuousLinearMap.ext hd)⟩

/-- The derivative along `x` is the function's. -/
theorem Carries.hasDerivAt_x (h : a.Carries f q) : HasDerivAt (fun x ↦ f (x, q.2)) a.dx q.1 := by
  have hline : HasDerivAt (fun x : ℝ ↦ (x, q.2)) (1, 0) q.1 :=
    (hasDerivAt_id q.1).prodMk (hasDerivAt_const q.1 q.2)
  have hcomp := HasFDerivAt.comp_hasDerivAt q.1 (l := f) h.hasFDerivAt hline
  exact hcomp.congr_deriv (by simp [gradient_apply])

/-- The derivative along `z` is the function's. -/
theorem Carries.hasDerivAt_z (h : a.Carries f q) : HasDerivAt (fun z ↦ f (q.1, z)) a.dz q.2 := by
  have hline : HasDerivAt (fun z : ℝ ↦ (q.1, z)) (0, 1) q.2 :=
    (hasDerivAt_const q.2 q.1).prodMk (hasDerivAt_id q.2)
  have hcomp := HasFDerivAt.comp_hasDerivAt q.2 (l := f) h.hasFDerivAt hline
  exact hcomp.congr_deriv (by simp [gradient_apply])

/-! ## Constants and variables -/

/-- A constant dual carries the constant function. -/
theorem carries_constant (v : ℝ) : (constant v).Carries (fun _ ↦ v) q := by
  refine carries_of_apply rfl (hasFDerivAt_const v q) fun w ↦ ?_
  simp [constant]

/-- The first variable carries the first coordinate. -/
theorem carries_varX : (varX q.1).Carries Prod.fst q := by
  refine carries_of_apply rfl hasFDerivAt_fst fun w ↦ ?_
  simp [varX]

/-- The second variable carries the second coordinate. -/
theorem carries_varZ : (varZ q.2).Carries Prod.snd q := by
  refine carries_of_apply rfl hasFDerivAt_snd fun w ↦ ?_
  simp [varZ]

/-! ## Arithmetic -/

/-- The sum of duals carries the sum. -/
theorem Carries.add (ha : a.Carries f q) (hb : b.Carries g q) :
    (a + b).Carries (fun p ↦ f p + g p) q := by
  refine carries_of_apply ?_ (ha.hasFDerivAt.fun_add hb.hasFDerivAt) fun v ↦ ?_
  · show a.value + b.value = f q + g q
    rw [ha.value_eq, hb.value_eq]
  · show a.dx * v.1 + a.dz * v.2 + (b.dx * v.1 + b.dz * v.2) =
      (a.dx + b.dx) * v.1 + (a.dz + b.dz) * v.2
    ring

/-- The difference of duals carries the difference. -/
theorem Carries.sub (ha : a.Carries f q) (hb : b.Carries g q) :
    (a - b).Carries (fun p ↦ f p - g p) q := by
  refine carries_of_apply ?_ (ha.hasFDerivAt.fun_sub hb.hasFDerivAt) fun v ↦ ?_
  · show a.value - b.value = f q - g q
    rw [ha.value_eq, hb.value_eq]
  · show a.dx * v.1 + a.dz * v.2 - (b.dx * v.1 + b.dz * v.2) =
      (a.dx - b.dx) * v.1 + (a.dz - b.dz) * v.2
    ring

/-- The negative of a dual carries the negative. -/
theorem Carries.neg (ha : a.Carries f q) : (-a).Carries (fun p ↦ -f p) q := by
  refine carries_of_apply ?_ ha.hasFDerivAt.fun_neg fun v ↦ ?_
  · show -a.value = -f q
    rw [ha.value_eq]
  · show -(a.dx * v.1 + a.dz * v.2) = -a.dx * v.1 + -a.dz * v.2
    ring

/-- The product of duals carries the product. -/
theorem Carries.mul (ha : a.Carries f q) (hb : b.Carries g q) :
    (a * b).Carries (fun p ↦ f p * g p) q := by
  refine carries_of_apply ?_ (ha.hasFDerivAt.fun_mul hb.hasFDerivAt) fun v ↦ ?_
  · show a.value * b.value = f q * g q
    rw [ha.value_eq, hb.value_eq]
  · rw [← ha.value_eq, ← hb.value_eq]
    show a.value * (b.dx * v.1 + b.dz * v.2) + b.value * (a.dx * v.1 + a.dz * v.2) =
      (a.dx * b.value + a.value * b.dx) * v.1 + (a.dz * b.value + a.value * b.dz) * v.2
    ring

/-- A dual plus a number carries the sum. -/
theorem Carries.addScalar (ha : a.Carries f q) (c : ℝ) :
    (a.addScalar c).Carries (fun p ↦ f p + c) q := by
  refine carries_of_apply ?_ (ha.hasFDerivAt.add_const c) fun _ ↦ rfl
  show a.value + c = f q + c
  rw [ha.value_eq]

/-- A dual minus a number carries the difference. -/
theorem Carries.subScalar (ha : a.Carries f q) (c : ℝ) :
    (a.subScalar c).Carries (fun p ↦ f p - c) q := by
  refine carries_of_apply ?_ (ha.hasFDerivAt.sub_const c) fun _ ↦ rfl
  show a.value - c = f q - c
  rw [ha.value_eq]

/-- A dual times a number carries the product. -/
theorem Carries.mulScalar (ha : a.Carries f q) (c : ℝ) :
    (a.mulScalar c).Carries (fun p ↦ f p * c) q := by
  refine carries_of_apply ?_ (ha.hasFDerivAt.mul_const c) fun v ↦ ?_
  · show a.value * c = f q * c
    rw [ha.value_eq]
  · show c * (a.dx * v.1 + a.dz * v.2) = a.dx * c * v.1 + a.dz * c * v.2
    ring

/-- A number times a dual carries the product. -/
theorem Carries.scalarMul (c : ℝ) (ha : a.Carries f q) :
    (scalarMul c a).Carries (fun p ↦ c * f p) q := by
  have hmul := ha.mulScalar c
  simp only [mul_comm] at hmul
  exact hmul

/-! ## Functions of one dual -/

/-- The chain rule: with the value and the slope of a function `r`, the dual carries the function
applied to what was carried. -/
theorem Carries.chain (ha : a.Carries f q) {r : ℝ → ℝ} {slope : ℝ}
    (hr : HasDerivAt r slope a.value) :
    (a.chain (r a.value) slope).Carries (fun p ↦ r (f p)) q := by
  rw [ha.value_eq] at hr ⊢
  refine carries_of_apply rfl (hr.comp_hasFDerivAt q ha.hasFDerivAt) fun v ↦ ?_
  show slope * (a.dx * v.1 + a.dz * v.2) = slope * a.dx * v.1 + slope * a.dz * v.2
  ring

/-- The quotient of duals carries the quotient where the divisor is not zero. -/
theorem Carries.div (ha : a.Carries f q) (hb : b.Carries g q) (hne : b.value ≠ 0) :
    (a / b).Carries (fun p ↦ f p / g p) q := by
  have hinv := (hasDerivAt_inv (hb.value_eq ▸ hne)).comp_hasFDerivAt q hb.hasFDerivAt
  have hquotient : a / b = ⟨a.value * (1 / b.value),
      (a.dx - a.value * (1 / b.value) * b.dx) * (1 / b.value),
      (a.dz - a.value * (1 / b.value) * b.dz) * (1 / b.value)⟩ := by
    rw [← Exact.literal_one]
    rfl
  simp only [div_eq_mul_inv (f _)]
  rw [hquotient]
  refine carries_of_apply ?_ (ha.hasFDerivAt.fun_mul hinv) fun v ↦ ?_
  · show a.value * (1 / b.value) = f q * (g q)⁻¹
    rw [ha.value_eq, hb.value_eq, one_div]
  · show f q * (-(g q ^ 2)⁻¹ * (b.dx * v.1 + b.dz * v.2)) +
      (g q)⁻¹ * (a.dx * v.1 + a.dz * v.2) = _
    rw [← ha.value_eq, ← hb.value_eq]
    dsimp only
    field_simp
    ring

/-- The logarithm of a dual with a positive value carries the logarithm. -/
theorem Carries.log (ha : a.Carries f q) (hpos : 0 < a.value) :
    a.log.Carries (fun p ↦ Real.log (f p)) q := by
  have hslope : HasDerivAt Real.log (1 / a.value) a.value := by
    rw [one_div]
    exact Real.hasDerivAt_log hpos.ne'
  have hchain := ha.chain hslope
  rw [← Exact.literal_one] at hchain
  exact hchain

/-- The square root of a dual with a positive value carries the square root. -/
theorem Carries.sqrt (ha : a.Carries f q) (hpos : 0 < a.value) :
    a.sqrt.Carries (fun p ↦ √(f p)) q := by
  have hslope : HasDerivAt Real.sqrt (0.5 / √a.value) a.value := by
    refine (Real.hasDerivAt_sqrt hpos.ne').congr_deriv ?_
    ring
  exact ha.chain hslope

/-- The sine of a dual carries the sine. -/
theorem Carries.sin (ha : a.Carries f q) : a.sin.Carries (fun p ↦ Real.sin (f p)) q :=
  ha.chain (Real.hasDerivAt_sin a.value)

/-- The cosine of a dual carries the cosine. -/
theorem Carries.cos (ha : a.Carries f q) : a.cos.Carries (fun p ↦ Real.cos (f p)) q :=
  ha.chain (Real.hasDerivAt_cos a.value)

/-- Every exponent but the least one has a predecessor. -/
theorem toInt_pred {n : Int32} (hn : n ≠ Int32.minValue) : (n - 1).toInt = n.toInt - 1 := by
  have hlow : Int32.minValue.toInt < n.toInt :=
    lt_of_le_of_ne (Int32.le_toInt n) fun h ↦ hn (Int32.toInt_inj.mp h).symm
  have hhigh := Int32.toInt_lt n
  rw [Int32.toInt_minValue] at hlow
  rw [Int32.toInt_sub, Int32.toInt_one]
  exact Int.bmod_eq_of_le (by omega) (by omega)

/-- The power of a dual carries the power, where the exponent has a predecessor and is negative only
for a value other than zero. -/
theorem Carries.pow (ha : a.Carries f q) {n : Int32} (hn : n ≠ Int32.minValue)
    (hbase : n < 0 → a.value ≠ 0) : (a.pow n).Carries (fun p ↦ f p ^ n.toInt) q := by
  unfold Dual.pow
  split
  case isTrue hzero =>
    rw [hzero]
    simpa using carries_constant 1
  case isFalse hzero =>
    rw [Exact.zpow_eq, Exact.zpow_eq, Exact.ofInt_eq, toInt_pred hn]
    have hdomain : a.value ≠ 0 ∨ 0 ≤ n.toInt := by
      by_cases hneg : n < 0
      · exact .inl (hbase hneg)
      · exact .inr (not_lt.mp fun h ↦ hneg (Int32.lt_iff_toInt_lt.mpr h))
    exact ha.chain (hasDerivAt_zpow n.toInt a.value hdomain)

/-- The square of a dual. -/
theorem pow_two_eq (a : Dual ℝ) :
    a.pow 2 = ⟨a.value ^ 2, 2 * a.value * a.dx, 2 * a.value * a.dz⟩ := by
  have hvalue : Scalar.pow a.value 2 = a.value ^ 2 := Exact.pow_eq a.value 2
  have hslope : Scalar.pow a.value 1 = a.value := (Exact.pow_eq a.value 1).trans (pow_one _)
  show (⟨Scalar.pow a.value 2, Scalar.ofInt 2 * Scalar.pow a.value 1 * a.dx,
    Scalar.ofInt 2 * Scalar.pow a.value 1 * a.dz⟩ : Dual ℝ) = _
  rw [hvalue, hslope, Exact.ofInt_eq]
  norm_num

/-- The square of a dual carries the square. -/
theorem Carries.square (ha : a.Carries f q) : (a.pow 2).Carries (fun p ↦ f p ^ 2) q :=
  ha.pow (n := 2) (by decide) fun hneg ↦ absurd hneg (by decide)

/-! ## Accumulated differences -/

section Lists

variable {ι : Type}

/-- Duals taken away one after another are taken away together. -/
theorem foldl_sub (k : ι → Dual ℝ) (l : List ι) (a : Dual ℝ) :
    l.foldl (fun a c ↦ a - k c) a = ⟨a.value - (l.map fun c ↦ (k c).value).sum,
      a.dx - (l.map fun c ↦ (k c).dx).sum, a.dz - (l.map fun c ↦ (k c).dz).sum⟩ := by
  induction l generalizing a with
  | nil => simp
  | cons c l ih =>
      rw [List.foldl_cons, ih]
      simp only [List.map_cons, List.sum_cons, ← sub_sub]
      rfl

/-- Duals that carry functions carry the difference of the functions when they are taken away. -/
theorem Carries.foldl_sub {k : ι → Dual ℝ} {h : ι → ℝ × ℝ → ℝ} {l : List ι}
    (hk : ∀ c ∈ l, (k c).Carries (h c) q) (ha : a.Carries f q) :
    (l.foldl (fun a c ↦ a - k c) a).Carries (fun p ↦ f p - (l.map fun c ↦ h c p).sum) q := by
  induction l generalizing a f with
  | nil => simpa using ha
  | cons c l ih =>
      have hrest := ih (fun c' hc' ↦ hk c' (List.mem_cons_of_mem c hc'))
        (ha.sub (hk c List.mem_cons_self))
      simpa only [List.foldl_cons, List.map_cons, List.sum_cons, sub_sub] using hrest

end Lists

end PlasmaField.Dual
