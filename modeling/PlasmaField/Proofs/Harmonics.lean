import Mathlib
import PlasmaField.Harmonics
import PlasmaField.Proofs.Elementary
import PlasmaField.Proofs.Outcome

/-!
# Harmonic series over the real numbers

`cosineSeries` and `sineSeries` are the sums over the modes of a coefficient times the cosine or the
sine of `m t + n v`. The addition theorems turn the two sums of products that a basis computes into
these series, `cosineAt_eq` and `sineAt_eq`, whatever the blocks in which the modes are summed, so
that a basis sums all modes at every point of its grid, `ofModes_sums`. The derivative of a series
along an angle is the other series with the coefficients scaled by the mode numbers.
-/

namespace PlasmaField

open Scalar (nth)
open scoped Exact Elementary

/-- The series of cosines at a pair of angles. -/
noncomputable def cosineSeries (xm xn : Array ℝ) (a : ℕ → ℝ) (t v : ℝ) : ℝ :=
  ∑ k ∈ Finset.range xm.size, a k * Real.cos (nth xm k * t + nth xn k * v)

/-- The series of sines at a pair of angles. -/
noncomputable def sineSeries (xm xn : Array ℝ) (a : ℕ → ℝ) (t v : ℝ) : ℝ :=
  ∑ k ∈ Finset.range xm.size, a k * Real.sin (nth xm k * t + nth xn k * v)

section Congruence

variable {xm : Array ℝ} {a b : ℕ → ℝ} (h : ∀ k < xm.size, a k = b k) (xn : Array ℝ) (t v : ℝ)
include h

/-- A series of cosines only depends on the coefficients of its modes. -/
theorem cosineSeries_congr : cosineSeries xm xn a t v = cosineSeries xm xn b t v :=
  Finset.sum_congr rfl fun k hk ↦ by rw [h k (Finset.mem_range.mp hk)]

/-- A series of sines only depends on the coefficients of its modes. -/
theorem sineSeries_congr : sineSeries xm xn a t v = sineSeries xm xn b t v :=
  Finset.sum_congr rfl fun k hk ↦ by rw [h k (Finset.mem_range.mp hk)]

end Congruence

/-! ## Derivatives -/

section Derivatives

variable (xm xn : Array ℝ) (a : ℕ → ℝ) (k : ℕ) (t v : ℝ)

/-- The angle of a mode grows along the first angle by the first mode number. -/
theorem hasDerivAt_angle_left :
    HasDerivAt (fun t ↦ nth xm k * t + nth xn k * v) (nth xm k) t := by
  simpa using ((hasDerivAt_id t).const_mul (nth xm k)).add_const (nth xn k * v)

/-- The angle of a mode grows along the second angle by the second mode number. -/
theorem hasDerivAt_angle_right :
    HasDerivAt (fun v ↦ nth xm k * t + nth xn k * v) (nth xn k) v := by
  simpa using ((hasDerivAt_id v).const_mul (nth xn k)).const_add (nth xm k * t)

/-- The derivative of a series of cosines along the first angle. -/
theorem hasDerivAt_cosineSeries_left : HasDerivAt (fun t ↦ cosineSeries xm xn a t v)
    (sineSeries xm xn (fun k ↦ a k * -nth xm k) t v) t := by
  refine HasDerivAt.fun_sum fun k _ ↦ ?_
  refine ((hasDerivAt_angle_left xm xn k t v).cos.const_mul (a k)).congr_deriv ?_
  ring

/-- The derivative of a series of cosines along the second angle. -/
theorem hasDerivAt_cosineSeries_right : HasDerivAt (fun v ↦ cosineSeries xm xn a t v)
    (sineSeries xm xn (fun k ↦ a k * -nth xn k) t v) v := by
  refine HasDerivAt.fun_sum fun k _ ↦ ?_
  refine ((hasDerivAt_angle_right xm xn k t v).cos.const_mul (a k)).congr_deriv ?_
  ring

/-- The derivative of a series of sines along the first angle. -/
theorem hasDerivAt_sineSeries_left : HasDerivAt (fun t ↦ sineSeries xm xn a t v)
    (cosineSeries xm xn (fun k ↦ a k * nth xm k) t v) t := by
  refine HasDerivAt.fun_sum fun k _ ↦ ?_
  refine ((hasDerivAt_angle_left xm xn k t v).sin.const_mul (a k)).congr_deriv ?_
  ring

/-- The derivative of a series of sines along the second angle. -/
theorem hasDerivAt_sineSeries_right : HasDerivAt (fun v ↦ sineSeries xm xn a t v)
    (cosineSeries xm xn (fun k ↦ a k * nth xn k) t v) v := by
  refine HasDerivAt.fun_sum fun k _ ↦ ?_
  refine ((hasDerivAt_angle_right xm xn k t v).sin.const_mul (a k)).congr_deriv ?_
  ring

/-- A series of cosines is differentiable. -/
theorem differentiable_cosineSeries :
    Differentiable ℝ fun p : ℝ × ℝ ↦ cosineSeries xm xn a p.1 p.2 := by
  unfold cosineSeries
  fun_prop

/-- A series of sines is differentiable. -/
theorem differentiable_sineSeries :
    Differentiable ℝ fun p : ℝ × ℝ ↦ sineSeries xm xn a p.1 p.2 := by
  unfold sineSeries
  fun_prop

end Derivatives

/-! ## Sums over the modes -/

/-- Adding up terms one after the other gives their sum. -/
theorem foldl_add_range (f : ℕ → ℝ) (n : ℕ) :
    (List.range n).foldl (fun acc k ↦ acc + f k) 0 = ∑ k ∈ Finset.range n, f k := by
  induction n with
  | zero => rfl
  | succ n ih =>
      rw [List.range_succ, List.foldl_append, ih, Finset.sum_range_succ]
      rfl

/-- The first `m` blocks of `size` terms are the first `m * size` terms, as far as there are any. -/
theorem sum_blocks (term : ℕ → ℝ) (n size m : ℕ) :
    ∑ block ∈ Finset.range m, ∑ k ∈ Finset.range (min size (n - block * size)),
      term (block * size + k) = ∑ k ∈ Finset.range (min (m * size) n), term k := by
  induction m with
  | zero => simp
  | succ m ih =>
      rw [Finset.sum_range_succ, ih, Nat.succ_mul]
      rcases Nat.lt_or_ge n (m * size) with h | h
      · rw [min_eq_right h.le, min_eq_right (show n ≤ m * size + size by omega),
          show n - m * size = 0 by omega]
        simp
      · rw [min_eq_left h, ← Finset.sum_range_add]
        congr 2
        omega

/-- A full turn is divided into as many angles as are asked for, over every type of scalars. -/
@[simp]
theorem size_closedAngles {α : Type} [ElementaryScalar α] (n : ℕ) :
    (closedAngles n : Array α).size = n := by
  unfold closedAngles
  split
  · simp [*]
  · exact Array.size_ofFn

/-- The angles of a closed turn, where there is more than one. -/
theorem nth_closedAngles {n i : ℕ} (hn : n ≠ 1) (hi : i < n) :
    nth (closedAngles n : Array ℝ) i = 2 * Real.pi / ((n - 1 : ℕ) : ℝ) * i := by
  have hlinspace : (closedAngles n : Array ℝ) = Scalar.linspace 0 (2 * Real.pi) n := by
    unfold closedAngles
    rw [if_neg hn, Exact.literal_zero, Exact.literal_ofNat]
    rfl
  rw [hlinspace, Exact.nth_linspace _ _ (by omega) hi, zero_add, sub_zero]

/-- The first angle is zero. -/
theorem nth_closedAngles_zero {n : ℕ} (hn : 0 < n) : nth (closedAngles n : Array ℝ) 0 = 0 := by
  by_cases h : n = 1
  · subst h
    simp [closedAngles, Exact.nth_eq_getD]
  · rw [nth_closedAngles h hn, Nat.cast_zero, mul_zero]

/-- The last angle of two or more is a full turn. -/
theorem nth_closedAngles_last {n : ℕ} (hn : 2 ≤ n) :
    nth (closedAngles n : Array ℝ) (n - 1) = 2 * Real.pi := by
  have hgaps : ((n - 1 : ℕ) : ℝ) ≠ 0 := Nat.cast_ne_zero.mpr (by omega)
  rw [nth_closedAngles (by omega) (by omega), div_mul_cancel₀ _ hgaps]

/-- Reading the angles backwards reflects them, up to full turns. -/
theorem exists_nth_closedAngles_reflect {n i : ℕ} (hi : i < n) : ∃ turns : ℤ,
    nth (closedAngles n : Array ℝ) (n - 1 - i) =
      turns * (2 * Real.pi) - nth (closedAngles n : Array ℝ) i := by
  by_cases hn : n = 1
  · subst hn
    obtain rfl : i = 0 := by omega
    exact ⟨0, by simp [nth_closedAngles_zero]⟩
  · refine ⟨1, ?_⟩
    have hgaps : ((n - 1 : ℕ) : ℝ) ≠ 0 := Nat.cast_ne_zero.mpr (by omega)
    rw [nth_closedAngles hn (by omega), nth_closedAngles hn hi,
      Nat.cast_sub (show i ≤ n - 1 by omega), mul_sub, div_mul_cancel₀ _ hgaps, Int.cast_one,
      one_mul]

/-- Only the last of two or more angles is a full turn. -/
theorem nth_closedAngles_lt_iff {n k : ℕ} (hk : k < n) :
    nth (closedAngles n : Array ℝ) k < 2 * Real.pi ↔ k + 1 < n ∨ n = 1 := by
  by_cases hone : n = 1
  · subst hone
    obtain rfl : k = 0 := by omega
    rw [nth_closedAngles_zero one_pos]
    exact iff_of_true Real.two_pi_pos (.inr rfl)
  · have hgaps : (0 : ℝ) < ((n - 1 : ℕ) : ℝ) := Nat.cast_pos.mpr (by omega)
    rw [nth_closedAngles hone hk, div_mul_eq_mul_div, div_lt_iff₀ hgaps,
      mul_lt_mul_iff_right₀ Real.two_pi_pos, Nat.cast_lt]
    omega

/-- The angles are not negative. -/
theorem nth_closedAngles_nonneg {n k : ℕ} (hk : k < n) :
    0 ≤ nth (closedAngles n : Array ℝ) k := by
  by_cases hone : n = 1
  · subst hone
    obtain rfl : k = 0 := by omega
    rw [nth_closedAngles_zero one_pos]
  · rw [nth_closedAngles hone hk]
    exact mul_nonneg (div_nonneg Real.two_pi_pos.le (Nat.cast_nonneg _)) (Nat.cast_nonneg _)

/-- The angles increase. -/
theorem nth_closedAngles_lt_succ {n k : ℕ} (hk : k + 1 < n) :
    nth (closedAngles n : Array ℝ) k < nth (closedAngles n : Array ℝ) (k + 1) := by
  have hgaps : (0 : ℝ) < ((n - 1 : ℕ) : ℝ) := Nat.cast_pos.mpr (by omega)
  rw [nth_closedAngles (by omega) (by omega), nth_closedAngles (by omega) hk]
  exact mul_lt_mul_of_pos_left (Nat.cast_lt.mpr (Nat.lt_succ_self k))
    (div_pos Real.two_pi_pos hgaps)

namespace HarmonicBasis

/-- The blocks hold all modes. -/
theorem sumModes_eq (b : HarmonicBasis ℝ) (term : ℕ → ℝ) :
    b.sumModes term = ∑ k ∈ Finset.range b.modes, term k := by
  have hfold : b.sumModes term = (List.range ((b.modes + blockSize - 1) / blockSize)).foldl
      (fun total block ↦ total + (List.range (min blockSize (b.modes - block * blockSize))).foldl
        (fun acc k ↦ acc + term (block * blockSize + k)) 0) 0 := by
    unfold sumModes
    simp only [Exact.literal_zero]
  have hlast : b.modes ≤ (b.modes + blockSize - 1) / blockSize * blockSize := by
    unfold blockSize
    omega
  rw [hfold, foldl_add_range]
  simp only [foldl_add_range]
  rw [sum_blocks, min_eq_right hlast]

/-- The sum over the modes of the coefficient times a function of each angle. -/
theorem modeSum_eq (b : HarmonicBasis ℝ) (f g : ℝ → ℝ) (a : ℕ → ℝ) (t v : ℝ) :
    b.modeSum f g a t v =
      ∑ k ∈ Finset.range b.modes, f (nth b.xm k * t) * a k * g (nth b.xn k * v) :=
  sumModes_eq b _

/-- The cosine series that a basis computes. -/
theorem cosineAt_eq (b : HarmonicBasis ℝ) : b.cosineAt = cosineSeries b.xm b.xn := by
  funext a t v
  show b.modeSum Real.cos Real.cos a t v - b.modeSum Real.sin Real.sin a t v = _
  rw [modeSum_eq, modeSum_eq, ← Finset.sum_sub_distrib]
  refine Finset.sum_congr rfl fun k _ ↦ ?_
  rw [Real.cos_add]
  ring

/-- The sine series that a basis computes. -/
theorem sineAt_eq (b : HarmonicBasis ℝ) : b.sineAt = sineSeries b.xm b.xn := by
  funext a t v
  show b.modeSum Real.sin Real.cos a t v + b.modeSum Real.cos Real.sin a t v = _
  rw [modeSum_eq, modeSum_eq, ← Finset.sum_add_distrib]
  refine Finset.sum_congr rfl fun k _ ↦ ?_
  rw [Real.sin_add]
  ring

/-- A basis is built from mode tables of one length, if there is at least one mode and at least one
angle of each kind. -/
theorem ofModes_eq_ok_iff {α : Type} [ElementaryScalar α] {xm xn theta zeta : Array α}
    {b : HarmonicBasis α} :
    ofModes xm xn theta zeta = .ok b ↔ (xm.size = xn.size ∧ 0 < xm.size ∧ 0 < theta.size ∧
      0 < zeta.size) ∧ b = ⟨xm, xn, theta, zeta⟩ := by
  unfold ofModes
  rw [Outcome.guard_eq_ok_iff, Outcome.guard_eq_ok_iff]
  simp only [bne_iff_ne, ne_eq, not_not, Bool.or_eq_true, Array.isEmpty_iff_size_eq_zero, not_or,
    ← Nat.pos_iff_ne_zero, and_assoc]
  refine and_congr_right fun _ ↦ and_congr_right fun _ ↦ and_congr_right fun _ ↦
    and_congr_right fun _ ↦ ?_
  show Except.ok _ = Except.ok b ↔ _
  rw [Except.ok.injEq, eq_comm]

/-- A basis on closed angles is built from one or more modes and one or more angles. -/
theorem onClosedAngles_eq_ok {α : Type} [ElementaryScalar α] {xm xn : Array α}
    (hsize : xm.size = xn.size) (hmodes : 0 < xm.size) {nTheta nZeta : ℕ} (htheta : 0 < nTheta)
    (hzeta : 0 < nZeta) :
    onClosedAngles xm xn nTheta nZeta =
      .ok ⟨xm, xn, closedAngles nTheta, closedAngles nZeta⟩ := by
  refine ofModes_eq_ok_iff.mpr ⟨⟨hsize, hmodes, ?_, ?_⟩, rfl⟩
  · rwa [size_closedAngles]
  · rwa [size_closedAngles]

section Series

variable (b : HarmonicBasis ℝ) {coeffs : Table ℝ} (h : coeffs.cols = b.modes)
include h

/-- Cosine synthesis is the series of cosines on every surface and at every pair of angles. -/
theorem cosines_eq_ok : b.cosines coeffs =
    .ok (Cube.ofFn coeffs.rows b.theta.size b.zeta.size fun s i j ↦
      cosineSeries b.xm b.xn (coeffs.get s) (nth b.theta i) (nth b.zeta j)) := by
  unfold cosines synthesize
  rw [if_neg (by simp [h]), cosineAt_eq]

/-- Sine synthesis is the series of sines on every surface and at every pair of angles. -/
theorem sines_eq_ok : b.sines coeffs =
    .ok (Cube.ofFn coeffs.rows b.theta.size b.zeta.size fun s i j ↦
      sineSeries b.xm b.xn (coeffs.get s) (nth b.theta i) (nth b.zeta j)) := by
  unfold sines synthesize
  rw [if_neg (by simp [h]), sineAt_eq]

end Series

/-! ## Sums at every point -/

/-- A block has one layer for each row of coefficients and one element for each pair of angles,
which is the sum over all modes of the coefficient times a function of the mode's angle. -/
structure IsModeSum (f : ℝ → ℝ) (xm xn theta zeta : Array ℝ) (coeffs : Table ℝ) (c : Cube ℝ) :
    Prop where
  shape : c.n = coeffs.rows ∧ c.m = theta.size ∧ c.l = zeta.size
  element : ∀ s < coeffs.rows, ∀ i < theta.size, ∀ j < zeta.size, c.get s i j =
    ∑ k ∈ Finset.range xm.size,
      coeffs.get s k * f (nth xm k * nth theta i + nth xn k * nth zeta j)

/-- For coefficients with one column per mode a basis sums the cosines and the sines of all modes on
every surface and at every point of the angular grid, whatever the mode numbers. Any other number of
columns is a fault of the shape. -/
theorem ofModes_sums {xm xn theta zeta : Array ℝ} (hsize : xm.size = xn.size)
    (hmodes : 1 ≤ xm.size) (htheta : 0 < theta.size) (hzeta : 0 < zeta.size) :
    ∃ b, ofModes xm xn theta zeta = .ok b ∧ ∀ coeffs : Table ℝ,
      (coeffs.cols = xm.size →
        (∃ c, b.cosines coeffs = .ok c ∧ IsModeSum Real.cos xm xn theta zeta coeffs c) ∧
        ∃ c, b.sines coeffs = .ok c ∧ IsModeSum Real.sin xm xn theta zeta coeffs c) ∧
      (coeffs.cols ≠ xm.size →
        b.cosines coeffs = .error (.shape (.modeCount coeffs.cols xm.size)) ∧
        b.sines coeffs = .error (.shape (.modeCount coeffs.cols xm.size))) := by
  refine ⟨_, ofModes_eq_ok_iff.mpr ⟨⟨hsize, hmodes, htheta, hzeta⟩, rfl⟩, fun coeffs ↦ ⟨?_, ?_⟩⟩
  · intro hcols
    refine ⟨⟨_, cosines_eq_ok _ hcols, ⟨rfl, rfl, rfl⟩, fun s hs i hi j hj ↦ ?_⟩,
      ⟨_, sines_eq_ok _ hcols, ⟨rfl, rfl, rfl⟩, fun s hs i hi j hj ↦ ?_⟩⟩
    · exact Cube.get_ofFn _ hs hi hj
    · exact Cube.get_ofFn _ hs hi hj
  · intro hcols
    have hne : (coeffs.cols != xm.size) = true := bne_iff_ne.mpr hcols
    exact ⟨if_pos hne, if_pos hne⟩

/-- Two modes on one poloidal and two toroidal angles: two rows of two coefficients are summed, and
a single column of coefficients is refused. -/
theorem ofModes_twoModes_sums :
    ∃ b, ofModes #[0, 1 / 2] #[3, -5] #[1] #[2, 4] = .ok b ∧
      (∃ c, b.cosines ⟨2, 2, #[1, 3, -2, 4], rfl⟩ = .ok c ∧
        IsModeSum Real.cos #[0, 1 / 2] #[3, -5] #[1] #[2, 4] ⟨2, 2, #[1, 3, -2, 4], rfl⟩ c) ∧
      b.sines ⟨1, 1, #[7], rfl⟩ = .error (.shape (.modeCount 1 2)) := by
  obtain ⟨b, hb, hsums⟩ :=
    @ofModes_sums #[0, 1 / 2] #[3, -5] #[1] #[2, 4] rfl (by decide) (by decide) (by decide)
  exact ⟨b, hb, ((hsums _).1 rfl).1, ((hsums _).2 (by decide)).2⟩

end HarmonicBasis

/-- Scaled coefficients are multiplied by the factor of their mode. -/
theorem get_scaleColumns {α : Type} [Scalar α] {coeffs : Table α} {factor : Array α}
    (h : factor.size = coeffs.cols) {s k : ℕ} (hs : s < coeffs.rows) (hk : k < coeffs.cols) :
    (scaleColumns coeffs factor).get s k = coeffs.get s k * nth factor k := by
  have hplace : (if factor.size = 1 then 0 else k) = k := by
    split <;> omega
  unfold scaleColumns
  rw [Table.get_ofFn _ hs hk, hplace]

end PlasmaField
