import Mathlib
import PlasmaField.Proofs.Spline.Affine

/-!
# Splines through lines and bilinear functions

A line has no curvature, so its slope is the slope at every knot, and the cubic of a knot interval
that has the values and the slope of a line at its ends is the line. A natural spline through values
on a line is therefore that line between its knots. A bicubic spline through the values of
`a + b x + c y + d x y` has the function and its partial derivatives in the rectangle of knots,
however the knots are spaced: `reproduces_bilinear`.
-/

namespace PlasmaField

open Scalar (nth)
open Spline (Increasing IsSlope gap interval curvatures)
open CubicSpline (hermiteSum hermite_eq hermiteSlope_eq)
open Set (Icc)
open scoped Exact

variable {K : Type} [Field K] [LinearOrder K] [FloorRing K]

namespace Spline

/-- A line has its own slope at every knot. -/
theorem isSlope_line [IsStrictOrderedRing K] {x : Array K} (hx : Increasing x) (a b : K) :
    IsSlope x (fun i ↦ a + b * nth x i) fun _ ↦ b := by
  have hsecant : ∀ i, i + 1 < x.size → secant x (fun i ↦ a + b * nth x i) i = b := by
    intro i hi
    have hgap : gap x i ≠ 0 := (hx.gap_pos hi).ne'
    unfold secant
    rw [add_sub_add_left_eq_sub, ← mul_sub, show nth x (i + 1) - nth x i = gap x i from rfl,
      mul_div_cancel_right₀ b hgap]
  refine ⟨fun _ ↦ 0, ⟨rfl, rfl, fun i hi ↦ ?_⟩, fun i hi ↦ ?_⟩
  · rw [hsecant i (by omega), hsecant (i + 1) hi]
    ring
  · unfold leftSlope rightSlope
    rw [hsecant i hi]
    constructor
    · ring
    · ring

/-- Values on a line have its slope at every knot. -/
theorem IsSlope.eq_of_line [IsStrictOrderedRing K] {x : Array K} (hn : 2 ≤ x.size)
    (hx : Increasing x) (hc : ∀ z, ∃ m, curvatures x z = .ok m) {y d : ℕ → K}
    (hd : IsSlope x y d) {a b : K} (hy : ∀ i < x.size, y i = a + b * nth x i) {i : ℕ}
    (hi : i < x.size) : d i = b :=
  (hd.congr hy fun _ _ ↦ rfl).unique hn hc (isSlope_line hx a b) hi

end Spline

namespace BicubicSpline

/-! ## Reading a line -/

/-- The weights on knot interval `i`, with a scale, take the number `read a b` from the values and
the slope of the line `a + b x` at the ends of the interval. -/
def ReadsLine (x : Array K) (i : ℕ) (w : Weights K) (scale : K) (read : K → K → K) : Prop :=
  ∀ a b, hermiteSum w (gap x i) (a + b * nth x i) b (a + b * nth x (i + 1)) b * scale = read a b

section Weights

variable {x : Array K} {i : ℕ}

/-- The weights of the value read the value of the line. -/
theorem readsLine_hermite (h : gap x i ≠ 0) (v : K) :
    ReadsLine x i (hermite ((v - nth x i) / gap x i)) 1 fun a b ↦ a + b * v := by
  intro a b
  rw [show nth x (i + 1) = nth x i + gap x i by unfold gap; ring, hermite_eq]
  unfold hermiteSum
  field_simp
  ring

/-- The weights of the derivative read the slope of the line. -/
theorem readsLine_hermiteSlope (h : gap x i ≠ 0) (v : K) :
    ReadsLine x i (hermiteSlope ((v - nth x i) / gap x i)) (1 / gap x i) fun _ b ↦ b := by
  intro a b
  rw [show nth x (i + 1) = nth x i + gap x i by unfold gap; ring, hermiteSlope_eq]
  unfold hermiteSum
  field_simp
  ring

/-- What is read from a line is linear in the line. -/
theorem ReadsLine.add_mul {w : Weights K} {scale : K} {read : K → K → K}
    (h : ReadsLine x i w scale read) (a b c d y : K) :
    read (a + c * y) (b + d * y) = read a b + read c d * y := by
  rw [← h, ← h, ← h]
  unfold hermiteSum
  ring

end Weights

/-! ## Tables of a bilinear function -/

/-- The function `a + b x + c y + d x y`. -/
def bilinear (a b c d x y : K) : K :=
  a + b * x + c * y + d * x * y

/-- The values of a function at the knots, one row per `y` knot and one column per `x` knot. -/
def samples (f : K → K → K) (x y : Array K) : Table K :=
  Table.ofFn y.size x.size fun j i ↦ f (nth x i) (nth y j)

/-- The tables of `s` hold the values and the derivatives of `a + b x + c y + d x y`. -/
structure IsBilinear (s : BicubicSpline K) (a b c d : K) : Prop where
  f_eq : ∀ j < s.y.size, ∀ i < s.x.size, s.f.get j i = bilinear a b c d (nth s.x i) (nth s.y j)
  fx_eq : ∀ j < s.y.size, ∀ i < s.x.size, s.fx.get j i = b + d * nth s.y j
  fy_eq : ∀ j < s.y.size, ∀ i < s.x.size, s.fy.get j i = c + d * nth s.x i
  fxy_eq : ∀ j < s.y.size, ∀ i < s.x.size, s.fxy.get j i = d

/-- A patch of the tables of a bilinear function reads the function first along `x` and then along
`y`. -/
theorem IsBilinear.patch_eq {s : BicubicSpline K} {a b c d : K} (h : s.IsBilinear a b c d)
    {i j : ℕ} (hi : i + 1 < s.x.size) (hj : j + 1 < s.y.size) {wx wy : Weights K}
    {scaleX scaleY : K} {readX readY : K → K → K} (hx : ReadsLine s.x i wx scaleX readX)
    (hy : ReadsLine s.y j wy scaleY readY) :
    s.patch i j wx wy (gap s.x i) (gap s.y j) * scaleX * scaleY =
      readY (readX a b) (readX c d) := by
  have hi' : i < s.x.size := Nat.lt_of_succ_lt hi
  have hj' : j < s.y.size := Nat.lt_of_succ_lt hj
  have hvalue : ∀ k < s.y.size,
      scaleX * s.across i wx k = readX a b + readX c d * nth s.y k := by
    intro k hk
    rw [← hx.add_mul, ← hx]
    unfold across hermiteSum
    rw [h.f_eq k hk i hi', h.f_eq k hk _ hi, h.fx_eq k hk i hi', h.fx_eq k hk _ hi]
    unfold bilinear
    ring
  have hslope : ∀ k < s.y.size, scaleX * s.acrossSlope i wx k = readX c d := by
    intro k hk
    rw [← hx]
    unfold acrossSlope hermiteSum
    rw [h.fy_eq k hk i hi', h.fy_eq k hk _ hi, h.fxy_eq k hk i hi', h.fxy_eq k hk _ hi]
    ring
  rw [BicubicSpline.patch_eq, ← hermiteSum_mul, hvalue j hj', hvalue _ hj, hslope j hj',
    hslope _ hj]
  exact hy _ _

section Queries

variable [IsStrictOrderedRing K] {s : BicubicSpline K}

/-- The tables of the spline through the values of a bilinear function hold its derivatives. -/
theorem IsTensor.isBilinear (hs : s.IsTensor) {a b c d : K}
    (hf : s.f = samples (bilinear a b c d) s.x s.y) : s.IsBilinear a b c d := by
  have hvalue : ∀ j < s.y.size, ∀ i < s.x.size,
      s.f.get j i = bilinear a b c d (nth s.x i) (nth s.y j) := by
    intro j hj i hi
    rw [hf, samples, Table.get_ofFn _ hj hi]
  have hslope : ∀ j < s.y.size, ∀ i < s.x.size, s.fx.get j i = b + d * nth s.y j := by
    intro j hj i hi
    refine (hs.row_slopes j hj).eq_of_line hs.two_le_x hs.increasing_x hs.exists_curvatures_x
      (a := a + c * nth s.y j) (fun i hi ↦ ?_) hi
    rw [hvalue j hj i hi]
    unfold bilinear
    ring
  refine ⟨hvalue, hslope, fun j hj i hi ↦ ?_, fun j hj i hi ↦ ?_⟩
  · refine (hs.col_slopes i hi).eq_of_line hs.two_le_y hs.increasing_y hs.col_curvatures
      (a := a + b * nth s.x i) (fun j hj ↦ ?_) hj
    rw [hvalue j hj i hi]
    unfold bilinear
    ring
  · exact (hs.mixed_slopes i hi).eq_of_line hs.two_le_y hs.increasing_y hs.col_curvatures
      (fun j hj ↦ hslope j hj i hi) hj

/-- A query between the knots reads the bilinear function first along `x` and then along `y`. -/
theorem IsBilinear.evalWith_eq {a b c d : K} (h : s.IsBilinear a b c d) (hs : s.IsTensor)
    {xq yq : K} (hxq : xq ∈ Icc (nth s.x 0) (nth s.x (s.x.size - 1)))
    (hyq : yq ∈ Icc (nth s.y 0) (nth s.y (s.y.size - 1))) (weightsX weightsY : K → Weights K)
    (scaleX scaleY : K → K) {readX readY : K → K → K}
    (hx : ∀ i, gap s.x i ≠ 0 → ReadsLine s.x i (weightsX ((xq - nth s.x i) / gap s.x i))
      (scaleX (gap s.x i)) readX)
    (hy : ∀ j, gap s.y j ≠ 0 → ReadsLine s.y j (weightsY ((yq - nth s.y j) / gap s.y j))
      (scaleY (gap s.y j)) readY) :
    s.evalWith weightsX weightsY scaleX scaleY xq yq = readY (readX a b) (readX c d) := by
  obtain ⟨hi, -⟩ := Spline.mem_interval hs.two_le_x hxq.1 hxq.2
  obtain ⟨hj, -⟩ := Spline.mem_interval hs.two_le_y hyq.1 hyq.2
  unfold evalWith
  rw [Exact.clamp_of_mem hxq.1 hxq.2, Exact.clamp_of_mem hyq.1 hyq.2]
  exact h.patch_eq hi hj (hx _ (hs.increasing_x.gap_pos hi).ne')
    (hy _ (hs.increasing_y.gap_pos hj).ne')

/-- Where there is a spline through some values there is one through the values of a bilinear
function. In the rectangle of knots it is the function, with the function's partial derivatives. -/
theorem exists_through_bilinear {x y : Array K} {f : Table K} (h : through x y f = .ok s)
    (a b c d : K) : ∃ t, through x y (samples (bilinear a b c d) x y) = .ok t ∧
      ∀ xq ∈ Icc (nth x 0) (nth x (x.size - 1)), ∀ yq ∈ Icc (nth y 0) (nth y (y.size - 1)),
        t.value xq yq = bilinear a b c d xq yq ∧
        t.derivativeX xq yq = b + d * yq ∧ t.derivativeY xq yq = c + d * xq := by
  obtain ⟨rfl, rfl, rfl, hs⟩ := isTensor_of_through h
  obtain ⟨t, ht⟩ := exists_through (f := samples (bilinear a b c d) s.x s.y)
    ⟨hs.two_le_x, hs.increasing_x⟩ ⟨hs.two_le_y, hs.increasing_y⟩ rfl rfl
    hs.exists_curvatures_x hs.col_curvatures
  obtain ⟨hx, hy, hf, hs'⟩ := isTensor_of_through ht
  have hbilinear := hs'.isBilinear (by rw [hf, hx, hy])
  refine ⟨t, ht, fun xq hxq yq hyq ↦ ?_⟩
  rw [← hx] at hxq
  rw [← hy] at hyq
  unfold value derivativeX derivativeY
  rw [Exact.literal_one]
  refine ⟨?_, ?_, ?_⟩
  · rw [hbilinear.evalWith_eq hs' hxq hyq hermite hermite (fun _ ↦ 1) (fun _ ↦ 1)
      (fun i hi ↦ readsLine_hermite hi xq) fun j hj ↦ readsLine_hermite hj yq]
    unfold bilinear
    ring
  · exact hbilinear.evalWith_eq hs' hxq hyq hermiteSlope hermite (fun hx ↦ 1 / hx) (fun _ ↦ 1)
      (fun i hi ↦ readsLine_hermiteSlope hi xq) fun j hj ↦ readsLine_hermite hj yq
  · exact hbilinear.evalWith_eq hs' hxq hyq hermite hermiteSlope (fun _ ↦ 1) (fun hy ↦ 1 / hy)
      (fun i hi ↦ readsLine_hermite hi xq) fun j hj ↦ readsLine_hermiteSlope hj yq

end Queries

end BicubicSpline

namespace CubicSpline

variable [IsStrictOrderedRing K]

/-- A spline through values on a line is the line between its knots, with the line's slope. -/
theorem eval_of_line {t : CubicSpline K} (hn : 2 ≤ t.x.size) (hx : Increasing t.x)
    (hm : curvatures t.x t.y = .ok t.m) {a b : K}
    (hy : ∀ i < t.x.size, nth t.y i = a + b * nth t.x i) {v : K}
    (hv : v ∈ Icc (nth t.x 0) (nth t.x (t.x.size - 1))) :
    t.eval v = a + b * v ∧ t.derivative v = b := by
  obtain ⟨hi, hleft, hright⟩ := Spline.mem_interval hn hv.1 hv.2
  have hgap := (hx.gap_pos hi).ne'
  have hslope : IsSlope t.x (nth t.y) fun _ ↦ b :=
    (Spline.isSlope_line hx a b).congr (fun i hi ↦ (hy i hi).symm) fun _ _ ↦ rfl
  rw [eval_eq_hermite hx hm hslope hi hleft hright,
    derivative_eq_hermite hx hm hslope hi hleft hright, hy _ (Nat.lt_of_succ_lt hi), hy _ hi]
  constructor
  · rw [← mul_one (hermiteSum ..)]
    exact BicubicSpline.readsLine_hermite hgap v a b
  · exact BicubicSpline.readsLine_hermiteSlope hgap v a b

/-- Where there is a spline through some values there is one through values on a line. Between the
knots it is the line, with the line's slope. -/
theorem exists_through_line {x y : Array K} {s : CubicSpline K} (h : through x y = .ok s)
    (a b : K) : ∃ t, through x (x.map fun v ↦ a + b * v) = .ok t ∧
      ∀ v ∈ Icc (nth x 0) (nth x (x.size - 1)), t.eval v = a + b * v ∧ t.derivative v = b := by
  obtain ⟨hn, hx, -, m, hm, -⟩ := (through_eq_ok_iff x y s).mp h
  obtain ⟨k, hk⟩ := Spline.curvatures_of_curvatures hm hn (x.map fun v ↦ a + b * v)
  refine ⟨⟨x, _, k⟩, (through_eq_ok_iff x _ _).mpr ⟨hn, hx, Array.size_map, k, hk, rfl⟩,
    fun v hv ↦ eval_of_line hn hx hk (fun i hi ↦ ?_) hv⟩
  show nth (x.map fun v ↦ a + b * v) i = a + b * nth x i
  rw [Exact.nth_eq_getElem _ (by simpa using hi), Array.getElem_map, Exact.nth_eq_getElem x hi]

end CubicSpline

namespace Spline

variable [IsStrictOrderedRing K]

/-- **Bilinear functions are reproduced.** On all knots that splines are built on, the bicubic
spline through the values of `a + b x + c y + d x y` is this function, with its partial derivatives,
in the closed rectangle of knots. The cubic spline through values on a line is the line, with its
slope, from the first to the last knot. -/
theorem reproduces_bilinear :
    (∀ (x y : Array K) (f : Table K) (s : BicubicSpline K), BicubicSpline.through x y f = .ok s →
      ∀ a b c d, ∃ t,
        BicubicSpline.through x y (BicubicSpline.samples (BicubicSpline.bilinear a b c d) x y) =
          .ok t ∧
        ∀ xq ∈ Icc (nth x 0) (nth x (x.size - 1)), ∀ yq ∈ Icc (nth y 0) (nth y (y.size - 1)),
          t.value xq yq = BicubicSpline.bilinear a b c d xq yq ∧
          t.derivativeX xq yq = b + d * yq ∧ t.derivativeY xq yq = c + d * xq) ∧
    ∀ (x y : Array K) (s : CubicSpline K), CubicSpline.through x y = .ok s →
      ∀ a b, ∃ t, CubicSpline.through x (x.map fun v ↦ a + b * v) = .ok t ∧
        ∀ v ∈ Icc (nth x 0) (nth x (x.size - 1)), t.eval v = a + b * v ∧ t.derivative v = b :=
  ⟨fun _ _ _ _ h ↦ BicubicSpline.exists_through_bilinear h,
    fun _ _ _ h ↦ CubicSpline.exists_through_line h⟩

/-- A bilinear function and a line at unevenly spaced knots, at places between the knots. -/
theorem reproduces_bilinear_uneven :
    (BicubicSpline.through #[(0 : ℚ), 1, 3] #[0, 2] ⟨2, 3, #[1, 2, 5, 0, 4, 1], rfl⟩).isOk = true ∧
    (∃ t, BicubicSpline.through #[(0 : ℚ), 1, 3] #[0, 2]
        (BicubicSpline.samples (BicubicSpline.bilinear 1 2 3 4) #[0, 1, 3] #[0, 2]) = .ok t ∧
      t.value (3 / 2) 1 = 13 ∧ t.derivativeX (3 / 2) 1 = 6 ∧ t.derivativeY (3 / 2) 1 = 9) ∧
    (CubicSpline.through #[(0 : ℚ), 1, 3] #[2, -1, 5]).isOk = true ∧
    ∃ t, CubicSpline.through #[(0 : ℚ), 1, 3] (#[0, 1, 3].map fun v ↦ 5 + -2 * v) = .ok t ∧
      t.eval 2 = 1 ∧ t.derivative 2 = -2 := by
  have hbicubic : (BicubicSpline.through #[(0 : ℚ), 1, 3] #[0, 2]
      ⟨2, 3, #[1, 2, 5, 0, 4, 1], rfl⟩).isOk = true := by decide +kernel
  have hcubic : (CubicSpline.through #[(0 : ℚ), 1, 3] #[2, -1, 5]).isOk = true := by
    decide +kernel
  obtain ⟨s, hs⟩ := Outcome.exists_of_isOk hbicubic
  obtain ⟨r, hr⟩ := Outcome.exists_of_isOk hcubic
  obtain ⟨t, ht, hvalues⟩ := reproduces_bilinear.1 _ _ _ _ hs 1 2 3 4
  obtain ⟨u, hu, hline⟩ := reproduces_bilinear.2 _ _ _ hr 5 (-2)
  obtain ⟨hvalue, hx, hy⟩ := hvalues (3 / 2) (by decide +kernel) 1 (by decide +kernel)
  obtain ⟨heval, hderivative⟩ := hline 2 (by decide +kernel)
  refine ⟨hbicubic, ⟨t, ht, ?_, ?_, ?_⟩, hcubic, u, hu, ?_, hderivative⟩
  · rw [hvalue]
    norm_num [BicubicSpline.bilinear]
  · rw [hx]
    norm_num
  · rw [hy]
    norm_num
  · rw [heval]
    norm_num

end Spline

end PlasmaField
