import Mathlib
import PlasmaField.Proofs.Spline.Affine

/-!
# Exchanging the axes of a bicubic spline

The slopes of a natural spline are fixed combinations of its values, `exists_slopeWeights`. Taking
slopes along one axis of a table therefore commutes with taking slopes along the other one, so that
the mixed derivatives are also the slopes along the rows of the slopes along the columns. The spline
through the transposed table, with the knots of the axes exchanged, has the transposed tables, and
at exchanged queries it has the same value and exchanged derivatives: `through_transpose`.
-/

namespace PlasmaField

open Scalar (nth)
open scoped Exact

variable {K : Type} [Field K] [LinearOrder K] [FloorRing K]

namespace Table

/-- The table with rows and columns exchanged. -/
def transpose (t : Table K) : Table K :=
  ofFn t.cols t.rows fun i j ↦ t.get j i

/-- Reading the transposed table reads the table. -/
theorem get_transpose (t : Table K) {i j : ℕ} (hi : i < t.cols) (hj : j < t.rows) :
    t.transpose.get i j = t.get j i :=
  get_ofFn _ hi hj

end Table

namespace Spline

/-- Sums of slopes are slopes of the sums. -/
theorem IsSlope.sum {ι : Type} {x : Array K} (t : Finset ι) {y d : ι → ℕ → K}
    (h : ∀ k ∈ t, IsSlope x (y k) (d k)) :
    IsSlope x (fun i ↦ ∑ k ∈ t, y k i) fun i ↦ ∑ k ∈ t, d k i := by
  induction t using Finset.cons_induction with
  | empty => simpa using isSlope_const x 0
  | cons k t hk ih =>
      have hrest := ih fun k' hk' ↦ h k' (Finset.mem_cons_of_mem hk')
      simpa only [Finset.sum_cons] using (h k (Finset.mem_cons_self k t)).add hrest

variable [IsStrictOrderedRing K]

/-- Where the system for the curvatures can be solved, all values have slopes. -/
theorem exists_isSlope {x : Array K} (hn : 2 ≤ x.size) (hc : ∀ z, ∃ m, curvatures x z = .ok m)
    (y : ℕ → K) : ∃ d, IsSlope x y d := by
  obtain ⟨d, hd⟩ := exists_slopes hn hc (Array.ofFn fun i : Fin x.size ↦ y i)
  refine ⟨nth d, (isSlope_of_slopes hn hd).congr (fun i hi ↦ ?_) fun _ _ ↦ rfl⟩
  exact Exact.nth_ofFn (fun i : Fin x.size ↦ y i) hi

/-- The slopes at given knots are fixed combinations of the values there. -/
theorem exists_slopeWeights {x : Array K} (hn : 2 ≤ x.size)
    (hc : ∀ z, ∃ m, curvatures x z = .ok m) : ∃ w : ℕ → ℕ → K, ∀ y d, IsSlope x y d →
      ∀ i < x.size, d i = ∑ k ∈ Finset.range x.size, w i k * y k := by
  -- the weights are the slopes of the values that vanish at all knots but one
  choose e he using fun k : ℕ ↦ exists_isSlope hn hc (Pi.single k 1)
  refine ⟨fun i k ↦ e k i, fun y d hd i hi ↦ ?_⟩
  have hsum := IsSlope.sum (Finset.range x.size) fun k _ ↦ (he k).smul (y k)
  have hvalues : ∀ i < x.size,
      ∑ k ∈ Finset.range x.size, y k * (Pi.single k 1 : ℕ → K) i = y i := by
    intro i hi
    simp [Pi.single_apply, hi]
  rw [hd.unique hn hc (hsum.congr hvalues fun _ _ ↦ rfl) hi]
  exact Finset.sum_congr rfl fun k _ ↦ mul_comm _ _

/-- The slopes along one axis of the slopes along the other one do not depend on which axis comes
first. -/
theorem IsSlope.interchange {x y : Array K} {f fx fy fxy : ℕ → ℕ → K} (hn : 2 ≤ y.size)
    (hc : ∀ z, ∃ m, curvatures y z = .ok m)
    (hrow : ∀ j < y.size, IsSlope x (f j) (fx j))
    (hcol : ∀ i < x.size, IsSlope y (fun j ↦ f j i) fun j ↦ fy j i)
    (hmixed : ∀ i < x.size, IsSlope y (fun j ↦ fx j i) fun j ↦ fxy j i) {j : ℕ}
    (hj : j < y.size) : IsSlope x (fy j) (fxy j) := by
  obtain ⟨w, hw⟩ := exists_slopeWeights hn hc
  have hsum := IsSlope.sum (Finset.range y.size) fun k hk ↦
    (hrow k (Finset.mem_range.mp hk)).smul (w j k)
  exact hsum.congr (fun i hi ↦ (hw _ _ (hcol i hi) j hj).symm)
    fun i hi ↦ (hw _ _ (hmixed i hi) j hj).symm

end Spline

namespace BicubicSpline

/-- The axes of `t` are those of `s` exchanged, and its tables are transposed. -/
structure IsTransposed (s t : BicubicSpline K) : Prop where
  x_eq : t.x = s.y
  y_eq : t.y = s.x
  f_eq : ∀ j < s.y.size, ∀ i < s.x.size, t.f.get i j = s.f.get j i
  fx_eq : ∀ j < s.y.size, ∀ i < s.x.size, t.fx.get i j = s.fy.get j i
  fy_eq : ∀ j < s.y.size, ∀ i < s.x.size, t.fy.get i j = s.fx.get j i
  fxy_eq : ∀ j < s.y.size, ∀ i < s.x.size, t.fxy.get i j = s.fxy.get j i

/-- A patch of the transposed tables is the patch with its axes exchanged. -/
theorem IsTransposed.patch_eq {s t : BicubicSpline K} (h : IsTransposed s t) {i j : ℕ}
    (hi : i + 1 < s.x.size) (hj : j + 1 < s.y.size) (wx wy : Weights K) (hx hy : K) :
    t.patch j i wy wx hy hx = s.patch i j wx wy hx hy := by
  have hi' : i < s.x.size := Nat.lt_of_succ_lt hi
  have hj' : j < s.y.size := Nat.lt_of_succ_lt hj
  unfold patch corner
  rw [h.f_eq j hj' i hi', h.f_eq j hj' _ hi, h.f_eq _ hj i hi', h.f_eq _ hj _ hi,
    h.fx_eq j hj' i hi', h.fx_eq j hj' _ hi, h.fx_eq _ hj i hi', h.fx_eq _ hj _ hi,
    h.fy_eq j hj' i hi', h.fy_eq j hj' _ hi, h.fy_eq _ hj i hi', h.fy_eq _ hj _ hi,
    h.fxy_eq j hj' i hi', h.fxy_eq j hj' _ hi, h.fxy_eq _ hj i hi', h.fxy_eq _ hj _ hi]
  ring

/-- A query of the transposed tables is the query with its axes exchanged. -/
theorem IsTransposed.evalWith_eq {s t : BicubicSpline K} (h : IsTransposed s t) (hs : s.IsTensor)
    (weightsX weightsY : K → Weights K) (scaleX scaleY : K → K) (xq yq : K) :
    t.evalWith weightsY weightsX scaleY scaleX yq xq =
      s.evalWith weightsX weightsY scaleX scaleY xq yq := by
  obtain ⟨hi, hj⟩ := hs.cell_lt xq yq
  unfold evalWith
  rw [h.x_eq, h.y_eq]
  dsimp only
  rw [h.patch_eq hi hj, mul_right_comm]

section Queries

variable [IsStrictOrderedRing K]

/-- There is a spline through the transposed values, and its tables are transposed. -/
theorem exists_through_transpose {x y : Array K} {f : Table K} {s : BicubicSpline K}
    (h : through x y f = .ok s) :
    ∃ t, through y x f.transpose = .ok t ∧ IsTransposed s t := by
  obtain ⟨rfl, rfl, rfl, hs⟩ := isTensor_of_through h
  obtain ⟨t, ht⟩ := exists_through (f := s.f.transpose) ⟨hs.two_le_y, hs.increasing_y⟩
    ⟨hs.two_le_x, hs.increasing_x⟩ hs.rows hs.cols hs.col_curvatures hs.exists_curvatures_x
  refine ⟨t, ht, ?_⟩
  obtain ⟨hx, hy, hf, ht⟩ := isTensor_of_through ht
  have hrow := ht.row_slopes
  have hcol := ht.col_slopes
  have hmixed := ht.mixed_slopes
  rw [hx, hy] at hrow hcol hmixed
  have hvalue : ∀ j < s.y.size, ∀ i < s.x.size, t.f.get i j = s.f.get j i := by
    intro j hj i hi
    rw [hf, Table.get_transpose _ (hs.cols ▸ hi) (hs.rows ▸ hj)]
  have hslope : ∀ j < s.y.size, ∀ i < s.x.size, t.fx.get i j = s.fy.get j i := by
    intro j hj i hi
    have hup := (hrow i hi).congr (fun j hj ↦ hvalue j hj i hi) fun _ _ ↦ rfl
    exact hup.unique hs.two_le_y hs.col_curvatures (hs.col_slopes i hi) hj
  refine ⟨hx, hy, hvalue, hslope, fun j hj i hi ↦ ?_, fun j hj i hi ↦ ?_⟩
  · have hacross := (hcol j hj).congr (fun i hi ↦ hvalue j hj i hi) fun _ _ ↦ rfl
    exact hacross.unique hs.two_le_x hs.exists_curvatures_x (hs.row_slopes j hj) hi
  · have hacross := (hmixed j hj).congr (fun i hi ↦ hslope j hj i hi) fun _ _ ↦ rfl
    have hexchanged := Spline.IsSlope.interchange hs.two_le_y hs.col_curvatures hs.row_slopes
      hs.col_slopes hs.mixed_slopes hj
    exact hacross.unique hs.two_le_x hs.exists_curvatures_x hexchanged hi

/-- A bicubic spline prefers no axis: through the transposed values, with the knots of the axes
exchanged, there is a spline. At exchanged queries it has the same value, and its derivatives are
exchanged. -/
theorem through_transpose {x y : Array K} {f : Table K} {s : BicubicSpline K}
    (h : through x y f = .ok s) :
    ∃ t, through y x f.transpose = .ok t ∧ ∀ xq yq,
      t.value yq xq = s.value xq yq ∧
      t.derivativeX yq xq = s.derivativeY xq yq ∧
      t.derivativeY yq xq = s.derivativeX xq yq := by
  obtain ⟨t, ht, htransposed⟩ := exists_through_transpose h
  obtain ⟨-, -, -, hs⟩ := isTensor_of_through h
  exact ⟨t, ht, fun xq yq ↦ ⟨htransposed.evalWith_eq hs hermite hermite _ _ xq yq,
    htransposed.evalWith_eq hs hermite hermiteSlope _ _ xq yq,
    htransposed.evalWith_eq hs hermiteSlope hermite _ _ xq yq⟩⟩

/-- A spline at unevenly spaced knots, three along one axis and two along the other, within a cell
and beyond the rectangle of knots. -/
theorem through_uneven_transpose : ∃ s t,
    through #[(0 : ℚ), 1, 3] #[0, 2] ⟨2, 3, #[1, 2, 5, 0, 4, 1], rfl⟩ = .ok s ∧
    through #[(0 : ℚ), 2] #[0, 1, 3] ⟨3, 2, #[1, 0, 2, 4, 5, 1], rfl⟩ = .ok t ∧
    t.value 1 (3 / 2) = s.value (3 / 2) 1 ∧ t.derivativeX 1 (3 / 2) = s.derivativeY (3 / 2) 1 ∧
    t.derivativeY 5 (3 / 2) = s.derivativeX (3 / 2) 5 := by
  obtain ⟨s, hs⟩ := Outcome.exists_of_isOk (a := through #[(0 : ℚ), 1, 3] #[0, 2]
    ⟨2, 3, #[1, 2, 5, 0, 4, 1], rfl⟩) (by decide +kernel)
  obtain ⟨t, ht, hqueries⟩ := through_transpose hs
  exact ⟨s, t, hs, ht, (hqueries _ _).1, (hqueries _ _).2.1, (hqueries _ _).2.2⟩

end Queries

end BicubicSpline

end PlasmaField
