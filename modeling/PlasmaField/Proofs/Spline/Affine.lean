import Mathlib
import PlasmaField.Proofs.Spline.Tensor

/-!
# Splines through scaled and shifted values

The slopes of a natural spline are determined by the values and are linear in them, and a constant
has none. A bicubic spline through the values `c · f + b` therefore has the value `c · s + b` and
the derivatives `c · ∂s` at every query, where `s` is the spline through `f`: `through_affine`.
-/

namespace PlasmaField

open Scalar (nth)
open scoped Exact

variable {K : Type} [Field K] [LinearOrder K] [FloorRing K]

namespace Table

/-- Inside the block a function is applied to every entry. -/
theorem get_map (f : K → K) (t : Table K) {i j : ℕ} (hi : i < t.rows) (hj : j < t.cols) :
    (t.map f).get i j = f (t.get i j) := by
  have hplace : i * t.cols + j < t.data.size := t.size_eq ▸ place_lt hi hj
  simp [get, map, hi, hj, hplace]

/-- Tables are equal when their entries are. -/
theorem ofFn_congr {α : Type} {rows cols : ℕ} {f g : ℕ → ℕ → α}
    (h : ∀ i < rows, ∀ j < cols, f i j = g i j) : ofFn rows cols f = ofFn rows cols g := by
  have hentries : (fun k : Fin (rows * cols) ↦ f (k / cols) (k % cols)) =
      fun k : Fin (rows * cols) ↦ g (k / cols) (k % cols) := by
    funext k
    have hcols : 0 < cols := Nat.pos_of_mul_pos_left (Nat.zero_lt_of_lt k.isLt)
    exact h _ (Nat.div_lt_of_lt_mul (k.isLt.trans_eq (Nat.mul_comm rows cols))) _
      (Nat.mod_lt _ hcols)
  unfold ofFn
  simp only [hentries]

end Table

namespace Spline

/-- A constant has no slope. -/
theorem isSlope_const (x : Array K) (c : K) : IsSlope x (fun _ ↦ c) fun _ ↦ 0 := by
  have hsecant : ∀ i, secant x (fun _ ↦ c) i = 0 := fun i ↦ by simp [secant]
  refine ⟨fun _ ↦ 0, ⟨rfl, rfl, fun i _ ↦ ?_⟩, fun i _ ↦ ?_⟩
  · simp [hsecant]
  · simp [leftSlope, rightSlope, hsecant]

variable [IsStrictOrderedRing K]

/-- Values have one slope at every knot. -/
theorem IsSlope.unique {x : Array K} (hn : 2 ≤ x.size) (hc : ∀ z, ∃ m, curvatures x z = .ok m)
    {y d e : ℕ → K} (hd : IsSlope x y d) (he : IsSlope x y e) {i : ℕ} (hi : i < x.size) :
    d i = e i := by
  have hy : ∀ k < x.size, y k = nth (Array.ofFn fun k : Fin x.size ↦ y k) k := fun k hk ↦
    (Exact.nth_ofFn (fun k : Fin x.size ↦ y k) hk).symm
  obtain ⟨m, hm⟩ := hc (Array.ofFn fun k : Fin x.size ↦ y k)
  have hends {k : ℕ} := (hd.congr hy fun _ _ ↦ rfl).ends hn hm (i := k)
  have hends' {k : ℕ} := (he.congr hy fun _ _ ↦ rfl).ends hn hm (i := k)
  by_cases hlast : i + 1 < x.size
  · rw [(hends hlast).1, (hends' hlast).1]
  · obtain ⟨j, rfl⟩ : ∃ j, i = j + 1 := ⟨i - 1, by omega⟩
    rw [(hends hi).2, (hends' hi).2]

/-- The slopes of scaled and shifted values are the scaled slopes. -/
theorem IsSlope.affine {x : Array K} (hn : 2 ≤ x.size) (hc : ∀ z, ∃ m, curvatures x z = .ok m)
    {y z d e : ℕ → K} {c b : K} (hd : IsSlope x y d) (he : IsSlope x z e)
    (hz : ∀ i < x.size, z i = c * y i + b) {i : ℕ} (hi : i < x.size) : e i = c * d i := by
  have hscaled := (hd.smul c).add (isSlope_const x b)
  rw [(he.congr hz fun _ _ ↦ rfl).unique hn hc hscaled hi, add_zero]

end Spline

namespace BicubicSpline

/-- The tables of `t` are those of `s` scaled by `c`, with values shifted by `b`. -/
structure IsAffine (c b : K) (s t : BicubicSpline K) : Prop where
  x_eq : t.x = s.x
  y_eq : t.y = s.y
  f_eq : ∀ j < s.y.size, ∀ i < s.x.size, t.f.get j i = c * s.f.get j i + b
  fx_eq : ∀ j < s.y.size, ∀ i < s.x.size, t.fx.get j i = c * s.fx.get j i
  fy_eq : ∀ j < s.y.size, ∀ i < s.x.size, t.fy.get j i = c * s.fy.get j i
  fxy_eq : ∀ j < s.y.size, ∀ i < s.x.size, t.fxy.get j i = c * s.fxy.get j i

/-- Along `x` the system for the curvatures can be solved for all values. -/
theorem IsTensor.exists_curvatures_x {s : BicubicSpline K} (hs : s.IsTensor) (z : Array K) :
    ∃ m, Spline.curvatures s.x z = .ok m := by
  obtain ⟨m, hm⟩ := hs.row_curvatures 0 (by have := hs.two_le_y; omega)
  exact Spline.curvatures_of_curvatures hm hs.two_le_x z

section Ordered

variable [IsStrictOrderedRing K]

/-- There is a spline through scaled and shifted values, and its tables are scaled and shifted. -/
theorem exists_through_affine {x y : Array K} {f : Table K} {s : BicubicSpline K}
    (h : through x y f = .ok s) (c b : K) :
    ∃ t, through x y (f.map fun v ↦ c * v + b) = .ok t ∧ IsAffine c b s t := by
  obtain ⟨rfl, rfl, rfl, hs⟩ := isTensor_of_through h
  obtain ⟨t, ht⟩ := exists_through (f := s.f.map fun v ↦ c * v + b)
    ⟨hs.two_le_x, hs.increasing_x⟩ ⟨hs.two_le_y, hs.increasing_y⟩ hs.cols hs.rows
    hs.exists_curvatures_x hs.col_curvatures
  refine ⟨t, ht, ?_⟩
  obtain ⟨hx, hy, hf, ht⟩ := isTensor_of_through ht
  have hvalue : ∀ j < s.y.size, ∀ i < s.x.size, t.f.get j i = c * s.f.get j i + b := by
    intro j hj i hi
    rw [hf, Table.get_map _ _ (hs.rows ▸ hj) (hs.cols ▸ hi)]
  have hrow := hx ▸ hy ▸ ht.row_slopes
  have hcol := hx ▸ hy ▸ ht.col_slopes
  have hmixed := hx ▸ hy ▸ ht.mixed_slopes
  have hslope : ∀ j < s.y.size, ∀ i < s.x.size, t.fx.get j i = c * s.fx.get j i :=
    fun j hj i hi ↦ (hs.row_slopes j hj).affine hs.two_le_x hs.exists_curvatures_x (hrow j hj)
      (hvalue j hj) hi
  refine ⟨hx, hy, hvalue, hslope, fun j hj i hi ↦ ?_, fun j hj i hi ↦ ?_⟩
  · exact (hs.col_slopes i hi).affine hs.two_le_y hs.col_curvatures (hcol i hi)
      (fun j hj ↦ hvalue j hj i hi) hj
  · exact (hs.mixed_slopes i hi).affine hs.two_le_y hs.col_curvatures (b := 0) (hmixed i hi)
      (fun j hj ↦ by rw [hslope j hj i hi, add_zero]) hj

end Ordered

/-- A patch of the scaled tables is the scaled patch, shifted by the weights of the values. -/
theorem IsAffine.patch_eq {c b : K} {s t : BicubicSpline K} (h : IsAffine c b s t) {i j : ℕ}
    (hi : i + 1 < s.x.size) (hj : j + 1 < s.y.size) (wx wy : Weights K) (hx hy : K) :
    t.patch i j wx wy hx hy = c * s.patch i j wx wy hx hy +
      b * ((wx.value₀ + wx.value₁) * (wy.value₀ + wy.value₁)) := by
  have hi' : i < s.x.size := Nat.lt_of_succ_lt hi
  have hj' : j < s.y.size := Nat.lt_of_succ_lt hj
  unfold patch corner
  rw [Exact.literal_zero,
    h.f_eq j hj' i hi', h.f_eq j hj' _ hi, h.f_eq _ hj i hi', h.f_eq _ hj _ hi,
    h.fx_eq j hj' i hi', h.fx_eq j hj' _ hi, h.fx_eq _ hj i hi', h.fx_eq _ hj _ hi,
    h.fy_eq j hj' i hi', h.fy_eq j hj' _ hi, h.fy_eq _ hj i hi', h.fy_eq _ hj _ hi,
    h.fxy_eq j hj' i hi', h.fxy_eq j hj' _ hi, h.fxy_eq _ hj i hi', h.fxy_eq _ hj _ hi]
  ring

/-- The Hermite weights of the values add up to one. -/
theorem hermite_value_sum [CharZero K] (t : K) : (hermite t).value₀ + (hermite t).value₁ = 1 := by
  rw [CubicSpline.hermite_eq]
  ring

/-- The derivatives of the Hermite weights of the values cancel. -/
theorem hermiteSlope_value_sum [CharZero K] (t : K) :
    (hermiteSlope t).value₀ + (hermiteSlope t).value₁ = 0 := by
  rw [CubicSpline.hermiteSlope_eq]
  ring

/-- A query of the scaled tables is the scaled query, with a shift that the weights decide. -/
theorem IsAffine.evalWith_eq {c b : K} {s t : BicubicSpline K} (h : IsAffine c b s t)
    (hs : s.IsTensor) {weightsX weightsY : K → Weights K} {scaleX scaleY : K → K} (shift : K)
    (hshift : ∀ u v hx hy, b * (((weightsX u).value₀ + (weightsX u).value₁) *
      ((weightsY v).value₀ + (weightsY v).value₁)) * scaleX hx * scaleY hy = shift) (xq yq : K) :
    t.evalWith weightsX weightsY scaleX scaleY xq yq =
      c * s.evalWith weightsX weightsY scaleX scaleY xq yq + shift := by
  obtain ⟨hi, hj⟩ := hs.cell_lt xq yq
  unfold evalWith
  rw [h.x_eq, h.y_eq]
  dsimp only
  rw [h.patch_eq hi hj, add_mul, add_mul, hshift, mul_assoc, mul_assoc, mul_assoc]

section Queries

variable [IsStrictOrderedRing K]

/-- Through scaled and shifted values there is a spline. Its value is scaled and shifted, and its
derivatives are scaled. -/
theorem through_affine {x y : Array K} {f : Table K} {s : BicubicSpline K}
    (h : through x y f = .ok s) (c b : K) :
    ∃ t, through x y (f.map fun v ↦ c * v + b) = .ok t ∧ ∀ xq yq,
      t.value xq yq = c * s.value xq yq + b ∧
      t.derivativeX xq yq = c * s.derivativeX xq yq ∧
      t.derivativeY xq yq = c * s.derivativeY xq yq := by
  obtain ⟨t, ht, haffine⟩ := exists_through_affine h c b
  obtain ⟨-, -, -, hs⟩ := isTensor_of_through h
  refine ⟨t, ht, fun xq yq ↦ ⟨?_, ?_, ?_⟩⟩
  · refine haffine.evalWith_eq hs b (fun u v hx hy ↦ ?_) xq yq
    rw [hermite_value_sum, hermite_value_sum, Exact.literal_one]
    ring
  · refine (haffine.evalWith_eq hs 0 (fun u v hx hy ↦ ?_) xq yq).trans (add_zero _)
    rw [hermiteSlope_value_sum]
    ring
  · refine (haffine.evalWith_eq hs 0 (fun u v hx hy ↦ ?_) xq yq).trans (add_zero _)
    rw [hermiteSlope_value_sum]
    ring

end Queries

end BicubicSpline

end PlasmaField
