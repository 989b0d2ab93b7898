import Mathlib
import PlasmaField.Proofs.Outcome
import PlasmaField.Proofs.Spline.Pieces

/-!
# Bicubic splines as splines of splines

Over exact scalars a bicubic spline is the tensor product of natural splines. `nested` takes the
spline through each row, reads a number from it, and puts a spline through these numbers. The patch
of a cell is a cubic in each direction, and slopes are linear in the values, so the slopes of the
outer spline are combinations of the tables of slopes, `nested_isSlope`. The patch therefore has the
value and the derivatives of the outer spline, `through_eq_nested`.
-/

namespace PlasmaField.BicubicSpline

open Outcome (bind_eq_ok_iff guard_eq_ok_iff)
open Scalar (nth)
open Spline (Increasing IsSlope gap interval curvatures)
open CubicSpline (hermiteSum)
open scoped Exact

variable {K : Type} [Field K] [LinearOrder K] [FloorRing K]

/-- The spline along `y` through what `read` takes from the spline along `x` through each row. -/
def nested (read : CubicSpline K → K) (x y : Array K) (f : Table K) :
    Except (FieldError K) (CubicSpline K) := do
  let rows ← (List.range f.rows).mapM fun j ↦ CubicSpline.through x (f.row j)
  CubicSpline.through y (rows.map read).toArray

/-- Reading a row reads the table. -/
theorem nth_row (t : Table K) (j i : ℕ) : nth (t.row j) i = t.get j i := by
  by_cases hi : i < t.cols
  · rw [Table.row, Exact.nth_ofFn _ hi]
  · simp [Exact.nth_eq_getD, Table.row, Table.get, hi]

/-- Reading a column reads the table. -/
theorem nth_col (t : Table K) (i j : ℕ) : nth (t.col i) j = t.get j i := by
  by_cases hj : j < t.rows
  · rw [Table.col, Exact.nth_ofFn _ hj]
  · simp [Exact.nth_eq_getD, Table.col, Table.get, hj]

section Ordered

variable [IsStrictOrderedRing K]

/-- A table of slopes along the rows holds the slopes of every row. -/
theorem isSlope_of_rowSlopes {x : Array K} {t r : Table K} (hn : 2 ≤ x.size)
    (hcols : t.cols = x.size) (h : rowSlopes x t = .ok r) :
    r.rows = t.rows ∧ r.cols = t.cols ∧ ∀ j < t.rows,
      (∃ m, curvatures x (t.row j) = .ok m) ∧ IsSlope x (t.get j) (r.get j) := by
  obtain ⟨slopes, hslopes, h⟩ := bind_eq_ok_iff.mp h
  cases h
  refine ⟨rfl, rfl, fun j hj ↦ ?_⟩
  have hrow := Outcome.getD_of_mapM_range hslopes #[] hj
  obtain ⟨m, hm, -⟩ := Spline.slope_of_slopes hn hrow
  refine ⟨⟨m, hm⟩, (Spline.isSlope_of_slopes hn hrow).congr (fun i _ ↦ nth_row t j i)
    fun i hi ↦ ?_⟩
  rw [Table.get_ofFn _ hj (by omega)]

/-- A table of slopes along the columns holds the slopes of every column. -/
theorem isSlope_of_colSlopes {y : Array K} {t r : Table K} (hn : 2 ≤ y.size)
    (hrows : t.rows = y.size) (h : colSlopes y t = .ok r) : ∀ i < t.cols,
      (∃ m, curvatures y (t.col i) = .ok m) ∧
        IsSlope y (fun j ↦ t.get j i) (fun j ↦ r.get j i) := by
  obtain ⟨slopes, hslopes, h⟩ := bind_eq_ok_iff.mp h
  cases h
  intro i hi
  have hcol := Outcome.getD_of_mapM_range hslopes #[] hi
  obtain ⟨m, hm, -⟩ := Spline.slope_of_slopes hn hcol
  refine ⟨⟨m, hm⟩, (Spline.isSlope_of_slopes hn hcol).congr (fun j _ ↦ nth_col t i j)
    fun j hj ↦ ?_⟩
  rw [Table.get_ofFn _ (by omega) hi]

/-- The tables of a bicubic spline hold the slopes of its rows, those of its columns, and the slopes
along the columns of the slopes along the rows. -/
structure IsTensor (s : BicubicSpline K) : Prop where
  two_le_x : 2 ≤ s.x.size
  two_le_y : 2 ≤ s.y.size
  increasing_x : Increasing s.x
  increasing_y : Increasing s.y
  cols : s.f.cols = s.x.size
  rows : s.f.rows = s.y.size
  row_curvatures : ∀ j < s.y.size, ∃ m, curvatures s.x (s.f.row j) = .ok m
  row_slopes : ∀ j < s.y.size, IsSlope s.x (s.f.get j) (s.fx.get j)
  col_curvatures : ∀ z, ∃ m, curvatures s.y z = .ok m
  col_slopes : ∀ i < s.x.size, IsSlope s.y (fun j ↦ s.f.get j i) (fun j ↦ s.fy.get j i)
  mixed_slopes : ∀ i < s.x.size, IsSlope s.y (fun j ↦ s.fx.get j i) (fun j ↦ s.fxy.get j i)

omit [IsStrictOrderedRing K] in
/-- A bicubic spline is built from increasing knots along both axes, a table of values of their
numbers, and the tables of slopes. -/
theorem parts_of_through {x y : Array K} {f : Table K} {s : BicubicSpline K}
    (h : through x y f = .ok s) : (2 ≤ x.size ∧ Increasing x) ∧ (2 ≤ y.size ∧ Increasing y) ∧
      f.cols = x.size ∧ f.rows = y.size ∧ ∃ fx fy fxy, rowSlopes x f = .ok fx ∧
        colSlopes y f = .ok fy ∧ colSlopes y fx = .ok fxy ∧ s = ⟨x, y, f, fx, fy, fxy⟩ := by
  unfold through at h
  obtain ⟨_, hx, h⟩ := bind_eq_ok_iff.mp h
  obtain ⟨_, hy, h⟩ := bind_eq_ok_iff.mp h
  obtain ⟨hsize, h⟩ := guard_eq_ok_iff.mp h
  obtain ⟨-, h⟩ := guard_eq_ok_iff.mp h
  obtain ⟨fx, hfx, h⟩ := bind_eq_ok_iff.mp h
  obtain ⟨fy, hfy, h⟩ := bind_eq_ok_iff.mp h
  obtain ⟨fxy, hfxy, h⟩ := bind_eq_ok_iff.mp h
  cases h
  obtain ⟨hcols, hrows⟩ : f.cols = x.size ∧ f.rows = y.size := by simpa using hsize
  exact ⟨(Spline.checkKnots_eq_ok_iff .first x).mp hx,
    (Spline.checkKnots_eq_ok_iff .second y).mp hy, hcols, hrows, fx, fy, fxy, hfx, hfy, hfxy, rfl⟩

omit [IsStrictOrderedRing K] in
/-- A bicubic spline is built if the systems for the curvatures along both axes can be solved. -/
theorem exists_through {x y : Array K} {f : Table K} (hx : 2 ≤ x.size ∧ Increasing x)
    (hy : 2 ≤ y.size ∧ Increasing y) (hcols : f.cols = x.size) (hrows : f.rows = y.size)
    (hcx : ∀ z, ∃ m, curvatures x z = .ok m) (hcy : ∀ z, ∃ m, curvatures y z = .ok m) :
    ∃ s, through x y f = .ok s := by
  choose dx hdx using Spline.exists_slopes hx.1 hcx
  choose dy hdy using Spline.exists_slopes hy.1 hcy
  have hrow : ∀ t : Table K, ∃ r, rowSlopes x t = .ok r := fun t ↦
    ⟨_, bind_eq_ok_iff.mpr ⟨_, Outcome.mapM_eq_map fun i _ ↦ hdx (t.row i), rfl⟩⟩
  have hcol : ∀ t : Table K, ∃ r, colSlopes y t = .ok r := fun t ↦
    ⟨_, bind_eq_ok_iff.mpr ⟨_, Outcome.mapM_eq_map fun j _ ↦ hdy (t.col j), rfl⟩⟩
  obtain ⟨fx, hfx⟩ := hrow f
  obtain ⟨fy, hfy⟩ := hcol f
  obtain ⟨fxy, hfxy⟩ := hcol fx
  refine ⟨⟨x, y, f, fx, fy, fxy⟩, ?_⟩
  refine bind_eq_ok_iff.mpr ⟨(), (Spline.checkKnots_eq_ok_iff .first x).mpr hx, ?_⟩
  refine bind_eq_ok_iff.mpr ⟨(), (Spline.checkKnots_eq_ok_iff .second y).mpr hy, ?_⟩
  refine guard_eq_ok_iff.mpr ⟨by simp [hcols, hrows], ?_⟩
  refine guard_eq_ok_iff.mpr ⟨by simp, ?_⟩
  refine bind_eq_ok_iff.mpr ⟨fx, hfx, ?_⟩
  refine bind_eq_ok_iff.mpr ⟨fy, hfy, ?_⟩
  exact bind_eq_ok_iff.mpr ⟨fxy, hfxy, rfl⟩

/-- A bicubic spline that is built has the slopes of its values in its tables. -/
theorem isTensor_of_through {x y : Array K} {f : Table K} {s : BicubicSpline K}
    (h : through x y f = .ok s) : s.x = x ∧ s.y = y ∧ s.f = f ∧ IsTensor s := by
  obtain ⟨⟨hn, hx⟩, ⟨hn', hy⟩, hcols, hrows, fx, fy, fxy, hfx, hfy, hfxy, rfl⟩ :=
    parts_of_through h
  obtain ⟨hfxrows, hfxcols, hrow⟩ := isSlope_of_rowSlopes hn hcols hfx
  have hcol := isSlope_of_colSlopes hn' hrows hfy
  have hmixed := isSlope_of_colSlopes hn' (hfxrows.trans hrows) hfxy
  refine ⟨rfl, rfl, rfl, hn, hn', hx, hy, hcols, hrows, fun j hj ↦ (hrow j (hrows ▸ hj)).1,
    fun j hj ↦ (hrow j (hrows ▸ hj)).2, fun z ↦ ?_, fun i hi ↦ (hcol i (hcols ▸ hi)).2,
    fun i hi ↦ (hmixed i (hfxcols ▸ hcols ▸ hi)).2⟩
  obtain ⟨m, hm⟩ := (hcol 0 (by omega)).1
  exact Spline.curvatures_of_curvatures hm hn' z

end Ordered

/-! ## A cell as a cubic of cubics -/

/-- The cubic along `x` through row `j` on knot interval `i`, by its weights. -/
def across (s : BicubicSpline K) (i : ℕ) (w : Weights K) (j : ℕ) : K :=
  hermiteSum w (gap s.x i) (s.f.get j i) (s.fx.get j i) (s.f.get j (i + 1)) (s.fx.get j (i + 1))

/-- The slope along `y` of the cubics along `x`. -/
def acrossSlope (s : BicubicSpline K) (i : ℕ) (w : Weights K) (j : ℕ) : K :=
  hermiteSum w (gap s.x i) (s.fy.get j i) (s.fxy.get j i) (s.fy.get j (i + 1))
    (s.fxy.get j (i + 1))

omit [LinearOrder K] [FloorRing K] in
/-- A cubic is scaled by scaling the values and slopes at its ends. -/
theorem hermiteSum_mul (w : Weights K) (c h y₀ d₀ y₁ d₁ : K) :
    hermiteSum w h (c * y₀) (c * d₀) (c * y₁) (c * d₁) = hermiteSum w h y₀ d₀ y₁ d₁ * c := by
  unfold hermiteSum
  ring

/-- A patch is the cubic along `y` through cubics along `x`. -/
theorem patch_eq (s : BicubicSpline K) (i j : ℕ) (wx wy : Weights K) :
    s.patch i j wx wy (gap s.x i) (gap s.y j) = hermiteSum wy (gap s.y j)
      (s.across i wx j) (s.acrossSlope i wx j)
      (s.across i wx (j + 1)) (s.acrossSlope i wx (j + 1)) := by
  unfold patch corner across acrossSlope hermiteSum
  rw [Exact.literal_zero]
  ring

/-- The cubics along `x` have the slopes `acrossSlope` along `y`. -/
theorem IsTensor.isSlope_across {s : BicubicSpline K} (hs : s.IsTensor) {i : ℕ}
    (hi : i + 1 < s.x.size) (w : Weights K) : IsSlope s.y (s.across i w) (s.acrossSlope i w) := by
  have hleft := (hs.col_slopes i (by omega)).smul w.value₀
  have hleft' := (hs.mixed_slopes i (by omega)).smul (w.slope₀ * gap s.x i)
  have hright := (hs.col_slopes (i + 1) hi).smul w.value₁
  have hright' := (hs.mixed_slopes (i + 1) hi).smul (w.slope₁ * gap s.x i)
  refine (((hleft.add hleft').add hright).add hright').congr (fun j _ ↦ ?_) (fun j _ ↦ ?_)
  · unfold across hermiteSum
    ring
  · unfold acrossSlope hermiteSum
    ring

/-- Reading a spline takes the same combination of the values and slopes at the ends of knot
interval `i` from every spline with the given knots. -/
def ReadsInterval (read : CubicSpline K → K) (x : Array K) (i : ℕ) (w : Weights K) (c : K) : Prop :=
  ∀ (t : CubicSpline K) (d : ℕ → K), t.x = x → curvatures t.x t.y = .ok t.m →
    IsSlope t.x (nth t.y) d →
    read t = hermiteSum w (gap x i) (nth t.y i) (d i) (nth t.y (i + 1)) (d (i + 1)) * c

/-- The spline through what is read from the rows succeeds, and has multiples of the cubics along
`x` as its values and multiples of their slopes along `y` as its slopes. -/
theorem IsTensor.nested_isSlope {s : BicubicSpline K} (hs : s.IsTensor)
    {read : CubicSpline K → K} {i : ℕ} {w : Weights K} {c : K} (hi : i + 1 < s.x.size)
    (hread : ReadsInterval read s.x i w c) :
    ∃ v, nested read s.x s.y s.f = .ok v ∧ v.x = s.y ∧ curvatures v.x v.y = .ok v.m ∧
      (∀ j < s.y.size, nth v.y j = c * s.across i w j) ∧
      IsSlope v.x (nth v.y) (fun j ↦ c * s.acrossSlope i w j) := by
  -- the rows are splined again, which gives back the splines that the slopes were taken from
  choose! m hm using hs.row_curvatures
  have hrow : ∀ j < s.y.size,
      CubicSpline.through s.x (s.f.row j) = .ok ⟨s.x, s.f.row j, m j⟩ := fun j hj ↦
    (CubicSpline.through_eq_ok_iff _ _ _).mpr ⟨hs.two_le_x, hs.increasing_x,
      by simp [Table.row, hs.cols], m j, hm j hj, rfl⟩
  have hvalue : ∀ j < s.y.size, read ⟨s.x, s.f.row j, m j⟩ = c * s.across i w j := by
    intro j hj
    have hslope : IsSlope s.x (nth (s.f.row j)) (s.fx.get j) :=
      (hs.row_slopes j hj).congr (fun i _ ↦ (nth_row s.f j i).symm) fun _ _ ↦ rfl
    rw [hread ⟨s.x, s.f.row j, m j⟩ (s.fx.get j) rfl (hm j hj) hslope, nth_row, nth_row, mul_comm]
    rfl
  set z := (((List.range s.f.rows).map fun j ↦ (⟨s.x, s.f.row j, m j⟩ : CubicSpline K)).map
    read).toArray
  have hentry : ∀ j < s.y.size, nth z j = c * s.across i w j := by
    intro j hj
    rw [← hvalue j hj, Exact.nth_eq_getD]
    simp [z, hs.rows, hj]
  obtain ⟨k, hk⟩ := hs.col_curvatures z
  refine ⟨⟨s.y, z, k⟩, ?_, rfl, hk, hentry,
    ((hs.isSlope_across hi w).smul c).congr (fun j hj ↦ (hentry j hj).symm) fun _ _ ↦ rfl⟩
  refine bind_eq_ok_iff.mpr ⟨_, Outcome.mapM_eq_map fun j hj ↦
    hrow j (hs.rows ▸ List.mem_range.mp hj), ?_⟩
  exact (CubicSpline.through_eq_ok_iff _ _ _).mpr ⟨hs.two_le_y, hs.increasing_y,
    by simp [hs.rows], k, hk, rfl⟩

/-! ## Reading a row -/

section Reading

variable [IsStrictOrderedRing K]

/-- The value at a query reads the knot interval of the clamped query. -/
theorem readsInterval_eval {x : Array K} (hn : 2 ≤ x.size) (hx : Increasing x) (v : K) {p : K}
    (hp : Scalar.clamp (nth x 0) (nth x (x.size - 1)) v = p) :
    ReadsInterval (·.eval v) x (interval x p)
      (hermite ((p - nth x (interval x p)) / gap x (interval x p))) 1 := by
  rintro t d rfl hm hd
  obtain ⟨hfirst, hlast⟩ := hx.clamp_mem (Nat.zero_lt_of_lt hn) v
  rw [hp] at hfirst hlast
  obtain ⟨hi, hleft, hright⟩ := Spline.mem_interval hn hfirst hlast
  rw [mul_one, ← CubicSpline.eval_eq_hermite hx hm hd hi hleft hright, ← hp]
  exact (CubicSpline.eval_clamp hx (by omega) v).symm

/-- The slope at a query between the knots reads the query's knot interval. -/
theorem readsInterval_derivative {x : Array K} (hx : Increasing x) {p : K}
    (hn : 2 ≤ x.size) (hp : p ∈ Set.Icc (nth x 0) (nth x (x.size - 1))) :
    ReadsInterval (·.derivative p) x (interval x p)
      (hermiteSlope ((p - nth x (interval x p)) / gap x (interval x p)))
      (1 / gap x (interval x p)) := by
  rintro t d rfl hm hd
  obtain ⟨hi, hleft, hright⟩ := Spline.mem_interval hn hp.1 hp.2
  exact CubicSpline.derivative_eq_hermite hx hm hd hi hleft hright

omit [IsStrictOrderedRing K] in
/-- The cell that holds a query, moved into the rectangle of knots, has its four corners among the
knots. -/
theorem IsTensor.cell_lt {s : BicubicSpline K} (hs : s.IsTensor) (xq yq : K) :
    interval s.x (Scalar.clamp (nth s.x 0) (nth s.x (s.x.size - 1)) xq) + 1 < s.x.size ∧
      interval s.y (Scalar.clamp (nth s.y 0) (nth s.y (s.y.size - 1)) yq) + 1 < s.y.size := by
  obtain ⟨hleft, hright⟩ := hs.increasing_x.clamp_mem (Nat.zero_lt_of_lt hs.two_le_x) xq
  obtain ⟨hbelow, habove⟩ := hs.increasing_y.clamp_mem (Nat.zero_lt_of_lt hs.two_le_y) yq
  exact ⟨(Spline.mem_interval hs.two_le_x hleft hright).1,
    (Spline.mem_interval hs.two_le_y hbelow habove).1⟩

/-- The patch that holds a query has the value and the slope of the spline through what is read from
the rows. -/
theorem IsTensor.evalWith_eq_nested {s : BicubicSpline K} (hs : s.IsTensor)
    {read : CubicSpline K → K} (weights : K → Weights K) (scale : K → K) {xq : K} (yq : K) {p : K}
    (hp : Scalar.clamp (nth s.x 0) (nth s.x (s.x.size - 1)) xq = p)
    (hread : ReadsInterval read s.x (interval s.x p)
      (weights ((p - nth s.x (interval s.x p)) / gap s.x (interval s.x p)))
      (scale (gap s.x (interval s.x p)))) :
    ∃ v, nested read s.x s.y s.f = .ok v ∧
      s.evalWith weights hermite scale (fun _ ↦ 1) xq yq = v.eval yq ∧
      (yq ∈ Set.Icc (nth s.y 0) (nth s.y (s.y.size - 1)) →
        s.evalWith weights hermiteSlope scale (fun hy ↦ 1 / hy) xq yq = v.derivative yq) := by
  subst hp
  obtain ⟨hi, hj⟩ := hs.cell_lt xq yq
  obtain ⟨⟨_, z, k⟩, hnested, rfl, hm, hvalue, hslope⟩ := hs.nested_isSlope hi hread
  refine ⟨_, hnested, ?_, fun hq ↦ ?_⟩
  · have heval := readsInterval_eval hs.two_le_y hs.increasing_y yq rfl _ _ rfl hm hslope
    rw [hvalue _ (by omega), hvalue _ hj, hermiteSum_mul, ← patch_eq] at heval
    exact heval.symm
  · have hderivative := readsInterval_derivative hs.increasing_y hs.two_le_y hq _ _ rfl hm hslope
    obtain ⟨hj, -⟩ := Spline.mem_interval hs.two_le_y hq.1 hq.2
    rw [hvalue _ (by omega), hvalue _ hj, hermiteSum_mul, ← patch_eq] at hderivative
    unfold evalWith
    rw [Exact.clamp_of_mem hq.1 hq.2]
    exact hderivative.symm

/-- A bicubic spline that is built has the values of the natural spline through the values of the
natural splines through the rows. In the rectangle of knots its derivative along `x` is the value of
the spline through the slopes of the rows, and its derivative along `y` is the slope of the spline
through their values. -/
theorem through_eq_nested {x y : Array K} {f : Table K} {s : BicubicSpline K}
    (h : through x y f = .ok s) (xq yq : K) :
    ∃ v, nested (·.eval xq) x y f = .ok v ∧ s.value xq yq = v.eval yq ∧
      (xq ∈ Set.Icc (nth x 0) (nth x (x.size - 1)) →
        yq ∈ Set.Icc (nth y 0) (nth y (y.size - 1)) →
        s.derivativeY xq yq = v.derivative yq ∧
        ∃ d, nested (·.derivative xq) x y f = .ok d ∧ s.derivativeX xq yq = d.eval yq) := by
  obtain ⟨rfl, rfl, rfl, hs⟩ := isTensor_of_through h
  obtain ⟨v, hv, hvalue, hslope⟩ := hs.evalWith_eq_nested hermite (fun _ ↦ 1) yq rfl
    (readsInterval_eval hs.two_le_x hs.increasing_x xq rfl)
  refine ⟨v, hv, ?_, fun hx hy ↦ ⟨?_, ?_⟩⟩
  · unfold value
    rw [Exact.literal_one]
    exact hvalue
  · unfold derivativeY
    rw [Exact.literal_one]
    exact hslope hy
  · obtain ⟨d, hd, hvalue, -⟩ := hs.evalWith_eq_nested hermiteSlope
      (fun hx ↦ 1 / hx) yq (Exact.clamp_of_mem hx.1 hx.2)
      (readsInterval_derivative hs.increasing_x hs.two_le_x hx)
    refine ⟨d, hd, ?_⟩
    unfold derivativeX
    rw [Exact.literal_one]
    exact hvalue

end Reading

/-- A bicubic spline at unevenly spaced knots, within a cell. -/
theorem through_three_eq_nested :
    ∃ s v d,
      through #[(0 : ℚ), 1, 3] #[0, 2, 3] ⟨3, 3, #[1, 2, 5, 0, 4, 1, 2, 2, 7], rfl⟩ = .ok s ∧
      nested (·.eval (3 / 2)) #[0, 1, 3] #[0, 2, 3]
        ⟨3, 3, #[1, 2, 5, 0, 4, 1, 2, 2, 7], rfl⟩ = .ok v ∧
      nested (·.derivative (3 / 2)) #[0, 1, 3] #[0, 2, 3]
        ⟨3, 3, #[1, 2, 5, 0, 4, 1, 2, 2, 7], rfl⟩ = .ok d ∧
      s.value (3 / 2) 1 = v.eval 1 ∧ s.derivativeX (3 / 2) 1 = d.eval 1 ∧
      s.derivativeY (3 / 2) 1 = v.derivative 1 := by
  obtain ⟨s, hs⟩ := Outcome.exists_of_isOk (a := through #[(0 : ℚ), 1, 3] #[0, 2, 3]
    ⟨3, 3, #[1, 2, 5, 0, 4, 1, 2, 2, 7], rfl⟩) (by decide +kernel)
  obtain ⟨v, hv, hvalue, hslopes⟩ := through_eq_nested hs (3 / 2) 1
  obtain ⟨hslope, d, hd, hslope'⟩ := hslopes (by decide +kernel) (by decide +kernel)
  exact ⟨s, v, d, hs, hv, hd, hvalue, hslope', hslope⟩

end PlasmaField.BicubicSpline
