import Mathlib
import PlasmaField.Proofs.TridiagonalSolution
import PlasmaField.Proofs.Spline.Knots

/-!
# Curvatures and slopes of natural splines

The second derivatives of a natural spline at its knots vanish at both ends and satisfy one equation
at every knot between, `IsCurvature`. Over exact scalars `curvatures` returns the only such numbers.
They make the slopes of neighbouring intervals agree, so that `slopes` gives at every knot the slope
at the end of each interval that the knot belongs to. Curvatures and slopes are linear in the
values.
-/

namespace PlasmaField.Spline

open Scalar (nth)
open scoped Exact

variable {K : Type} [Field K] [LinearOrder K] [FloorRing K]

/-- The slope of the line through the values at the ends of knot interval `i`. -/
def secant (x : Array K) (y : ℕ → K) (i : ℕ) : K :=
  (y (i + 1) - y i) / gap x i

/-- The second derivatives `m` of the natural spline through the values `y`: zero at both ends, and
balanced at the knot between two intervals. -/
structure IsCurvature (x : Array K) (y m : ℕ → K) : Prop where
  first : m 0 = 0
  last : m (x.size - 1) = 0
  interior : ∀ i, i + 2 < x.size →
    gap x i * m i + 2 * (gap x i + gap x (i + 1)) * m (i + 1) + gap x (i + 1) * m (i + 2) =
      6 * (secant x y (i + 1) - secant x y i)

/-- Multiples of curvatures are curvatures of the multiples. -/
theorem IsCurvature.smul {x : Array K} {y m : ℕ → K} (h : IsCurvature x y m) (c : K) :
    IsCurvature x (fun i ↦ c * y i) (fun i ↦ c * m i) where
  first := by rw [h.first, mul_zero]
  last := by rw [h.last, mul_zero]
  interior i hi := by
    have hinterior := h.interior i hi
    unfold secant at hinterior ⊢
    linear_combination c * hinterior

/-- Sums of curvatures are curvatures of the sums. -/
theorem IsCurvature.add {x : Array K} {y m z k : ℕ → K} (h : IsCurvature x y m)
    (h' : IsCurvature x z k) : IsCurvature x (fun i ↦ y i + z i) (fun i ↦ m i + k i) where
  first := by rw [h.first, h'.first, add_zero]
  last := by rw [h.last, h'.last, add_zero]
  interior i hi := by
    have hinterior := h.interior i hi
    have hinterior' := h'.interior i hi
    unfold secant at hinterior hinterior' ⊢
    linear_combination hinterior + hinterior'

/-- The equations for the second derivatives at the interior knots. -/
def curvatureRows (x y : Array K) : List (Tridiagonal.Row K) :=
  (List.range (x.size - 2)).map fun i ↦ curvatureRow x y (i + 1)

/-- The equation at an interior knot by the intervals on its two sides. -/
theorem curvatureRow_eq (x y : Array K) (i : ℕ) :
    curvatureRow x y (i + 1) = ⟨gap x i, 2 * (gap x i + gap x (i + 1)), gap x (i + 1),
      6 * (secant x (nth y) (i + 1) - secant x (nth y) i)⟩ := by
  unfold curvatureRow
  simp only [Exact.literal_ofNat, Nat.add_sub_cancel]
  rfl

/-- Two knots have no curvature. -/
theorem curvatures_of_size_two {x : Array K} (hn : x.size = 2) (y : Array K) :
    curvatures x y = .ok (Array.replicate 2 0) := by
  unfold curvatures
  simp [hn]

/-- With three or more knots the curvatures at the interior knots are the values of the system. -/
theorem curvatures_eq_ok_iff {x : Array K} (hn : 3 ≤ x.size) (y m : Array K) :
    curvatures x y = .ok m ↔
      ∃ xs, Tridiagonal.solveRows (curvatureRows x y) = .ok xs ∧ m = (0 :: xs ++ [0]).toArray := by
  have hsolve : curvatures x y = (Tridiagonal.solveRows (curvatureRows x y)).map
      fun xs ↦ (0 :: xs ++ [0]).toArray := by
    unfold curvatures
    rw [if_neg (by omega), ← Exact.literal_zero]
    rfl
  rw [hsolve]
  cases Tridiagonal.solveRows (curvatureRows x y) with
  | error e => simp [Except.map]
  | ok xs => simp [Except.map, eq_comm]

/-- Numbers that vanish at both ends solve the system when they are balanced at every knot
between. -/
theorem solves_curvatureRows_iff {x : Array K} (hn : 3 ≤ x.size) (y : Array K) {m : ℕ → K}
    (hfirst : m 0 = 0) (hlast : m (x.size - 1) = 0) :
    Tridiagonal.Solves 0 (curvatureRows x y) ((List.range (x.size - 2)).map fun i ↦ m (i + 1)) ↔
      IsCurvature x (nth y) m := by
  -- the system leaves out the ends, which read as zeros beyond its rows
  have hentry : ∀ i, i + 1 < x.size →
      ((List.range (x.size - 2)).map fun i ↦ m (i + 1)).getD i 0 = m (i + 1) := by
    intro i hi
    rcases Nat.lt_or_ge i (x.size - 2) with h | h
    · simp [List.getD_eq_getElem?_getD, h]
    · have hlength : ((List.range (x.size - 2)).map fun i ↦ m (i + 1)).length ≤ i := by
        simp
        omega
      rw [List.getD_eq_default _ _ hlength, show i + 1 = x.size - 1 by omega, hlast]
  have hentry' : ∀ i, i < x.size →
      (0 :: (List.range (x.size - 2)).map fun i ↦ m (i + 1)).getD i 0 = m i := by
    intro i hi
    cases i with
    | zero => simpa using hfirst.symm
    | succ i => simpa using hentry i hi
  rw [Tridiagonal.solves_iff_getD]
  constructor
  · rintro ⟨-, hrows⟩
    refine ⟨hfirst, hlast, fun i hi ↦ ?_⟩
    have hrow := hrows i (by simp [curvatureRows]; omega)
    rw [hentry' i (by omega), hentry i (by omega), hentry (i + 1) (by omega)] at hrow
    simpa [curvatureRows, curvatureRow_eq] using hrow
  · intro h
    refine ⟨by simp [curvatureRows], fun i hi ↦ ?_⟩
    have hi' : i + 2 < x.size := by
      simp [curvatureRows] at hi
      omega
    rw [hentry' i (by omega), hentry i (by omega), hentry (i + 1) (by omega)]
    simpa [curvatureRows, curvatureRow_eq] using h.interior i hi'

section Ordered

variable [IsStrictOrderedRing K]

/-- The curvatures that are returned satisfy the equations. -/
theorem isCurvature_of_curvatures {x y m : Array K} (hn : 2 ≤ x.size)
    (h : curvatures x y = .ok m) : m.size = x.size ∧ IsCurvature x (nth y) (nth m) := by
  rcases hn.eq_or_lt with hn | hn
  · rw [curvatures_of_size_two hn.symm] at h
    cases h
    have hzero : ∀ i, nth (Array.replicate 2 (0 : K)) i = 0 := by
      intro i
      rw [Exact.nth_eq_getD, Array.getD_eq_getD_getElem?, Array.getElem?_replicate]
      split <;> rfl
    exact ⟨by simp [hn], hzero _, hzero _, fun i hi ↦ by omega⟩
  · obtain ⟨xs, hxs, rfl⟩ := (curvatures_eq_ok_iff hn y m).mp h
    have hsolves := (Tridiagonal.solves_iff_of_solveRows hxs xs).mpr rfl
    have hlength : xs.length = x.size - 2 := by
      simpa [curvatureRows] using ((Tridiagonal.solves_iff_getD ..).mp hsolves).1
    have hentries : (List.range (x.size - 2)).map
        (fun i ↦ nth (0 :: xs ++ [0]).toArray (i + 1)) = xs := by
      apply List.ext_getElem (by simp [hlength])
      intro i hi _
      have hi' : i < xs.length := by simpa [hlength] using hi
      simp [Exact.nth_eq_getD, List.getElem?_append_left hi', hi']
    have hlast : nth (0 :: xs ++ [0]).toArray (x.size - 1) = 0 := by
      rw [show x.size - 1 = xs.length + 1 by omega]
      simp [Exact.nth_eq_getD]
    refine ⟨by simp [hlength]; omega, ?_⟩
    rw [← solves_curvatureRows_iff hn y (by simp [Exact.nth_eq_getD]) hlast, hentries]
    exact hsolves

/-- Numbers that satisfy the equations are the curvatures that are returned. -/
theorem IsCurvature.eq {x y m : Array K} (hn : 2 ≤ x.size) (h : curvatures x y = .ok m)
    {k : ℕ → K} (hk : IsCurvature x (nth y) k) {i : ℕ} (hi : i < x.size) : k i = nth m i := by
  have hm := (isCurvature_of_curvatures hn h).2
  rcases hn.eq_or_lt with hn | hn
  · obtain rfl | rfl : i = 0 ∨ i = x.size - 1 := by omega
    · rw [hk.first, hm.first]
    · rw [hk.last, hm.last]
  · obtain ⟨xs, hxs, -⟩ := (curvatures_eq_ok_iff hn y m).mp h
    have hsame : (List.range (x.size - 2)).map (fun i ↦ k (i + 1)) =
        (List.range (x.size - 2)).map fun i ↦ nth m (i + 1) := by
      rw [(Tridiagonal.solves_iff_of_solveRows hxs _).mp
          ((solves_curvatureRows_iff hn y hk.first hk.last).mpr hk),
        (Tridiagonal.solves_iff_of_solveRows hxs _).mp
          ((solves_curvatureRows_iff hn y hm.first hm.last).mpr hm)]
    cases i with
    | zero => rw [hk.first, hm.first]
    | succ i =>
        rcases Nat.lt_or_ge i (x.size - 2) with hlt | hge
        · exact (List.map_inj_left.mp hsame) i (List.mem_range.mpr hlt)
        · rw [show i + 1 = x.size - 1 by omega, hk.last, hm.last]

omit [IsStrictOrderedRing K] in
/-- Whether there are curvatures does not depend on the values. -/
theorem curvatures_of_curvatures {x y m : Array K} (h : curvatures x y = .ok m)
    (hn : 2 ≤ x.size) (z : Array K) : ∃ k, curvatures x z = .ok k := by
  rcases hn.eq_or_lt with hn | hn
  · exact ⟨_, curvatures_of_size_two hn.symm z⟩
  · obtain ⟨xs, hxs, -⟩ := (curvatures_eq_ok_iff hn y m).mp h
    have hrows : (curvatureRows x y).map Tridiagonal.Row.coefficients =
        (curvatureRows x z).map Tridiagonal.Row.coefficients := by
      simp [curvatureRows, curvatureRow_eq, Tridiagonal.Row.coefficients]
    obtain ⟨ys, hys⟩ := Tridiagonal.solveRows_of_coefficients_eq hrows hxs
    exact ⟨_, (curvatures_eq_ok_iff hn z _).mpr ⟨ys, hys, rfl⟩⟩

/-- There are curvatures when no knot interval is shorter than the threshold for pivots. -/
theorem curvatures_of_gaps {x : Array K} (hn : 2 ≤ x.size)
    (hgap : ∀ i, i + 1 < x.size → Tridiagonal.pivotThreshold ≤ gap x i) (y : Array K) :
    ∃ m, curvatures x y = .ok m := by
  rcases hn.eq_or_lt with hn | hn
  · exact ⟨_, curvatures_of_size_two hn.symm y⟩
  · have hpos : ∀ i, i + 1 < x.size → 0 < gap x i := fun i hi ↦
      Tridiagonal.pivotThreshold_pos.trans_le (hgap i hi)
    have hdominant : Tridiagonal.Dominant (curvatureRows x y) := by
      apply Tridiagonal.Dominant.of_forall
      intro row hrow
      obtain ⟨i, hi, rfl⟩ := List.mem_map.mp hrow
      have hi : i < x.size - 2 := List.mem_range.mp hi
      have hleft := hpos i (by omega)
      have hright := hpos (i + 1) (by omega)
      have hthreshold := hgap i (by omega)
      rw [curvatureRow_eq]
      show |gap x i| + |gap x (i + 1)| + _ ≤ |2 * (gap x i + gap x (i + 1))|
      rw [abs_of_pos hleft, abs_of_pos hright, abs_of_pos (by linarith)]
      linarith
    obtain ⟨row, rows, hrows⟩ : ∃ row rows, curvatureRows x y = row :: rows :=
      List.exists_cons_of_length_pos (by simp [curvatureRows]; omega)
    rw [hrows] at hdominant
    obtain ⟨xs, hxs⟩ := Tridiagonal.solveRows_of_dominant hdominant
    exact ⟨_, (curvatures_eq_ok_iff hn y _).mpr ⟨xs, hrows ▸ hxs, rfl⟩⟩

end Ordered

/-! ## Slopes -/

/-- The slope of the spline at the left end of knot interval `i`. -/
def leftSlope (x : Array K) (y m : ℕ → K) (i : ℕ) : K :=
  secant x y i - gap x i * (2 * m i + m (i + 1)) / 6

/-- The slope of the spline at the right end of knot interval `i`. -/
def rightSlope (x : Array K) (y m : ℕ → K) (i : ℕ) : K :=
  secant x y i + gap x i * (m i + 2 * m (i + 1)) / 6

/-- The equation at a knot makes the slopes on its two sides agree. -/
theorem IsCurvature.rightSlope_eq [CharZero K] {x : Array K} {y m : ℕ → K}
    (h : IsCurvature x y m) {i : ℕ} (hi : i + 2 < x.size) :
    rightSlope x y m i = leftSlope x y m (i + 1) := by
  unfold rightSlope leftSlope
  linear_combination h.interior i hi / 6

/-- The first derivatives `d` of the natural spline through the values `y`: at every knot the slope
at the end of each interval that the knot belongs to. -/
def IsSlope (x : Array K) (y d : ℕ → K) : Prop :=
  ∃ m, IsCurvature x y m ∧ ∀ i, i + 1 < x.size →
    d i = leftSlope x y m i ∧ d (i + 1) = rightSlope x y m i

/-- Multiples of slopes are slopes of the multiples. -/
theorem IsSlope.smul {x : Array K} {y d : ℕ → K} (h : IsSlope x y d) (c : K) :
    IsSlope x (fun i ↦ c * y i) (fun i ↦ c * d i) := by
  obtain ⟨m, hm, hd⟩ := h
  refine ⟨_, hm.smul c, fun i hi ↦ ⟨?_, ?_⟩⟩
  · show c * d i = _
    rw [(hd i hi).1]
    unfold leftSlope secant
    ring
  · show c * d (i + 1) = _
    rw [(hd i hi).2]
    unfold rightSlope secant
    ring

/-- Sums of slopes are slopes of the sums. -/
theorem IsSlope.add {x : Array K} {y d z e : ℕ → K} (h : IsSlope x y d) (h' : IsSlope x z e) :
    IsSlope x (fun i ↦ y i + z i) (fun i ↦ d i + e i) := by
  obtain ⟨m, hm, hd⟩ := h
  obtain ⟨k, hk, he⟩ := h'
  refine ⟨_, hm.add hk, fun i hi ↦ ⟨?_, ?_⟩⟩
  · show d i + e i = _
    rw [(hd i hi).1, (he i hi).1]
    unfold leftSlope secant
    ring
  · show d (i + 1) + e (i + 1) = _
    rw [(hd i hi).2, (he i hi).2]
    unfold rightSlope secant
    ring

/-- Curvatures only depend on the values at the knots. -/
theorem IsCurvature.congr {x : Array K} {y z m : ℕ → K} (h : IsCurvature x y m)
    (hy : ∀ i < x.size, y i = z i) : IsCurvature x z m where
  first := h.first
  last := h.last
  interior i hi := by
    rw [h.interior i hi]
    unfold secant
    rw [hy i (by omega), hy (i + 1) (by omega), hy (i + 2) hi]

/-- Slopes only matter at the knots, and only depend on the values there. -/
theorem IsSlope.congr {x : Array K} {y z d e : ℕ → K} (h : IsSlope x y d)
    (hy : ∀ i < x.size, y i = z i) (hd : ∀ i < x.size, d i = e i) : IsSlope x z e := by
  obtain ⟨m, hm, hslope⟩ := h
  refine ⟨m, hm.congr hy, fun i hi ↦ ?_⟩
  have hsecant : secant x z i = secant x y i := by
    unfold secant
    rw [hy i (by omega), hy (i + 1) hi]
  rw [← hd i (by omega), ← hd (i + 1) hi, (hslope i hi).1, (hslope i hi).2]
  unfold leftSlope rightSlope
  rw [hsecant]
  exact ⟨rfl, rfl⟩

variable [IsStrictOrderedRing K]

omit [IsStrictOrderedRing K] in
/-- The slopes come from the curvatures. -/
theorem slopes_eq_ok_iff {x : Array K} (hn : 2 ≤ x.size) (y d : Array K) : slopes x y = .ok d ↔
    ∃ m, curvatures x y = .ok m ∧ d = Array.ofFn fun i : Fin x.size ↦
      if i.val + 1 < x.size then leftSlope x (nth y) (nth m) i
      else rightSlope x (nth y) (nth m) (x.size - 2) := by
  have hslopes : slopes x y = (curvatures x y).map fun m ↦ Array.ofFn fun i : Fin x.size ↦
      if i.val + 1 < x.size then leftSlope x (nth y) (nth m) i
      else rightSlope x (nth y) (nth m) (x.size - 2) := by
    unfold slopes rightSlope leftSlope secant gap
    simp only [Exact.literal_ofNat, show x.size - 2 + 1 = x.size - 1 by omega]
    rfl
  rw [hslopes]
  cases curvatures x y with
  | error e => simp [Except.map]
  | ok m => simp [Except.map, eq_comm]

omit [IsStrictOrderedRing K] in
/-- Where the system for the curvatures can be solved, slopes are found. -/
theorem exists_slopes {x : Array K} (hn : 2 ≤ x.size) (h : ∀ y, ∃ m, curvatures x y = .ok m)
    (y : Array K) : ∃ d, slopes x y = .ok d := by
  obtain ⟨m, hm⟩ := h y
  exact ⟨_, (slopes_eq_ok_iff hn y _).mpr ⟨m, hm, rfl⟩⟩

/-- The slopes that are returned belong to the curvatures that are returned. -/
theorem slope_of_slopes {x y d : Array K} (hn : 2 ≤ x.size) (h : slopes x y = .ok d) :
    ∃ m, curvatures x y = .ok m ∧ ∀ i, i + 1 < x.size →
      nth d i = leftSlope x (nth y) (nth m) i ∧ nth d (i + 1) = rightSlope x (nth y) (nth m) i := by
  obtain ⟨m, hm, rfl⟩ := (slopes_eq_ok_iff hn y d).mp h
  have hcurvature := (isCurvature_of_curvatures hn hm).2
  refine ⟨m, hm, fun i hi ↦ ⟨?_, ?_⟩⟩
  · rw [Exact.nth_ofFn _ (by omega), if_pos hi]
  · rw [Exact.nth_ofFn _ (by omega)]
    by_cases hlast : i + 2 < x.size
    · rw [if_pos hlast, hcurvature.rightSlope_eq hlast]
    · rw [if_neg hlast, show x.size - 2 = i by omega]

/-- The slopes that are returned are slopes. -/
theorem isSlope_of_slopes {x y d : Array K} (hn : 2 ≤ x.size) (h : slopes x y = .ok d) :
    IsSlope x (nth y) (nth d) := by
  obtain ⟨m, hm, hd⟩ := slope_of_slopes hn h
  exact ⟨nth m, (isCurvature_of_curvatures hn hm).2, hd⟩

/-- Slopes are those at the ends of the intervals for the curvatures that are returned. -/
theorem IsSlope.ends {x y m : Array K} (hn : 2 ≤ x.size) (hm : curvatures x y = .ok m)
    {d : ℕ → K} (h : IsSlope x (nth y) d) {i : ℕ} (hi : i + 1 < x.size) :
    d i = leftSlope x (nth y) (nth m) i ∧ d (i + 1) = rightSlope x (nth y) (nth m) i := by
  obtain ⟨k, hk, hd⟩ := h
  have hleft : k i = nth m i := hk.eq hn hm (by omega)
  have hright : k (i + 1) = nth m (i + 1) := hk.eq hn hm hi
  rw [(hd i hi).1, (hd i hi).2]
  unfold leftSlope rightSlope
  rw [hleft, hright]
  exact ⟨rfl, rfl⟩

omit [IsStrictOrderedRing K] in
/-- With two knots both slopes are that of the line through the values. -/
theorem IsSlope.eq_secant {x : Array K} (hn : x.size = 2) {y d : ℕ → K} (h : IsSlope x y d) :
    d 0 = secant x y 0 ∧ d 1 = secant x y 0 := by
  obtain ⟨m, hm, hd⟩ := h
  have hlast : m 1 = 0 := by simpa [hn] using hm.last
  obtain ⟨hleft, hright⟩ := hd 0 (by omega)
  rw [hleft, hright]
  unfold leftSlope rightSlope
  simp [hm.first, hlast]

end PlasmaField.Spline
