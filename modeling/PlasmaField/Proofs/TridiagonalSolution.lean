import Mathlib
import PlasmaField.Tridiagonal
import PlasmaField.Proofs.Exact

/-!
# Solutions of tridiagonal systems

Over exact scalars the sweep solves the system it is given. Whenever it returns values, they are the
only ones that satisfy the equations, `solves_iff_of_sweep`; and it returns values whenever in every
row the diagonal outweighs its two neighbours, `sweep_of_dominant`.
-/

namespace PlasmaField.Tridiagonal

open scoped Exact

variable {K : Type} [Field K] [LinearOrder K] [FloorRing K]

/-- The values satisfy the equations of the rows, where `above` is the value above the first of
them. There is no value below the last. -/
def Solves : K → List (Row K) → List K → Prop
  | _, [], [] => True
  | above, row :: rows, x :: xs =>
    row.lower * above + row.diagonal * x + row.upper * xs.headD 0 = row.rhs ∧ Solves x rows xs
  | _, _, _ => False

/-- In every row the diagonal outweighs its neighbours by the threshold. The last row has no
neighbour below. -/
def Dominant : List (Row K) → Prop
  | [] => True
  | [row] => |row.lower| + pivotThreshold ≤ |row.diagonal|
  | row :: next :: rows =>
    |row.lower| + |row.upper| + pivotThreshold ≤ |row.diagonal| ∧ Dominant (next :: rows)

omit [LinearOrder K] [FloorRing K] in
/-- The equations by the rows' numbers. -/
theorem solves_iff_getD (rows : List (Row K)) (above : K) (xs : List K) :
    Solves above rows xs ↔ xs.length = rows.length ∧ ∀ i (h : i < rows.length),
      rows[i].lower * (above :: xs).getD i 0 + rows[i].diagonal * xs.getD i 0
        + rows[i].upper * xs.getD (i + 1) 0 = rows[i].rhs := by
  induction rows generalizing above xs with
  | nil => cases xs <;> simp [Solves]
  | cons row rows ih =>
      cases xs with
      | nil => simp [Solves]
      | cons x xs =>
          have hhead : xs.headD 0 = xs.getD 0 0 := by cases xs <;> rfl
          rw [Solves, ih, hhead]
          constructor
          · rintro ⟨hrow, hlength, hrest⟩
            refine ⟨by simp [hlength], fun i hi ↦ ?_⟩
            cases i with
            | zero => exact hrow
            | succ i => exact hrest i (by simpa using hi)
          · rintro ⟨hlength, hrows⟩
            refine ⟨hrows 0 (by simp), by simpa using hlength, fun i hi ↦ ?_⟩
            exact hrows (i + 1) (by simpa using hi)

/-- The sweep over a last row. -/
theorem sweep_nil (index : ℕ) (pivot rhs upper : K) :
    sweep index pivot rhs upper [] =
      if |pivot| < pivotThreshold then .error (.physics (.zeroPivot index))
      else .ok [rhs / pivot] :=
  rfl

/-- The sweep over a row with rows below it returns values when the pivot is large enough and the
reduced rows below have values. -/
theorem sweep_cons_eq_ok_iff (index : ℕ) (pivot rhs upper : K) (next : Row K) (rows : List (Row K))
    (xs : List K) :
    sweep index pivot rhs upper (next :: rows) = .ok xs ↔
      pivotThreshold ≤ |pivot| ∧ ∃ ys, sweep (index + 1)
        (next.diagonal - next.lower * (upper / pivot)) (next.rhs - next.lower * (rhs / pivot))
        next.upper rows = .ok ys ∧ xs = (rhs / pivot - upper / pivot * ys.headD 0) :: ys := by
  have hstep : sweep index pivot rhs upper (next :: rows) =
      if |pivot| < pivotThreshold then .error (.physics (.zeroPivot index))
      else (sweep (index + 1) (next.diagonal - next.lower * (upper / pivot))
        (next.rhs - next.lower * (rhs / pivot)) next.upper rows).map
          fun ys ↦ (rhs / pivot - upper / pivot * ys.headD 0) :: ys := by
    conv_lhs => unfold sweep
    rw [← Exact.literal_zero]
    rfl
  rw [hstep]
  by_cases hpivot : |pivot| < pivotThreshold
  · simp [hpivot]
  · rw [if_neg hpivot]
    simp only [not_lt.mp hpivot, true_and]
    cases sweep (index + 1) (next.diagonal - next.lower * (upper / pivot))
        (next.rhs - next.lower * (rhs / pivot)) next.upper rows with
    | error e => simp [Except.map]
    | ok ys => simp [Except.map, eq_comm]

variable [IsStrictOrderedRing K]

/-- The threshold below which a pivot counts as zero is positive. -/
theorem pivotThreshold_pos : (0 : K) < pivotThreshold :=
  Exact.decimal_pos one_pos 300

/-- A pivot that the sweep divides by is not zero. -/
theorem pivot_ne_zero {pivot : K} (h : pivotThreshold ≤ |pivot|) : pivot ≠ 0 :=
  abs_pos.mp (pivotThreshold_pos.trans_le h)

/-- The values that the sweep returns are the only solution of its system. The induction reduces
the second row by the first, as the sweep does. -/
theorem solves_iff_of_sweep {rows : List (Row K)} {index : ℕ} {pivot rhs upper : K} {xs : List K}
    (h : sweep index pivot rhs upper rows = .ok xs) (zs : List K) :
    Solves 0 (⟨0, pivot, upper, rhs⟩ :: rows) zs ↔ zs = xs := by
  induction rows generalizing index pivot rhs upper xs zs with
  | nil =>
      rw [sweep_nil] at h
      split at h
      · cases h
      · rename_i hpivot
        have hne := pivot_ne_zero (not_lt.mp hpivot)
        cases h
        match zs with
        | [] => simp [Solves]
        | [z] => simp [Solves, eq_div_iff hne, mul_comm]
        | z :: w :: ws => simp [Solves]
  | cons next rows ih =>
      obtain ⟨hpivot, ys, hys, rfl⟩ := (sweep_cons_eq_ok_iff ..).mp h
      have hne := pivot_ne_zero hpivot
      match zs with
      | [] => simp [Solves]
      | [z] =>
          have hempty : ys ≠ [] := by
            rintro rfl
            exact (ih hys []).mpr rfl
          simp [Solves, hempty.symm]
      | z :: w :: ws =>
          -- given the first equation, the second one says the same as its reduced form
          have hfirst : pivot * z + upper * w = rhs ↔ z = rhs / pivot - upper / pivot * w := by
            field_simp
            exact eq_sub_iff_add_eq.symm
          have hsecond : z = rhs / pivot - upper / pivot * w →
              (next.lower * z + next.diagonal * w + next.upper * ws.headD 0 = next.rhs ↔
                (next.diagonal - next.lower * (upper / pivot)) * w + next.upper * ws.headD 0 =
                  next.rhs - next.lower * (rhs / pivot)) := by
            rintro rfl
            constructor <;> intro heq <;> linear_combination heq
          have hrest := ih hys (w :: ws)
          simp only [Solves, mul_zero, zero_add, List.headD_cons] at hrest ⊢
          rw [hfirst]
          constructor
          · rintro ⟨hz, hnext, hws⟩
            have htail := hrest.mp ⟨(hsecond hz).mp hnext, hws⟩
            rw [← htail, hz]
            rfl
          · intro hcons
            obtain ⟨hz, htail⟩ := List.cons.inj hcons
            have hw : z = rhs / pivot - upper / pivot * w := by rw [hz, ← htail]; rfl
            obtain ⟨hreduced, hws⟩ := hrest.mpr htail
            exact ⟨hw, (hsecond hw).mpr hreduced, hws⟩

/-- In a system of rows that each outweigh both neighbours every row is dominant. -/
theorem Dominant.of_forall {rows : List (Row K)}
    (h : ∀ row ∈ rows, |row.lower| + |row.upper| + pivotThreshold ≤ |row.diagonal|) :
    Dominant rows := by
  induction rows with
  | nil => trivial
  | cons row rows ih =>
      have hrow := h row (by simp)
      cases rows with
      | nil =>
          show |row.lower| + pivotThreshold ≤ |row.diagonal|
          linarith [abs_nonneg row.upper]
      | cons next rows => exact ⟨hrow, ih fun row hmem ↦ h row (by simp [hmem])⟩

/-- Subtracting at most the left neighbour keeps the first row dominant. -/
theorem Dominant.reduce_head {row : Row K} {rows : List (Row K)} (h : Dominant (row :: rows))
    {reduced : K} (hreduced : |row.diagonal| - |row.lower| ≤ |reduced|) (rhs : K) :
    Dominant (⟨0, reduced, row.upper, rhs⟩ :: rows) := by
  cases rows with
  | nil =>
      have hrow : |row.lower| + pivotThreshold ≤ |row.diagonal| := h
      show |(0 : K)| + pivotThreshold ≤ |reduced|
      rw [abs_zero]
      linarith
  | cons next rows =>
      obtain ⟨hrow, hrest⟩ := h
      refine ⟨?_, hrest⟩
      show |(0 : K)| + |row.upper| + pivotThreshold ≤ |reduced|
      rw [abs_zero]
      linarith

/-- The sweep over a dominant system returns values. The quotient by which a row is reduced is at
most one in magnitude, so the reduced row stays dominant. -/
theorem sweep_of_dominant {rows : List (Row K)} (index : ℕ) {pivot upper : K} (rhs : K)
    (h : Dominant (⟨0, pivot, upper, rhs⟩ :: rows)) :
    ∃ xs, sweep index pivot rhs upper rows = .ok xs := by
  induction rows generalizing index pivot rhs upper with
  | nil =>
      have hpivot : |(0 : K)| + pivotThreshold ≤ |pivot| := h
      rw [abs_zero, zero_add] at hpivot
      exact ⟨[rhs / pivot], by rw [sweep_nil, if_neg hpivot.not_gt]⟩
  | cons next rows ih =>
      obtain ⟨hfirst, hrest⟩ := h
      have hfirst : |upper| + pivotThreshold ≤ |pivot| := by simpa using hfirst
      have hpivot : pivotThreshold ≤ |pivot| := le_trans (by simp) hfirst
      have hquotient : |upper / pivot| ≤ 1 := by
        rw [abs_div, div_le_one (pivotThreshold_pos.trans_le hpivot)]
        linarith [pivotThreshold_pos (K := K)]
      have hproduct : |next.lower * (upper / pivot)| ≤ |next.lower| := by
        rw [abs_mul]
        exact mul_le_of_le_one_right (abs_nonneg _) hquotient
      have hreduced : |next.diagonal| - |next.lower| ≤
          |next.diagonal - next.lower * (upper / pivot)| :=
        calc |next.diagonal| - |next.lower|
            ≤ |next.diagonal| - |next.lower * (upper / pivot)| := by linarith
          _ ≤ |next.diagonal - next.lower * (upper / pivot)| := abs_sub_abs_le_abs_sub ..
      obtain ⟨ys, hys⟩ := ih (index + 1) (next.rhs - next.lower * (rhs / pivot))
        (hrest.reduce_head hreduced _)
      exact ⟨_, (sweep_cons_eq_ok_iff ..).mpr ⟨hpivot, ys, hys, rfl⟩⟩

/-- The left-hand side of a row's equation. -/
def Row.coefficients (row : Row K) : K × K × K :=
  (row.lower, row.diagonal, row.upper)

omit [IsStrictOrderedRing K] in
/-- Whether the sweep returns values does not depend on the right-hand sides. -/
theorem sweep_of_coefficients_eq {rows others : List (Row K)}
    (hrows : rows.map Row.coefficients = others.map Row.coefficients) {index : ℕ}
    {pivot rhs upper : K} {xs : List K} (h : sweep index pivot rhs upper rows = .ok xs)
    (other : K) : ∃ ys, sweep index pivot other upper others = .ok ys := by
  induction rows generalizing others index pivot rhs upper xs other with
  | nil =>
      obtain rfl : others = [] := by simpa using hrows.symm
      rw [sweep_nil] at h ⊢
      split at h
      · cases h
      · rename_i hpivot
        exact ⟨[other / pivot], if_neg hpivot⟩
  | cons next rows ih =>
      obtain ⟨next', others, rfl⟩ : ∃ next' others', others = next' :: others' := by
        cases others with
        | nil => simp at hrows
        | cons next' others' => exact ⟨next', others', rfl⟩
      obtain ⟨hnext, htail⟩ := List.cons.inj hrows
      simp only [Row.coefficients, Prod.mk.injEq] at hnext
      obtain ⟨hlower, hdiagonal, hupper⟩ := hnext
      obtain ⟨hpivot, ys, hys, -⟩ := (sweep_cons_eq_ok_iff ..).mp h
      rw [hlower, hdiagonal, hupper] at hys
      obtain ⟨zs, hzs⟩ := ih htail hys (next'.rhs - next'.lower * (other / pivot))
      exact ⟨_, (sweep_cons_eq_ok_iff ..).mpr ⟨hpivot, zs, hzs, rfl⟩⟩

omit [IsStrictOrderedRing K] in
/-- Whether a system has values does not depend on its right-hand sides. -/
theorem solveRows_of_coefficients_eq {rows others : List (Row K)}
    (hrows : rows.map Row.coefficients = others.map Row.coefficients) {xs : List K}
    (h : solveRows rows = .ok xs) : ∃ ys, solveRows others = .ok ys := by
  cases rows with
  | nil => cases h
  | cons row rows =>
      cases others with
      | nil => simp at hrows
      | cons other others =>
          obtain ⟨hrow, htail⟩ := List.cons.inj hrows
          simp only [Row.coefficients, Prod.mk.injEq] at hrow
          obtain ⟨-, hdiagonal, hupper⟩ := hrow
          have h : sweep 0 other.diagonal row.rhs other.upper rows = .ok xs := by
            rw [← hdiagonal, ← hupper]
            exact h
          exact sweep_of_coefficients_eq htail h other.rhs

/-- The values of a system are its only solution. -/
theorem solves_iff_of_solveRows {rows : List (Row K)} {xs : List K}
    (h : solveRows rows = .ok xs) (zs : List K) : Solves 0 rows zs ↔ zs = xs := by
  cases rows with
  | nil => cases h
  | cons row rows =>
      rw [← solves_iff_of_sweep h zs]
      cases zs <;> simp [Solves]

/-- A dominant system has values. -/
theorem solveRows_of_dominant {row : Row K} {rows : List (Row K)}
    (h : Dominant (row :: rows)) : ∃ xs, solveRows (row :: rows) = .ok xs :=
  sweep_of_dominant 0 row.rhs (h.reduce_head (sub_le_self _ (abs_nonneg _)) row.rhs)

end PlasmaField.Tridiagonal
