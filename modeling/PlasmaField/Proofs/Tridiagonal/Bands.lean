import Mathlib
import PlasmaField.Proofs.Outcome
import PlasmaField.Proofs.TridiagonalSolution

/-!
# Systems given by their bands

A system is handed over as three bands and a right-hand side of one length. Whatever values the
solver returns are the only solution, the two coefficients that belong to no unknown are not read,
and diagonally dominant bands always have values: `solve_determines`.
-/

namespace PlasmaField.Tridiagonal

open Outcome (bind_eq_ok_iff guard_eq_ok_iff)
open Scalar (nth)

/-! ## The outer coefficients -/

section Ends

variable {α : Type} [Scalar α]

/-- The coefficient below the last row is not read. -/
theorem sweep_last_upper (index : ℕ) (pivot rhs upper : α) (rows : List (Row α)) (last : Row α)
    (c : α) : sweep index pivot rhs upper (rows ++ [{ last with upper := c }]) =
      sweep index pivot rhs upper (rows ++ [last]) := by
  induction rows generalizing index pivot rhs upper with
  | nil => rfl
  | cons next rows ih =>
      rw [List.cons_append, List.cons_append, sweep, sweep]
      dsimp only
      rw [ih]

/-- Setting one entry of an array leaves the others. -/
theorem nth_setIfInBounds_of_ne (xs : Array α) {i j : ℕ} (h : j ≠ i) (v : α) :
    nth (xs.setIfInBounds j v) i = nth xs i := by
  unfold nth
  rw [Array.getD_eq_getD_getElem?, Array.getD_eq_getD_getElem?,
    Array.getElem?_setIfInBounds_ne h]

/-- The row with the given number in a system of bands. -/
def bandRow (lower diagonal upper rhs : Array α) (i : ℕ) : Row α :=
  ⟨nth lower i, nth diagonal i, nth upper i, nth rhs i⟩

/-- The coefficients before the first unknown and after the last one are not read. -/
theorem solveRows_rowsOfBands_set (lower diagonal upper rhs : Array α) (a c : α) :
    solveRows (rowsOfBands (lower.setIfInBounds 0 a) diagonal
      (upper.setIfInBounds (rhs.size - 1) c) rhs) =
    solveRows (rowsOfBands lower diagonal upper rhs) := by
  show solveRows ((List.range rhs.size).map (bandRow _ diagonal _ rhs)) =
    solveRows ((List.range rhs.size).map (bandRow lower diagonal upper rhs))
  match rhs.size with
  | 0 => rfl
  | 1 => rfl
  | n + 2 =>
      let f := bandRow lower diagonal upper rhs
      let f' := bandRow (lower.setIfInBounds 0 a) diagonal (upper.setIfInBounds (n + 1) c) rhs
      have hlower : ∀ i, nth (lower.setIfInBounds 0 a) (i + 1) = nth lower (i + 1) := fun i ↦
        nth_setIfInBounds_of_ne lower (Nat.zero_ne_add_one i) a
      have hupper : ∀ i < n + 1, nth (upper.setIfInBounds (n + 1) c) i = nth upper i :=
        fun i hi ↦ nth_setIfInBounds_of_ne upper hi.ne' c
      have hsplit : ∀ g : ℕ → Row α, (List.range (n + 2)).map g =
          g 0 :: ((List.range n).map (fun i ↦ g (i + 1)) ++ [g (n + 1)]) := by
        intro g
        rw [List.range_succ, List.range_succ_eq_map]
        simp [Function.comp_def]
      have hinner : (List.range n).map (fun i ↦ f' (i + 1)) =
          (List.range n).map fun i ↦ f (i + 1) := by
        refine List.map_congr_left fun i hi ↦ ?_
        have hi : i + 1 < n + 1 := Nat.succ_lt_succ (List.mem_range.mp hi)
        exact congrArg₂ (Row.mk · _ · _) (hlower i) (hupper _ hi)
      have hlast : f' (n + 1) = { f (n + 1) with upper := (f' (n + 1)).upper } :=
        congrArg (Row.mk · _ _ _) (hlower n)
      show solveRows ((List.range (n + 2)).map f') = solveRows ((List.range (n + 2)).map f)
      rw [hsplit, hsplit, hinner, hlast]
      refine (sweep_last_upper _ _ _ _ _ _ _).trans ?_
      exact congrArg (sweep 0 _ _ · _) (hupper 0 (Nat.succ_pos n))

end Ends

open scoped Exact

variable {K : Type} [Field K] [LinearOrder K] [FloorRing K]

/-! ## Solutions -/

/-- Bands of a system of `n` equations. -/
structure HaveLength (lower diagonal upper : Array K) (n : ℕ) : Prop where
  pos : 0 < n
  lower : lower.size = n
  diagonal : diagonal.size = n
  upper : upper.size = n

/-- One value for every equation, and every equation holds. The first one has no value before its
own and the last one none after it. -/
structure IsSolution (lower diagonal upper rhs xs : Array K) : Prop where
  size : xs.size = rhs.size
  equation : ∀ i < rhs.size,
    nth diagonal i * nth xs i + (if i = 0 then 0 else nth lower i * nth xs (i - 1))
      + (if i + 1 = rhs.size then 0 else nth upper i * nth xs (i + 1)) = nth rhs i

/-- In every equation the diagonal outweighs the coefficients of the neighbours by `10⁻³⁰⁰`. -/
def Outweighs (lower diagonal upper : Array K) (n : ℕ) : Prop :=
  ∀ i < n, (if i = 0 then 0 else |nth lower i|) + (if i + 1 = n then 0 else |nth upper i|)
    + 1 / (10 ^ 300 : ℕ) ≤ |nth diagonal i|

/-- Bands of the length of the right-hand side are solved row by row. -/
theorem solve_eq_ok_iff {lower diagonal upper rhs xs : Array K} :
    solve lower diagonal upper rhs = .ok xs ↔ HaveLength lower diagonal upper rhs.size ∧
      solveRows (rowsOfBands lower diagonal upper rhs) = .ok xs.toList := by
  unfold solve
  rw [guard_eq_ok_iff, guard_eq_ok_iff, bind_eq_ok_iff]
  constructor
  · rintro ⟨hpos, hsizes, ys, hys, hxs⟩
    cases hxs
    simp only [bne_iff_ne, Bool.or_eq_true, not_or, not_not] at hsizes
    obtain ⟨⟨hlower, hdiagonal⟩, hupper⟩ := hsizes
    exact ⟨⟨Nat.pos_of_ne_zero hpos, hlower, hdiagonal, hupper⟩, hys⟩
  · rintro ⟨⟨hpos, hlower, hdiagonal, hupper⟩, hxs⟩
    exact ⟨hpos.ne', by simp [hlower, hdiagonal, hupper], xs.toList, hxs, rfl⟩

/-- The equations of the rows are those of the bands. -/
theorem solves_rowsOfBands_iff (lower diagonal upper rhs xs : Array K) :
    Solves 0 (rowsOfBands lower diagonal upper rhs) xs.toList ↔
      IsSolution lower diagonal upper rhs xs := by
  have hlength : (rowsOfBands lower diagonal upper rhs).length = rhs.size := by
    simp [rowsOfBands]
  have hrow : ∀ i (hi : i < (rowsOfBands lower diagonal upper rhs).length),
      (rowsOfBands lower diagonal upper rhs)[i] = bandRow lower diagonal upper rhs i := by
    intro i hi
    simp [rowsOfBands, bandRow]
  have hgetD : ∀ i, xs.toList.getD i 0 = nth xs i := by
    intro i
    rw [Exact.nth_eq_getD, Array.getD_eq_getD_getElem?, List.getD_eq_getElem?_getD,
      Array.getElem?_toList]
  have hbefore : ∀ i, nth lower i * (0 :: xs.toList).getD i 0 =
      if i = 0 then 0 else nth lower i * nth xs (i - 1) := by
    intro i
    cases i with
    | zero => exact mul_zero _
    | succ i => rw [List.getD_cons_succ, hgetD, if_neg i.succ_ne_zero, Nat.add_sub_cancel]
  have hafter : xs.size = rhs.size → ∀ i < rhs.size, nth upper i * xs.toList.getD (i + 1) 0 =
      if i + 1 = rhs.size then 0 else nth upper i * nth xs (i + 1) := by
    intro hsize i hi
    have hend : nth xs rhs.size = 0 := by
      simp [Exact.nth_eq_getD, ← hsize]
    rw [hgetD]
    split
    next hlast => rw [hlast, hend, mul_zero]
    next => rfl
  rw [solves_iff_getD, Array.length_toList]
  constructor
  · rintro ⟨hsize, hrows⟩
    rw [hlength] at hsize
    refine ⟨hsize, fun i hi ↦ ?_⟩
    have hequation := hrows i (hi.trans_eq hlength.symm)
    rw [hrow, hgetD i] at hequation
    dsimp only [bandRow] at hequation
    rw [hbefore, hafter hsize i hi] at hequation
    rw [← hequation]
    ring
  · rintro ⟨hsize, hequations⟩
    refine ⟨hsize.trans hlength.symm, fun i hi ↦ ?_⟩
    have hi : i < rhs.size := hi.trans_eq hlength
    rw [hrow, hgetD i]
    dsimp only [bandRow]
    rw [hbefore, hafter hsize i hi, ← hequations i hi]
    ring

variable [IsStrictOrderedRing K]

omit [IsStrictOrderedRing K] in
/-- A system of rows in which the diagonal outweighs the neighbours is dominant. -/
theorem dominant_of_getElem {rows : List (Row K)}
    (h : ∀ i (hi : i < rows.length), |rows[i].lower|
      + (if i + 1 = rows.length then 0 else |rows[i].upper|) + pivotThreshold
        ≤ |rows[i].diagonal|) : Dominant rows := by
  induction rows with
  | nil => trivial
  | cons row rows ih =>
      have hrow := h 0 (Nat.succ_pos _)
      cases rows with
      | nil => simpa [Dominant] using hrow
      | cons next rows =>
          refine ⟨by simpa using hrow, ih fun i hi ↦ ?_⟩
          simpa using h (i + 1) (Nat.succ_lt_succ hi)

/-- Bands in which the diagonal outweighs the neighbours give a dominant system, if no coefficient
stands before the first unknown. -/
theorem dominant_rowsOfBands {lower diagonal upper rhs : Array K} (hfirst : nth lower 0 = 0)
    (h : Outweighs lower diagonal upper rhs.size) :
    Dominant (rowsOfBands lower diagonal upper rhs) := by
  have hthreshold : (pivotThreshold : K) = 1 / (10 ^ 300 : ℕ) := by
    unfold pivotThreshold
    rw [Exact.literal_scientific, Exact.decimal_eq, Nat.cast_one, Nat.cast_pow, Nat.cast_ofNat]
  have hlength : (rowsOfBands lower diagonal upper rhs).length = rhs.size := by
    simp [rowsOfBands]
  refine dominant_of_getElem fun i hi ↦ ?_
  have hrow : (rowsOfBands lower diagonal upper rhs)[i] = bandRow lower diagonal upper rhs i := by
    simp [rowsOfBands, bandRow]
  have hlower : (if i = 0 then 0 else |nth lower i|) = |nth lower i| := by
    split
    next hzero => rw [hzero, hfirst, abs_zero]
    next => rfl
  rw [hrow, hlength, hthreshold]
  have hweighs := h i (hi.trans_eq hlength)
  rwa [hlower] at hweighs

/-- The rows of bands in which the diagonal outweighs the neighbours have values. -/
theorem exists_solveRows {lower diagonal upper rhs : Array K}
    (hlength : HaveLength lower diagonal upper rhs.size)
    (h : Outweighs lower diagonal upper rhs.size) :
    ∃ xs, solveRows (rowsOfBands lower diagonal upper rhs) = .ok xs := by
  -- the two outer coefficients are not read, so they may be taken for zero
  have hfirst : nth (lower.setIfInBounds 0 0) 0 = 0 := by
    simp [Exact.nth_eq_getD, hlength.lower, hlength.pos]
  have houtweighs : Outweighs (lower.setIfInBounds 0 0) diagonal
      (upper.setIfInBounds (rhs.size - 1) 0) rhs.size := by
    intro i hi
    have hlower : (if i = 0 then 0 else |nth (lower.setIfInBounds 0 0) i|) =
        if i = 0 then 0 else |nth lower i| := by
      split
      next => rfl
      next hzero => rw [nth_setIfInBounds_of_ne lower (Ne.symm hzero)]
    have hupper : (if i + 1 = rhs.size then 0
        else |nth (upper.setIfInBounds (rhs.size - 1) 0) i|) =
        if i + 1 = rhs.size then 0 else |nth upper i| := by
      split
      next => rfl
      next hlast => rw [nth_setIfInBounds_of_ne upper (by omega)]
    rw [hlower, hupper]
    exact h i hi
  have hdominant : Dominant (rowsOfBands (lower.setIfInBounds 0 0) diagonal
      (upper.setIfInBounds (rhs.size - 1) 0) rhs) := dominant_rowsOfBands hfirst houtweighs
  rw [← solveRows_rowsOfBands_set lower diagonal upper rhs 0 0]
  cases hrows : rowsOfBands (lower.setIfInBounds 0 0) diagonal
      (upper.setIfInBounds (rhs.size - 1) 0) rhs with
  | nil =>
      have hempty := congrArg List.length hrows
      simp [rowsOfBands, hlength.pos.ne'] at hempty
  | cons row rows => exact solveRows_of_dominant (hrows ▸ hdominant)

/-- Bands in which the diagonal outweighs the neighbours have values. -/
theorem exists_solve {lower diagonal upper rhs : Array K}
    (hlength : HaveLength lower diagonal upper rhs.size)
    (h : Outweighs lower diagonal upper rhs.size) :
    ∃ xs, solve lower diagonal upper rhs = .ok xs := by
  obtain ⟨xs, hxs⟩ := exists_solveRows hlength h
  exact ⟨xs.toArray, solve_eq_ok_iff.mpr ⟨hlength, hxs⟩⟩

/-- What the solver returns is the only solution; the coefficients before the first unknown and
after the last one may be anything; and there are values if in every equation the diagonal outweighs
the coefficients of the neighbours. -/
theorem solve_determines (lower diagonal upper rhs : Array K) :
    (∀ xs, solve lower diagonal upper rhs = .ok xs →
      ∀ ys, IsSolution lower diagonal upper rhs ys ↔ ys = xs) ∧
    (∀ a c, solve (lower.setIfInBounds 0 a) diagonal (upper.setIfInBounds (rhs.size - 1) c) rhs =
      solve lower diagonal upper rhs) ∧
    (HaveLength lower diagonal upper rhs.size → Outweighs lower diagonal upper rhs.size →
      ∃ xs, solve lower diagonal upper rhs = .ok xs) := by
  refine ⟨fun xs hxs ys ↦ ?_, fun a c ↦ ?_, exists_solve⟩
  · rw [← solves_rowsOfBands_iff, solves_iff_of_solveRows (solve_eq_ok_iff.mp hxs).2,
      Array.toList_inj]
  · unfold solve
    rw [solveRows_rowsOfBands_set, Array.size_setIfInBounds, Array.size_setIfInBounds]

/-- Three equations in which the diagonal outweighs the neighbours, with their values. -/
theorem solve_determines_three :
    HaveLength (K := ℚ) #[7, 1, 1] #[4, 4, 4] #[1, 1, 9] 3 ∧
      Outweighs (K := ℚ) #[7, 1, 1] #[4, 4, 4] #[1, 1, 9] 3 ∧
      ∃ xs, solve #[(7 : ℚ), 1, 1] #[4, 4, 4] #[1, 1, 9] #[6, 12, 14] = .ok xs ∧
        IsSolution #[7, 1, 1] #[4, 4, 4] #[1, 1, 9] #[6, 12, 14] xs := by
  obtain ⟨hunique, -, hexists⟩ :=
    solve_determines #[(7 : ℚ), 1, 1] #[4, 4, 4] #[1, 1, 9] #[6, 12, 14]
  have hlength : HaveLength (K := ℚ) #[7, 1, 1] #[4, 4, 4] #[1, 1, 9] 3 :=
    ⟨by decide, rfl, rfl, rfl⟩
  have houtweighs : Outweighs (K := ℚ) #[7, 1, 1] #[4, 4, 4] #[1, 1, 9] 3 := by
    unfold Outweighs
    decide +kernel
  obtain ⟨xs, hxs⟩ := hexists hlength houtweighs
  exact ⟨hlength, houtweighs, xs, hxs, (hunique xs hxs xs).mpr rfl⟩

end PlasmaField.Tridiagonal
