import Mathlib
import PlasmaField.Scalar

/-!
# Exact scalars

An ordered field whose numbers have whole parts is a type of scalars without rounding, without
infinities and without results of undefined operations. Every computation of the library can be
read over it. The lemmas below say what the conventions of `Scalar` come to there: a minimum is the
minimum of the order, the power by repeated squaring is the power, and a sequence increases when
consecutive members do.
-/

namespace PlasmaField.Exact

open Scalar (nth)

-- Named proofs for literals, so that the definitions that use them share these.
instance atLeastTwo_two : Nat.AtLeastTwo 2 := ⟨by decide⟩

instance atLeastTwo_three : Nat.AtLeastTwo 3 := ⟨by decide⟩

instance atLeastTwo_six : Nat.AtLeastTwo 6 := ⟨by decide⟩

variable {K : Type} [Field K] [LinearOrder K] [FloorRing K]

/-- The whole part of a number, cut toward zero. -/
def truncate (x : K) : ℤ :=
  if 0 ≤ x then ⌊x⌋ else ⌈x⌉

/-- Exact scalars: the operations are those of the ordered field. -/
scoped instance exactScalar : Scalar K where
  decidableLT := inferInstance
  decidableLE := inferInstance
  ofNat n := n
  abs x := |x|
  isFinite _ := true
  nearest x := if 0 ≤ x then round x else -round (-x)
  natural? x := if x = (⌊x⌋₊ : K) then some ⌊x⌋₊ else none
  remainder x m := x - m * (truncate (x / m) : K)

/-- A natural number as an exact scalar is its cast. -/
@[simp]
theorem ofNat_eq (n : ℕ) : (Scalar.ofNat n : K) = n :=
  rfl

/-- The literal zero of the scalars. -/
@[simp]
theorem literal_zero : @OfNat.ofNat K 0 (Scalar.instOfNat 0) = 0 :=
  Nat.cast_zero

/-- The literal one of the scalars. -/
@[simp]
theorem literal_one : @OfNat.ofNat K 1 (Scalar.instOfNat 1) = 1 :=
  Nat.cast_one

/-- Every larger literal of the scalars. -/
@[simp]
theorem literal_ofNat (n : ℕ) [n.AtLeastTwo] :
    @OfNat.ofNat K n (Scalar.instOfNat n) = OfNat.ofNat n :=
  rfl

/-- A decimal constant of the scalars. -/
@[simp]
theorem literal_scientific (mantissa : ℕ) (negative : Bool) (exponent : ℕ) :
    @OfScientific.ofScientific K Scalar.instOfScientific mantissa negative exponent =
      OfScientific.ofScientific mantissa negative exponent :=
  rfl

section Decimal

omit [FloorRing K]
variable [IsStrictOrderedRing K]

/-- A decimal constant with a negative exponent. -/
theorem decimal_eq (mantissa exponent : ℕ) :
    (OfScientific.ofScientific mantissa true exponent : K) = mantissa / 10 ^ exponent := by
  rw [← Rat.cast_ofScientific, Rat.ofScientific_def_eq_if, if_pos rfl]
  norm_num

/-- A decimal constant with a positive mantissa is positive. -/
theorem decimal_pos {mantissa : ℕ} (h : 0 < mantissa) (exponent : ℕ) :
    (0 : K) < OfScientific.ofScientific mantissa true exponent := by
  rw [decimal_eq]
  positivity

/-- A negative power of ten is at most one. -/
theorem decimal_le_one (exponent : ℕ) :
    (OfScientific.ofScientific 1 true exponent : K) ≤ 1 := by
  rw [decimal_eq, Nat.cast_one]
  exact div_le_one_of_le₀ (one_le_pow₀ (by norm_num)) (by positivity)

end Decimal

/-- No exact scalar is the result of an undefined operation. -/
@[simp]
theorem isNaN_eq_false (x : K) : Scalar.isNaN x = false := by
  simp [Scalar.isNaN]

/-- Every entry of an array is finite. -/
@[simp]
theorem all_isFinite (xs : Array K) : xs.all Scalar.isFinite = true := by
  simp only [Array.all_eq_true]
  exact fun _ _ ↦ rfl

/-- The smaller operand is the minimum of the order. -/
@[simp]
theorem min_eq (x y : K) : Scalar.min x y = min x y := by
  show (if y < x then y else if Scalar.isNaN x then y else x) = min x y
  rcases lt_or_ge y x with h | h
  · simp [h, h.le]
  · simp [h, h.not_gt]

/-- The larger operand is the maximum of the order. -/
@[simp]
theorem max_eq (x y : K) : Scalar.max x y = max x y := by
  show (if x < y then y else if Scalar.isNaN x then y else x) = max x y
  rcases lt_or_ge x y with h | h
  · simp [h, h.le]
  · simp [h, h.not_gt]

omit [FloorRing K] in
/-- A negative power of two is positive. -/
theorem one_div_two_pow_pos [IsStrictOrderedRing K] (exponent : ℕ) :
    (0 : K) < 1 / ((Nat.pow 2 exponent : ℕ) : K) :=
  one_div_pos.mpr (Nat.cast_pos.mpr (Nat.two_pow_pos exponent))

/-- The spacing of doubles just above one is positive. -/
theorem epsilon_pos [IsStrictOrderedRing K] : (0 : K) < Scalar.epsilon := by
  unfold Scalar.epsilon
  generalize 52 = exponent
  rw [literal_one, ofNat_eq]
  exact one_div_two_pow_pos exponent

/-- The smallest normal double is positive. -/
theorem tiny_pos [IsStrictOrderedRing K] : (0 : K) < Scalar.tiny := by
  unfold Scalar.tiny
  -- the power is not to be computed
  generalize 1022 = exponent
  rw [literal_one, ofNat_eq]
  exact one_div_two_pow_pos exponent

omit [FloorRing K] in
/-- Negative powers of two decrease. -/
theorem one_div_two_pow_le [IsStrictOrderedRing K] {m n : ℕ} (h : m ≤ n) :
    (1 : K) / ((Nat.pow 2 n : ℕ) : K) ≤ 1 / ((Nat.pow 2 m : ℕ) : K) :=
  one_div_le_one_div_of_le (Nat.cast_pos.mpr (Nat.two_pow_pos m))
    (Nat.cast_le.mpr (Nat.pow_le_pow_right two_pos h))

/-- The spacing of doubles just above one is small. -/
theorem epsilon_le [IsStrictOrderedRing K] : (Scalar.epsilon : K) ≤ 1 / 2 ^ 20 := by
  have hle : 20 ≤ 52 := by norm_num
  unfold Scalar.epsilon
  rw [literal_one, ofNat_eq]
  refine (one_div_two_pow_le hle).trans_eq ?_
  norm_num

/-- The smallest normal double is below the spacing of doubles just above one. -/
theorem tiny_le_epsilon [IsStrictOrderedRing K] : (Scalar.tiny : K) ≤ Scalar.epsilon := by
  have hle : 52 ≤ 1022 := by norm_num
  unfold Scalar.tiny Scalar.epsilon
  generalize 1022 = exponent at hle ⊢
  rw [literal_one, ofNat_eq, ofNat_eq]
  exact one_div_two_pow_le hle

/-- A maximum with the smallest normal double is positive. -/
theorem max_tiny_pos [IsStrictOrderedRing K] (x : K) : 0 < Scalar.max x Scalar.tiny := by
  rw [max_eq]
  exact tiny_pos.trans_le (le_max_right _ _)

/-- Clamping to a range that is not empty. -/
theorem clamp_eq {lower upper : K} (h : lower ≤ upper) (x : K) :
    Scalar.clamp lower upper x = max lower (min upper x) := by
  show (if upper < (if x < lower then lower else x) then upper
    else if x < lower then lower else x) = _
  rcases lt_or_ge x lower with hx | hx
  · simp [hx, h.not_gt, (hx.trans_le h).le, hx.le]
  · rcases lt_or_ge upper x with hu | hu
    · simp [hx.not_gt, hu, hu.le, h]
    · simp [hx.not_gt, hu.not_gt, hu, hx]

/-- A scalar in the range is left where it is. -/
theorem clamp_of_mem {lower upper x : K} (hl : lower ≤ x) (hu : x ≤ upper) :
    Scalar.clamp lower upper x = x := by
  rw [clamp_eq (hl.trans hu), min_eq_right hu, max_eq_right hl]

/-- Below the range a scalar is moved to its lower end. -/
theorem clamp_of_lt {lower upper x : K} (h : lower ≤ upper) (hx : x < lower) :
    Scalar.clamp lower upper x = lower := by
  rw [clamp_eq h, min_eq_right (hx.le.trans h), max_eq_left hx.le]

/-- Above the range a scalar is moved to its upper end. -/
theorem clamp_of_gt {lower upper x : K} (h : lower ≤ upper) (hx : upper < x) :
    Scalar.clamp lower upper x = upper := by
  rw [clamp_eq h, min_eq_left hx.le, max_eq_right h]

/-- A clamped scalar lies in the range. -/
theorem clamp_mem {lower upper : K} (h : lower ≤ upper) (x : K) :
    lower ≤ Scalar.clamp lower upper x ∧ Scalar.clamp lower upper x ≤ upper := by
  rw [clamp_eq h]
  exact ⟨le_max_left _ _, max_le h (min_le_left _ _)⟩

/-- A scalar lies in a closed range when it is between the ends. -/
theorem within_iff {lower upper x : K} :
    Scalar.within lower upper x = true ↔ lower ≤ x ∧ x ≤ upper := by
  unfold Scalar.within
  rw [Bool.and_eq_true, decide_eq_true_eq, decide_eq_true_eq]

/-- Wrapping into a range takes the fractional part of the number of ranges. -/
theorem wrap_eq_fract [IsStrictOrderedRing K] {m : K} (hm : 0 < m) (x : K) :
    Scalar.wrap m x = m * Int.fract (x / m) := by
  have hx : m * (x / m) = x := mul_div_cancel₀ x hm.ne'
  have hwrap : Scalar.wrap m x =
      if x - m * (truncate (x / m) : K) < 0 then x - m * (truncate (x / m) : K) + m
        else x - m * (truncate (x / m) : K) := by
    unfold Scalar.wrap
    simp only [literal_zero]
    rfl
  have hcut : x - m * (truncate (x / m) : K) = m * (x / m - truncate (x / m)) := by
    rw [mul_sub, hx]
  rw [hwrap, hcut]
  rcases le_or_gt 0 (x / m) with hpos | hneg
  · rw [truncate, if_pos hpos, ← Int.fract, if_neg (mul_nonneg hm.le (Int.fract_nonneg _)).not_gt]
  · rw [truncate, if_neg hneg.not_ge]
    by_cases hwhole : Int.fract (x / m) = 0
    · obtain ⟨n, hn⟩ := Int.fract_eq_zero_iff.mp hwhole
      rw [hwhole, ← hn, Int.ceil_intCast, sub_self, mul_zero, if_neg (lt_irrefl 0)]
    · have hbelow : m * (Int.fract (x / m) - 1) < 0 :=
        mul_neg_of_pos_of_neg hm (sub_neg.mpr (Int.fract_lt_one _))
      have hceil : x / m - ⌈x / m⌉ = Int.fract (x / m) - 1 := by
        rw [Int.ceil_eq_add_one_sub_fract hwhole]
        ring
      rw [hceil, if_pos hbelow]
      ring

/-- A scalar between zero and the length of the range is left where it is. -/
theorem wrap_of_mem [IsStrictOrderedRing K] {m x : K} (h₀ : 0 ≤ x) (hm : x < m) :
    Scalar.wrap m x = x := by
  have hpos : 0 < m := h₀.trans_lt hm
  rw [wrap_eq_fract hpos, Int.fract_eq_self.mpr ⟨div_nonneg h₀ hpos.le, (div_lt_one hpos).mpr hm⟩,
    mul_div_cancel₀ x hpos.ne']

/-- Repeated squaring multiplies by the power. -/
theorem powFrom_eq (acc x : K) (n : ℕ) : Scalar.powFrom acc x n = acc * x ^ n := by
  induction n using Nat.strong_induction_on generalizing acc x with
  | _ n ih =>
      rw [Scalar.powFrom]
      rcases Nat.eq_zero_or_pos n with rfl | hn
      · simp
      · rw [if_neg hn.ne', ih (n / 2) (Nat.div_lt_self hn one_lt_two)]
        show (if n % 2 = 1 then acc * x else acc) * (x * x) ^ (n / 2) = acc * x ^ n
        rw [← pow_two, ← pow_mul]
        rcases Nat.mod_two_eq_zero_or_one n with h | h
        · rw [if_neg (by omega), Nat.mul_div_cancel' (Nat.dvd_of_mod_eq_zero h)]
        · rw [if_pos h, mul_assoc, ← pow_succ', show 2 * (n / 2) + 1 = n by omega]

/-- The integer power of a natural exponent is the power of the field. -/
theorem pow_eq (x : K) (n : ℕ) : Scalar.pow x (n : ℤ) = x ^ n := by
  show Scalar.powFrom _ x n = x ^ n
  rw [powFrom_eq, literal_one, one_mul]

/-- The integer power is the power of the field, with a negative exponent for the inverse. -/
theorem zpow_eq (x : K) (n : ℤ) : Scalar.pow x n = x ^ n := by
  cases n with
  | ofNat n => exact (pow_eq x n).trans (zpow_natCast x n).symm
  | negSucc n =>
      show @OfNat.ofNat K 1 (Scalar.instOfNat 1) / Scalar.powFrom _ x (n + 1) = x ^ Int.negSucc n
      rw [powFrom_eq, literal_one, one_mul, one_div, zpow_negSucc]

/-- An integer as an exact scalar is its cast. -/
theorem ofInt_eq (n : ℤ) : (Scalar.ofInt n : K) = n := by
  cases n with
  | ofNat n => exact (Int.cast_natCast n).symm
  | negSucc n => exact (Int.cast_negSucc n).symm

/-- The cut whole part is one of the first `n` numbers. -/
theorem floorUpTo_lt {n : ℕ} (hn : 0 < n) (x : K) : Scalar.floorUpTo (n - 1) x < n := by
  unfold Scalar.floorUpTo
  refine (List.countP_le_length.trans_eq List.length_range).trans_lt ?_
  omega

/-- The cut whole part does not decrease. -/
theorem floorUpTo_mono (limit : ℕ) {x y : K} (h : x ≤ y) :
    Scalar.floorUpTo limit x ≤ Scalar.floorUpTo limit y := by
  unfold Scalar.floorUpTo
  refine List.countP_mono_left fun k _ hk ↦ ?_
  exact decide_eq_true ((of_decide_eq_true hk).trans h)

/-- Reading beyond the end of an array gives zero. -/
theorem nth_eq_getD (xs : Array K) (i : ℕ) : nth xs i = xs.getD i 0 := by
  show xs.getD i _ = xs.getD i 0
  rw [literal_zero]

/-- Reading within an array. -/
theorem nth_eq_getElem (xs : Array K) {i : ℕ} (h : i < xs.size) : nth xs i = xs[i] := by
  simp [nth_eq_getD, h]

/-- Reading an array that is given by its entries. -/
theorem nth_ofFn {n : ℕ} (f : Fin n → K) {i : ℕ} (h : i < n) :
    nth (Array.ofFn f) i = f ⟨i, h⟩ := by
  simp [nth_eq_getD, h]

/-- Two or more equally spaced numbers divide the range into equal parts. -/
theorem nth_linspace (a b : K) {n i : ℕ} (hn : 1 < n) (hi : i < n) :
    nth (Scalar.linspace a b n) i = a + (b - a) / ((n - 1 : ℕ) : K) * i := by
  unfold Scalar.linspace
  rw [nth_ofFn _ hi, if_pos hn]
  rfl

/-- A list increases when every member is below the one after it. -/
theorem increasing_list_iff (xs : List K) :
    Scalar.increasing xs = true ↔ ∀ i, i + 1 < xs.length → xs.getD i 0 < xs.getD (i + 1) 0 := by
  induction xs with
  | nil => simp [Scalar.increasing]
  | cons x xs ih =>
      cases xs with
      | nil => simp [Scalar.increasing]
      | cons y rest =>
          have hstep : Scalar.increasing (x :: y :: rest) = true ↔
              x < y ∧ Scalar.increasing (y :: rest) = true := by
            simp [Scalar.increasing]
          rw [hstep, ih]
          constructor
          · rintro ⟨hxy, hrest⟩ i hi
            cases i with
            | zero => simpa using hxy
            | succ i => simpa using hrest i (by simpa using hi)
          · intro h
            refine ⟨by simpa using h 0 (by simp), fun i hi ↦ ?_⟩
            simpa using h (i + 1) (by simpa using hi)

/-- An array increases when every entry is below the one after it. -/
theorem increasing_iff (xs : Array K) :
    Scalar.increasing xs.toList = true ↔ ∀ i, i + 1 < xs.size → nth xs i < nth xs (i + 1) := by
  rw [increasing_list_iff]
  simp [nth_eq_getD, Array.getD_eq_getD_getElem?, List.getD_eq_getElem?_getD]

/-- Collecting the range of more members widens it as far as they reach. -/
theorem exists_range_from (xs : List K) (lower upper : K) : ∃ l u,
    xs.foldl (fun seen x ↦ if Scalar.isNaN x then seen
      else match seen with
        | none => some (x, x)
        | some (lower, upper) => some (Scalar.min lower x, Scalar.max upper x))
      (some (lower, upper)) = some (l, u) ∧
    l ≤ lower ∧ upper ≤ u ∧ (∀ x ∈ xs, l ≤ x ∧ x ≤ u) ∧ (l = lower ∨ l ∈ xs) ∧
      (u = upper ∨ u ∈ xs) := by
  induction xs generalizing lower upper with
  | nil => exact ⟨lower, upper, rfl, le_rfl, le_rfl, by simp, .inl rfl, .inl rfl⟩
  | cons x xs ih =>
      obtain ⟨l, u, hfold, hl, hu, hall, hl', hu'⟩ := ih (min lower x) (max upper x)
      refine ⟨l, u, ?_, hl.trans (min_le_left _ _), (le_max_left _ _).trans hu, ?_, ?_, ?_⟩
      · rw [List.foldl_cons, isNaN_eq_false]
        simpa using hfold
      · intro y hy
        rcases List.mem_cons.mp hy with rfl | hy
        · exact ⟨hl.trans (min_le_right _ _), (le_max_right _ _).trans hu⟩
        · exact hall y hy
      · rcases hl' with rfl | hl'
        · rcases min_choice lower x with h | h
          · exact .inl h
          · exact .inr (List.mem_cons.mpr (.inl h))
        · exact .inr (List.mem_cons_of_mem _ hl')
      · rcases hu' with rfl | hu'
        · rcases max_choice upper x with h | h
          · exact .inl h
          · exact .inr (List.mem_cons.mpr (.inl h))
        · exact .inr (List.mem_cons_of_mem _ hu')

/-- The range of a list that is not empty goes from its least to its greatest member. -/
theorem exists_range {xs : List K} (h : xs ≠ []) : ∃ l u, Scalar.range? xs = some (l, u) ∧
    (∀ x ∈ xs, l ≤ x ∧ x ≤ u) ∧ l ∈ xs ∧ u ∈ xs := by
  obtain ⟨x, xs, rfl⟩ := List.exists_cons_of_ne_nil h
  obtain ⟨l, u, hfold, hl, hu, hall, hl', hu'⟩ := exists_range_from xs x x
  refine ⟨l, u, ?_, ?_, ?_, ?_⟩
  · unfold Scalar.range?
    rw [List.foldl_cons, isNaN_eq_false]
    exact hfold
  · intro y hy
    rcases List.mem_cons.mp hy with rfl | hy
    · exact ⟨hl, hu⟩
    · exact hall y hy
  · rcases hl' with rfl | hl'
    · exact List.mem_cons_self
    · exact List.mem_cons_of_mem _ hl'
  · rcases hu' with rfl | hu'
    · exact List.mem_cons_self
    · exact List.mem_cons_of_mem _ hu'

/-- Two members that bound all others are the range. -/
theorem range?_eq_some {xs : List K} {l u : K} (hl : l ∈ xs) (hu : u ∈ xs)
    (h : ∀ x ∈ xs, l ≤ x ∧ x ≤ u) : Scalar.range? xs = some (l, u) := by
  obtain ⟨l', u', hrange, hall, hl', hu'⟩ := exists_range (List.ne_nil_of_mem hl)
  rw [hrange, le_antisymm (hall l hl).1 (h l' hl').1, le_antisymm (h u' hu').2 (hall u hu).2]

end PlasmaField.Exact
