import Mathlib
import PlasmaField.Proofs.Exact

/-!
# Embeddings of exact scalars

An embedding of one ordered field into another keeps sums, products and the order, and with them
every rounding, comparison and constant of the computations. What the library computes over the
rational numbers, where it can be evaluated, is therefore also what it computes over the reals. The
lemmas below carry the conventions of `Scalar` along an embedding; those for data structures build
on them.
-/

namespace PlasmaField.Exact

variable {K L : Type} [Field K] [LinearOrder K] [FloorRing K] [Field L] [LinearOrder L]
  [FloorRing L] (f : K →+* L)

/-- The image of the spacing of doubles just above one. -/
@[simp]
theorem map_epsilon : f Scalar.epsilon = Scalar.epsilon := by
  unfold Scalar.epsilon
  -- the powers are not to be computed
  generalize 52 = exponent
  simp only [literal_one, ofNat_eq, map_div₀, map_one, map_natCast]

/-- The image of the smallest normal double. -/
@[simp]
theorem map_tiny : f Scalar.tiny = Scalar.tiny := by
  unfold Scalar.tiny
  generalize 1022 = exponent
  simp only [literal_one, ofNat_eq, map_div₀, map_one, map_natCast]

/-- The image of what stands for the unbounded scalar. -/
@[simp]
theorem map_infinity : f Scalar.infinity = Scalar.infinity := by
  unfold Scalar.infinity
  simp only [literal_one, literal_zero, map_div₀, map_one, map_zero]

omit [FloorRing K] [FloorRing L] in
/-- The image of a decimal constant. -/
theorem map_decimal [IsStrictOrderedRing K] [IsStrictOrderedRing L] (mantissa exponent : ℕ) :
    f (OfScientific.ofScientific mantissa true exponent) =
      OfScientific.ofScientific mantissa true exponent := by
  rw [decimal_eq, decimal_eq, map_div₀, map_natCast, map_pow, map_ofNat]

variable {f} (hf : StrictMono f)
include hf

omit [FloorRing K] [FloorRing L] in
/-- Comparisons with an image of zero. -/
theorem map_lt_zero_iff {x : K} : f x < 0 ↔ x < 0 := by
  rw [← map_zero f, hf.lt_iff_lt]

omit [FloorRing K] [FloorRing L] in
/-- Comparisons with an image of zero. -/
theorem zero_lt_map_iff {x : K} : 0 < f x ↔ 0 < x := by
  rw [← map_zero f, hf.lt_iff_lt]

/-- The magnitude of an image. -/
theorem abs_map (x : K) : Scalar.abs (f x) = f (Scalar.abs x) := by
  show |f x| = f |x|
  rw [abs, abs, ← map_neg, ← hf.monotone.map_sup]

/-- The smaller one of two images. -/
theorem min_map (x y : K) : Scalar.min (f x) (f y) = f (Scalar.min x y) := by
  rw [min_eq, min_eq, hf.monotone.map_min]

/-- The larger one of two images. -/
theorem max_map (x y : K) : Scalar.max (f x) (f y) = f (Scalar.max x y) := by
  rw [max_eq, max_eq, hf.monotone.map_max]

/-- An image lies between images when the scalar lies between the ends. -/
theorem within_map (lower upper x : K) :
    Scalar.within (f lower) (f upper) (f x) = Scalar.within lower upper x := by
  unfold Scalar.within
  simp only [hf.le_iff_le]

/-- The cut whole part of an image. -/
theorem floorUpTo_map (limit : ℕ) (x : K) :
    Scalar.floorUpTo limit (f x) = Scalar.floorUpTo limit x := by
  unfold Scalar.floorUpTo
  refine List.countP_congr fun k _ ↦ ?_
  rw [ofNat_eq, ofNat_eq, decide_eq_true_eq, decide_eq_true_eq, ← map_natCast f, hf.le_iff_le]

/-- The whole number nearest to an image. -/
theorem nearest_map [IsStrictOrderedRing K] [IsStrictOrderedRing L] (x : K) :
    Scalar.nearest (f x) = Scalar.nearest x := by
  have hround : ∀ y : K, round (f y) = round y := fun y ↦ by
    rw [round_eq, round_eq, ← Int.map_floor f hf, map_add, map_div₀, map_one, map_ofNat]
  show (if 0 ≤ f x then round (f x) else -round (-f x)) =
    if 0 ≤ x then round x else -round (-x)
  rw [← map_zero f, ← map_neg, hround, hround]
  simp only [hf.le_iff_le]

/-- The range of a list of images. -/
theorem range?_map (xs : List K) :
    Scalar.range? (xs.map f) = (Scalar.range? xs).map (Prod.map f f) := by
  unfold Scalar.range?
  rw [List.foldl_map, ← Option.map_none (Prod.map f f)]
  refine List.foldl_hom _ fun seen x ↦ ?_
  rw [isNaN_eq_false, isNaN_eq_false]
  cases seen with
  | none => rfl
  | some range => exact congrArg some (Prod.ext (min_map hf range.1 x) (max_map hf range.2 x))

end PlasmaField.Exact
