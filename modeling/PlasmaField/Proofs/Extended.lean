import Mathlib
import PlasmaField.Proofs.Elementary

/-!
# Exact scalars with infinities and undefined results

Over an ordered field every operation has a number as its result. `Extended K` adds to the numbers
of `K` what double precision has besides them: the two infinities and the results of undefined
operations, which a division by zero or a comparison may meet. There is no rounding, no number is
too large, and zero has no sign and counts as positive. Products have the laws of a commutative
monoid, and a quotient is a product with the inverse, `div_eq_mul_inv`. The numbers and infinities
are ordered as the line that these two close, `le_iff` and `lt_iff`; an undefined result is never
equal to, below or above anything.
-/

namespace PlasmaField

/-- A number, or what lies beyond the numbers: an infinity by its sign, or with sign zero the result
of an undefined operation. -/
inductive Extended (K : Type) where
  | finite (x : K)
  | beyond (sign : SignType)

namespace Extended

open scoped Exact

variable {K : Type} [Field K] [LinearOrder K] [FloorRing K]

/-- The sign of an infinity turns round. -/
instance : Neg (Extended K) where
  neg
    | finite x => finite (-x)
    | beyond s => beyond (-s)

/-- An infinity stays when a number is added to it, and infinities of different signs have no
sum. -/
instance : Add (Extended K) where
  add
    | finite x, finite y => finite (x + y)
    | finite _, beyond t => beyond t
    | beyond s, finite _ => beyond s
    | beyond s, beyond t => if s = t then beyond s else beyond 0

/-- Differences are sums with the negative. -/
instance : Sub (Extended K) where
  sub a b := a + -b

/-- The sign of the product of a number and an infinity is that of both, so that zero times an
infinity is undefined. -/
instance : Mul (Extended K) where
  mul
    | finite x, finite y => finite (x * y)
    | finite x, beyond t => beyond (SignType.sign x * t)
    | beyond s, finite y => beyond (s * SignType.sign y)
    | beyond s, beyond t => beyond (s * t)

/-- The inverse of zero is the positive infinity, and that of an infinity is zero. -/
instance : Inv (Extended K) where
  inv
    | finite x => if x = 0 then beyond 1 else finite x⁻¹
    | beyond s => if s = 0 then beyond 0 else finite 0

/-- Quotients are products with the inverse. -/
instance : Div (Extended K) where
  div a b := a * b⁻¹

/-- Strict comparisons with the result of an undefined operation fail. -/
instance : LT (Extended K) where
  lt
    | finite x, finite y => x < y
    | finite _, beyond t => t = 1
    | beyond s, finite _ => s = -1
    | beyond s, beyond t => s = -1 ∧ t = 1

/-- Comparisons that admit equality fail with such a result as well. -/
instance : LE (Extended K) where
  le
    | finite x, finite y => x ≤ y
    | finite _, beyond t => t = 1
    | beyond s, finite _ => s = -1
    | beyond s, beyond t => s ≠ 0 ∧ t ≠ 0 ∧ s ≤ t

/-- The result of an undefined operation is not equal to itself. -/
instance : BEq (Extended K) where
  beq
    | finite x, finite y => x = y
    | beyond s, beyond t => s = t ∧ s ≠ 0
    | _, _ => false

/-- Decimal literals are numbers. -/
instance : OfScientific (Extended K) where
  ofScientific mantissa negative exponent :=
    finite (OfScientific.ofScientific mantissa negative exponent)

/-- Strict comparison is decided as in the field and by the signs of infinities. -/
instance : DecidableLT (Extended K)
  | finite x, finite y => inferInstanceAs (Decidable (x < y))
  | finite _, beyond t => inferInstanceAs (Decidable (t = 1))
  | beyond s, finite _ => inferInstanceAs (Decidable (s = -1))
  | beyond s, beyond t => inferInstanceAs (Decidable (s = -1 ∧ t = 1))

/-- Comparison is decided as in the field and by the signs of infinities. -/
instance : DecidableLE (Extended K)
  | finite x, finite y => inferInstanceAs (Decidable (x ≤ y))
  | finite _, beyond t => inferInstanceAs (Decidable (t = 1))
  | beyond s, finite _ => inferInstanceAs (Decidable (s = -1))
  | beyond s, beyond t => inferInstanceAs (Decidable (s ≠ 0 ∧ t ≠ 0 ∧ s ≤ t))

/-- Extended scalars: numbers are computed with as in the field. -/
instance : Scalar (Extended K) where
  decidableLT := inferInstance
  decidableLE := inferInstance
  ofNat n := finite n
  abs
    | finite x => finite |x|
    | beyond s => beyond (s * s)
  isFinite
    | finite _ => true
    | beyond _ => false
  nearest
    | finite x => Scalar.nearest x
    | beyond _ => 0
  natural?
    | finite x => Scalar.natural? x
    | beyond _ => none
  remainder
    | finite x, finite m => if m = 0 then beyond 0 else finite (Scalar.remainder x m)
    | finite x, beyond t => if t = 0 then beyond 0 else finite x
    | beyond _, _ => beyond 0

/-- Extended scalars with the elementary functions of the real numbers. Where these are not defined,
or have no limit, the result is undefined. -/
noncomputable instance : ElementaryScalar (Extended ℝ) where
  sqrt
    | finite x => if 0 ≤ x then finite √x else beyond 0
    | beyond s => if s = 1 then beyond 1 else beyond 0
  sin
    | finite x => finite (Real.sin x)
    | beyond _ => beyond 0
  cos
    | finite x => finite (Real.cos x)
    | beyond _ => beyond 0
  log
    | finite x => if 0 < x then finite (Real.log x) else if x = 0 then beyond (-1) else beyond 0
    | beyond s => if s = 1 then beyond 1 else beyond 0
  pi := finite Real.pi

/-! ## Literals -/

/-- The literal one of the scalars is the number one. -/
theorem literal_one : @OfNat.ofNat (Extended K) 1 (Scalar.instOfNat 1) = finite 1 :=
  congrArg finite Nat.cast_one

/-- The literal zero of the scalars is the number zero. -/
theorem literal_zero : @OfNat.ofNat (Extended K) 0 (Scalar.instOfNat 0) = finite 0 :=
  congrArg finite Nat.cast_zero

section Product

omit [FloorRing K]

/-! ## Products and quotients -/

/-- The product of numbers is that of the field. -/
@[simp]
theorem finite_mul_finite (x y : K) : finite x * finite y = finite (x * y) :=
  rfl

/-- A number times an infinity is the infinity with the sign of both. -/
@[simp]
theorem finite_mul_beyond (x : K) (t : SignType) :
    finite x * beyond t = beyond (SignType.sign x * t) :=
  rfl

/-- An infinity times a number is the infinity with the sign of both. -/
@[simp]
theorem beyond_mul_finite (s : SignType) (y : K) :
    beyond s * finite y = beyond (s * SignType.sign y) :=
  rfl

/-- The signs of infinities are multiplied. -/
@[simp]
theorem beyond_mul_beyond (s t : SignType) : (beyond s * beyond t : Extended K) = beyond (s * t) :=
  rfl

/-- Division multiplies by the inverse. -/
theorem div_eq_mul_inv (a b : Extended K) : a / b = a * b⁻¹ :=
  rfl

omit [LinearOrder K] in
/-- Differences of numbers. -/
theorem finite_sub_finite (x y : K) : finite x - finite y = finite (x - y) :=
  congrArg finite (sub_eq_add_neg x y).symm

/-- Division by a number that is not zero. -/
theorem finite_div_finite (x : K) {y : K} (hy : y ≠ 0) : finite x / finite y = finite (x / y) := by
  have hinverse : (finite y)⁻¹ = finite y⁻¹ := if_neg hy
  rw [div_eq_mul_inv, hinverse, finite_mul_finite, division_def]

variable [IsStrictOrderedRing K]

/-- Products do not depend on the order or the grouping of their factors. -/
instance : CommMonoid (Extended K) where
  one := finite 1
  mul_assoc a b c := by
    cases a <;> cases b <;> cases c <;> simp [sign_mul, mul_assoc]
  mul_comm a b := by
    cases a <;> cases b <;> simp [mul_comm]
  one_mul a := by
    show finite 1 * a = a
    cases a <;> simp
  mul_one a := by
    show a * finite 1 = a
    cases a <;> simp

end Product

/-- The unbounded scalar is the positive infinity. -/
theorem infinity_eq [IsStrictOrderedRing K] : (Scalar.infinity : Extended K) = beyond 1 := by
  have hinverse : (finite 0 : Extended K)⁻¹ = beyond 1 := if_pos rfl
  show @OfNat.ofNat (Extended K) 1 (Scalar.instOfNat 1) /
    @OfNat.ofNat (Extended K) 0 (Scalar.instOfNat 0) = _
  rw [literal_one, literal_zero, div_eq_mul_inv, hinverse]
  simp

/-! ## Numbers -/

/-- The number that a scalar is; zero if it is none. -/
def number : Extended K → K
  | finite x => x
  | beyond _ => 0

/-- The entries of an array are finite when it is an array of numbers. -/
theorem all_isFinite_iff {xs : Array (Extended K)} :
    xs.all Scalar.isFinite = true ↔ ∃ numbers : Array K, xs = numbers.map finite := by
  constructor
  · intro h
    refine ⟨xs.map number, Array.ext (by simp) fun i hi _ ↦ ?_⟩
    have hfinite := Array.all_eq_true.mp h i hi
    rw [Array.getElem_map, Array.getElem_map]
    cases hx : xs[i] with
    | finite v => rfl
    | beyond s =>
        rw [hx] at hfinite
        cases hfinite
  · rintro ⟨numbers, rfl⟩
    rw [Array.all_map]
    exact Array.all_eq_true.mpr fun _ _ ↦ rfl

/-- The entries of an array of numbers. -/
theorem nth_map_finite (xs : Array K) (i : ℕ) :
    Scalar.nth (xs.map finite) i = finite (Scalar.nth xs i) := by
  unfold Scalar.nth
  rw [literal_zero, Exact.literal_zero]
  simp [Array.getD_eq_getD_getElem?, Option.getD_map]

/-- Numbers increase as they do in the field. -/
theorem increasing_map_finite (xs : List K) :
    Scalar.increasing (xs.map finite) = Scalar.increasing xs := by
  induction xs with
  | nil => rfl
  | cons x xs ih =>
      cases xs with
      | nil => rfl
      | cons y rest => exact congrArg₂ (· && ·) rfl ih

/-! ## Order -/

section Order

/-- Numbers and infinities are no results of undefined operations. -/
theorem isNaN_eq_false_iff {a : Extended K} : Scalar.isNaN a = false ↔ a ≠ beyond 0 := by
  cases a with
  | finite x =>
      show (!decide (x = x)) = false ↔ _
      simp
  | beyond s =>
      show (!decide (s = s ∧ s ≠ 0)) = false ↔ _
      simp

/-- A value without its sign is the result of an undefined operation just if the value is. -/
theorem isNaN_abs (a : Extended K) : Scalar.isNaN (Scalar.abs a) = Scalar.isNaN a := by
  cases a with
  | finite x =>
      show (!decide (|x| = |x|)) = !decide (x = x)
      simp
  | beyond s =>
      show (!decide (s * s = s * s ∧ s * s ≠ 0)) = !decide (s = s ∧ s ≠ 0)
      simp

section Place

omit [Field K] [FloorRing K]

/-- The place on the line of numbers closed by its two infinities. The result of an undefined
operation has none of its own. -/
def place : Extended K → WithBot (WithTop K)
  | finite x => (x : WithTop K)
  | beyond s => if s = -1 then ⊥ else (⊤ : WithTop K)

omit [LinearOrder K] in
/-- A number has its own place. -/
@[simp]
theorem place_finite (x : K) : place (finite x) = (x : WithTop K) :=
  rfl

/-- Numbers and infinities are compared by their places. -/
theorem le_iff {a b : Extended K} : a ≤ b ↔ a ≠ beyond 0 ∧ b ≠ beyond 0 ∧ a.place ≤ b.place := by
  cases a with
  | finite x =>
      cases b with
      | finite y =>
          show x ≤ y ↔ _
          simp
      | beyond t =>
          show t = 1 ↔ _
          cases t <;> simp [place]
  | beyond s =>
      cases b with
      | finite y =>
          show s = -1 ↔ _
          cases s <;> simp [place]
      | beyond t =>
          show s ≠ 0 ∧ t ≠ 0 ∧ s ≤ t ↔ _
          cases s <;> cases t <;> simp [place]

/-- Strict comparison is by the places, too. -/
theorem lt_iff {a b : Extended K} : a < b ↔ a ≠ beyond 0 ∧ b ≠ beyond 0 ∧ a.place < b.place := by
  cases a with
  | finite x =>
      cases b with
      | finite y =>
          show x < y ↔ _
          simp
      | beyond t =>
          show t = 1 ↔ _
          cases t <;> simp [place, lt_top_iff_ne_top]
  | beyond s =>
      cases b with
      | finite y =>
          show s = -1 ↔ _
          cases s <;> simp [place]
      | beyond t =>
          show s = -1 ∧ t = 1 ↔ _
          cases s <;> cases t <;> simp [place]

/-- A scalar below another one is at most as great. -/
theorem le_of_lt {a b : Extended K} (h : a < b) : a ≤ b := by
  obtain ⟨ha, hb, hplace⟩ := lt_iff.mp h
  exact le_iff.mpr ⟨ha, hb, hplace.le⟩

/-- Comparison is transitive. -/
theorem le_trans {a b c : Extended K} (hab : a ≤ b) (hbc : b ≤ c) : a ≤ c := by
  obtain ⟨ha, -, hplace⟩ := le_iff.mp hab
  obtain ⟨-, hc, hplace'⟩ := le_iff.mp hbc
  exact le_iff.mpr ⟨ha, hc, hplace.trans hplace'⟩

end Place

/-- What is no undefined result is at least as great as itself. -/
theorem le_self {a : Extended K} (h : Scalar.isNaN a = false) : a ≤ a := by
  rw [isNaN_eq_false_iff] at h
  exact le_iff.mpr ⟨h, h, le_rfl⟩

/-- Of two scalars that are no undefined results, the first is below the second or at least as
great. -/
theorem le_of_not_lt {a b : Extended K} (ha : Scalar.isNaN a = false) (hb : Scalar.isNaN b = false)
    (h : ¬ a < b) : b ≤ a := by
  rw [isNaN_eq_false_iff] at ha hb
  rw [lt_iff, not_and, not_and, not_lt] at h
  exact le_iff.mpr ⟨hb, ha, h ha hb⟩

end Order

end Extended

end PlasmaField
