import Mathlib
import PlasmaField.Proofs.Extended

/-!
# Zero as a coefficient

An absent coefficient counts as zero, and a sum should not change for it. The two classes below say
which laws this takes, since a type of scalars has none by itself: `OrdinaryZero`, that zero is a
number like others, and `NeutralZero`, that the terms of a harmonic series with the coefficient zero
add nothing. Both hold in exact arithmetic, with or without infinities and undefined results.
-/

namespace PlasmaField

open scoped Exact Elementary

/-- Zero equals itself and is finite. -/
class OrdinaryZero (α : Type) [Scalar α] : Prop where
  beq_self : ((0 : α) == 0) = true
  isFinite : Scalar.isFinite (0 : α) = true

/-- A scalar that sums, differences and products with it give back, as the result of an undefined
operation. -/
structure Absorbing {α : Type} [Scalar α] (u : α) : Prop where
  add_left : ∀ x : α, u + x = u
  add_right : ∀ x : α, x + u = u
  sub_left : ∀ x : α, u - x = u
  sub_right : ∀ x : α, x - u = u
  mul_left : ∀ x : α, u * x = u
  mul_right : ∀ x : α, x * u = u

/-- Zero adds nothing, and products of finite scalars with it are zero. Sines and cosines are finite
for finite angles and undefined for all others, which a product with an infinite factor is. -/
class NeutralZero (α : Type) [ElementaryScalar α] : Prop extends OrdinaryZero α where
  add_zero : ∀ x : α, x + 0 = x
  sub_zero : (0 : α) - 0 = 0
  zero_mul : ∀ x : α, Scalar.isFinite x = true → 0 * x = 0
  mul_zero : ∀ x : α, Scalar.isFinite x = true → x * 0 = 0
  isFinite_neg : ∀ x : α, Scalar.isFinite (-x) = Scalar.isFinite x
  isFinite_left : ∀ x y : α, Scalar.isFinite (x * y) = true → Scalar.isFinite x = true
  isFinite_sin : ∀ x : α, Scalar.isFinite x = true →
    Scalar.isFinite (ElementaryScalar.sin x) = true
  isFinite_cos : ∀ x : α, Scalar.isFinite x = true →
    Scalar.isFinite (ElementaryScalar.cos x) = true
  absorbing_sin : ∀ x : α, Scalar.isFinite x = false → Absorbing (ElementaryScalar.sin x)
  absorbing_cos : ∀ x : α, Scalar.isFinite x = false → Absorbing (ElementaryScalar.cos x)

/-- The zero of exact scalars is ordinary. -/
instance {K : Type} [Field K] [LinearOrder K] [FloorRing K] : OrdinaryZero K where
  beq_self := beq_self_eq_true _
  isFinite := rfl

/-- The zero of the real numbers is neutral: all scalars are finite. -/
instance : NeutralZero ℝ where
  add_zero x := by
    rw [Exact.literal_zero]
    exact add_zero x
  sub_zero := by
    rw [Exact.literal_zero]
    exact sub_zero (0 : ℝ)
  zero_mul x _ := by
    rw [Exact.literal_zero]
    exact zero_mul x
  mul_zero x _ := by
    rw [Exact.literal_zero]
    exact mul_zero x
  isFinite_neg _ := rfl
  isFinite_left _ _ _ := rfl
  isFinite_sin _ _ := rfl
  isFinite_cos _ _ := rfl
  absorbing_sin _ h := nomatch h
  absorbing_cos _ h := nomatch h

namespace Extended

variable {K : Type} [Field K] [LinearOrder K] [FloorRing K]

/-- The zero of the extended scalars is ordinary. -/
instance : OrdinaryZero (Extended K) where
  beq_self := by rw [literal_zero]; exact decide_eq_true rfl
  isFinite := by rw [literal_zero]; rfl

/-- Undefined results are absorbing. -/
theorem absorbing_undefined : Absorbing (beyond 0 : Extended K) := by
  have hsum : ∀ x : Extended K, beyond 0 + x = beyond 0 ∧ x + beyond 0 = beyond 0 := by
    rintro (_ | s)
    · exact ⟨rfl, rfl⟩
    · refine ⟨ite_self _, ?_⟩
      show (if s = 0 then beyond s else beyond 0 : Extended K) = beyond 0
      split
      next h => rw [h]
      next => rfl
  exact {
    add_left := fun x ↦ (hsum x).1
    add_right := fun x ↦ (hsum x).2
    sub_left := fun x ↦ (hsum (-x)).1
    sub_right := fun x ↦ (hsum x).2
    mul_left := fun x ↦ by cases x <;> simp
    mul_right := fun x ↦ by cases x <;> simp }

/-- A scalar is finite if it is a number. -/
theorem isFinite_iff {x : Extended K} : Scalar.isFinite x = true ↔ ∃ v, x = finite v := by
  cases x with
  | finite v => exact iff_of_true rfl ⟨v, rfl⟩
  | beyond s => exact iff_of_false Bool.false_ne_true fun ⟨_, h⟩ ↦ nomatch h

/-- The zero of the extended real numbers is neutral. -/
instance : NeutralZero (Extended ℝ) where
  add_zero x := by
    rw [literal_zero]
    cases x with
    | finite v => exact congrArg finite (add_zero v)
    | beyond s => rfl
  sub_zero := by
    rw [literal_zero]
    exact (finite_sub_finite 0 0).trans (congrArg finite (sub_zero 0))
  zero_mul x hx := by
    obtain ⟨v, rfl⟩ := isFinite_iff.mp hx
    rw [literal_zero]
    exact congrArg finite (zero_mul v)
  mul_zero x hx := by
    obtain ⟨v, rfl⟩ := isFinite_iff.mp hx
    rw [literal_zero]
    exact congrArg finite (mul_zero v)
  isFinite_neg x := by cases x <;> rfl
  isFinite_left x y h := by
    cases x with
    | finite v => rfl
    | beyond s => cases y <;> cases h
  isFinite_sin x hx := by
    obtain ⟨v, rfl⟩ := isFinite_iff.mp hx
    rfl
  isFinite_cos x hx := by
    obtain ⟨v, rfl⟩ := isFinite_iff.mp hx
    rfl
  absorbing_sin x hx := by
    cases x with
    | finite v => cases hx
    | beyond s => exact absorbing_undefined
  absorbing_cos x hx := by
    cases x with
    | finite v => cases hx
    | beyond s => exact absorbing_undefined

end Extended

end PlasmaField
