import Mathlib
import PlasmaField.Equilibrium.Regridded
import PlasmaField.Proofs.Binary64.Remainder
import PlasmaField.Proofs.Harmonics

/-!
# Angles in double precision

The angles that divide the closed turn are multiples of a rounded step, and the last one is not set
to a full turn. It is not below a full turn for up to 75 angles, `turn_le_angle`, but it is with 76,
`angle_lt_turn`. A wrapped angle lies between zero and a full turn, both included: the sum of a
small negative remainder and a full turn is rounded to a full turn, `turn_le_wrap`.

None of this depends on the elementary functions, which double precision leaves to the platform.
-/

namespace PlasmaField

open Scalar (nth)
open Float.Model (UnpackedFloat)
open Float.Model.Format (binary64)

namespace Binary64

/-- The elementary functions of a platform. Double precision fixes the four operations, the
comparisons and the square root, but not these. -/
class Platform where
  sin : Float → Float
  cos : Float → Float
  log : Float → Float

/-- Double precision scalars with the elementary functions of a platform. -/
scoped instance (priority := 2000) platformScalar [Platform] : ElementaryScalar Float where
  toScalar := instElementaryScalarFloat.toScalar
  sqrt := Float.sqrt
  sin := Platform.sin
  cos := Platform.cos
  log := Platform.log
  pi := 3.141592653589793

/-- A full turn in double precision. -/
def turn : Float := 2 * 3.141592653589793

/-- Toroidal angle `i` of `n` in double precision. -/
def angle (n i : ℕ) : Float :=
  0 + (turn - 0) / Float.ofNat (n - 1) * Float.ofNat i

/-- A full turn is a positive double. -/
theorem turn_pos : turn.isFinite = true ∧ 0 < value turn := by
  decide +kernel

/-- A product with zero is a zero, or the result of an undefined operation. -/
theorem unpack_mul_zero (x : Float) : (∃ sign, (x * Float.ofNat 0).toModel.unpack = .zero sign) ∨
    (x * Float.ofNat 0).toModel.unpack = .notANumber := by
  have hpack : (x * Float.ofNat 0).toModel =
      Float.Model.pack (UnpackedFloat.mul binary64 x.toModel.unpack (.zero .positive)) := rfl
  have hzero : ∀ sign, (Float.Model.pack (.zero sign)).unpack = .zero sign :=
    fun sign ↦ unpack_pack (u := .zero sign) trivial
  have hnone : (Float.Model.pack .notANumber).unpack = .notANumber := rfl
  rw [hpack]
  cases x.toModel.unpack with
  | infinity sign => exact .inr hnone
  | notANumber => exact .inr hnone
  | zero sign => exact .inl ⟨_, hzero _⟩
  | finite sign m e hm => exact .inl ⟨_, hzero _⟩

/-- The first angle is zero if it is finite. -/
theorem value_angle_zero {n : ℕ} (h : (angle n 0).isFinite = true) : value (angle n 0) = 0 := by
  obtain ⟨hfinite₀, hvalue₀⟩ := value_zero
  let product : Float := (turn - 0) / Float.ofNat (n - 1) * Float.ofNat 0
  have hangle : angle n 0 = 0 + product := rfl
  rcases unpack_mul_zero ((turn - 0) / Float.ofNat (n - 1)) with ⟨sign, hzero⟩ | hnone
  · have hfinite : product.isFinite = true :=
      isFinite_of_canonical (x := product) (hzero ▸ trivial)
    have hvalue : value product = 0 := congrArg valueOf hzero
    have hsum : value 0 + value product = 0 := by rw [hvalue₀, hvalue, add_zero]
    obtain ⟨-, hlow, hhigh⟩ := value_add_le hfinite₀ hfinite hfinite₀ hsum.ge
      (hsum.trans hvalue₀.symm).le
    rw [hangle]
    exact le_antisymm (hhigh.trans hvalue₀.le) hlow
  · have hsum : (0 + product).toModel = Float.Model.pack
        (UnpackedFloat.add binary64 (.zero .positive) product.toModel.unpack) := rfl
    have hunpack : (angle n 0).toModel.unpack = .notANumber := by
      rw [hangle, hsum, show product.toModel.unpack = .notANumber from hnone]
      rfl
    have hfalse : (angle n 0).toModel.unpack.isFinite = true := h
    rw [hunpack] at hfalse
    cases hfalse

/-- The greatest number of angles up to which no last angle is below a full turn. -/
theorem turn_le_angle {n : ℕ} (hn : 2 ≤ n) (hn' : n ≤ 75) : turn ≤ angle n (n - 1) := by
  have hall : ∀ n ≤ 75, 2 ≤ n → turn ≤ angle n (n - 1) := by
    decide +kernel
  exact hall n hn' hn

/-- With 76 angles the last one is below a full turn. -/
theorem angle_lt_turn : angle 76 75 < turn := by
  decide +kernel

variable [Platform]

/-- The toroidal angles of the field computations. -/
theorem nth_closedAngles_eq {n i : ℕ} (hn : n ≠ 1) (hi : i < n) :
    nth (closedAngles n : Array Float) i = angle n i := by
  have hlinspace : (closedAngles n : Array Float) = Scalar.linspace 0 turn n := if_neg hn
  have hstep : (if 1 < n then (turn - 0) / Scalar.ofNat (n - 1) else 0 : Float) =
      (turn - 0) / Float.ofNat (n - 1) := if_pos (by omega)
  have hget : (Scalar.linspace 0 turn n : Array Float)[i]? =
      some (0 + (if 1 < n then (turn - 0) / Scalar.ofNat (n - 1) else 0 : Float) *
        Float.ofNat i) := by
    unfold Scalar.linspace
    simp [hi]
    rfl
  unfold nth
  rw [hlinspace, Array.getD_eq_getD_getElem?, hget, hstep]
  rfl

/-- The toroidal angles are finite if they pass the check of an axis. -/
theorem isFinite_angle {n i : ℕ} (hn : n ≠ 1) (hi : i < n)
    (h : (closedAngles n : Array Float).all Scalar.isFinite = true) :
    (angle n i).isFinite = true := by
  have hsize : i < (closedAngles n : Array Float).size := hi.trans_eq (size_closedAngles n).symm
  have hget : nth (closedAngles n : Array Float) i = (closedAngles n)[i] := by
    unfold nth
    rw [Array.getD_eq_getD_getElem?, Array.getElem?_eq_getElem hsize, Option.getD_some]
  rw [← nth_closedAngles_eq hn hi, hget]
  exact (Array.all_eq_true.mp h) i hsize

/-- A finite angle is wrapped into the range from zero to a full turn, both included. -/
theorem wrap_fullTurn_mem {phi : Float} (h : phi.isFinite = true) :
    (Scalar.wrap RegriddedField.fullTurn phi : Float).isFinite = true ∧
      0 ≤ value (Scalar.wrap RegriddedField.fullTurn phi) ∧
      value (Scalar.wrap RegriddedField.fullTurn phi) ≤ value turn :=
  wrap_mem h turn_pos.1 turn_pos.2

/-- A small negative angle is wrapped to a full turn. -/
theorem turn_le_wrap : (-1e-300 : Float).isFinite = true ∧
    turn ≤ Scalar.wrap RegriddedField.fullTurn (-1e-300) := by
  have hwrap : (-1e-300 : Float).isFinite = true ∧
      turn ≤ @Scalar.wrap Float instElementaryScalarFloat.toScalar turn (-1e-300) := by
    decide +kernel
  exact hwrap

/-- A double lies in a closed range when it is between the ends. -/
theorem within_iff {lower upper x : Float} :
    Scalar.within lower upper x = true ↔ lower ≤ x ∧ x ≤ upper := by
  unfold Scalar.within
  rw [Bool.and_eq_true, decide_eq_true_eq, decide_eq_true_eq]

end Binary64

end PlasmaField
