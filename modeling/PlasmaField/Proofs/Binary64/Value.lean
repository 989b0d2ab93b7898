import Mathlib
import PlasmaField.Scalar.Binary64

/-!
# The values of doubles

A double that is finite stands for `± m · 2^e`, where the mantissa has 53 bits unless the exponent
is the least one, `canonical_unpack`. Such a form is not changed by packing it into bits and taking
it apart again, `unpack_pack`, and the comparisons of doubles are those of their values, `le_iff`
and `lt_iff`.
-/

namespace PlasmaField.Binary64

open Float.Model (UnpackedFloat)
open Float.Model.Format (binary64)
open Float.Model.UnpackedFloat (Sign unpackSign unpackExponent unpackMantissa packComponents)

/-- The value of an unpacked number; zero for infinities and for results of undefined operations. -/
def valueOf : UnpackedFloat → ℚ
  | .finite sign m e _ => sign.apply (m : ℤ) * (2 : ℚ) ^ e
  | _ => 0

/-- The value of a double. -/
def value (x : Float) : ℚ :=
  valueOf x.toModel.unpack

/-- An unpacked number in the form that the bits of a finite double have. -/
def Canonical : UnpackedFloat → Prop
  | .zero _ => True
  | .finite _ m e _ => m < 2 ^ 53 ∧ -1074 ≤ e ∧ e ≤ 971 ∧ (2 ^ 52 ≤ m ∨ e = -1074)
  | _ => False

/-! ## Bits -/

/-- The sign that a bit stands for. -/
def signOf (negative : Bool) : Sign :=
  if negative then .negative else .positive

/-- The unpacked number with the given sign, biased exponent and fraction. -/
def ofParts (sign : Sign) (biased fraction : ℕ) : UnpackedFloat :=
  if biased = 2047 then
    if fraction = 0 then .infinity sign else .notANumber
  else if biased = 0 then
    if h : fraction = 0 then .zero sign else .finite sign fraction (-1074) (Nat.pos_of_ne_zero h)
  else .finite sign (2 ^ 52 + fraction) (biased - 1075) (Nat.add_pos_left (by decide) fraction)

/-- The parts of a bit pattern. -/
theorem unpack_eq (b : BitVec binary64.numBits) : UnpackedFloat.unpack binary64 b =
    ofParts (Sign.ofBitVec (unpackSign b)) (unpackExponent b).toNat (unpackMantissa b).toNat := by
  have hzero : ∀ {w : ℕ} (v : BitVec w), v = 0#w ↔ v.toNat = 0 := fun v ↦ by
    rw [← BitVec.toNat_inj]
    simp
  have hones : ∀ v : BitVec 11, v = -1#11 ↔ v.toNat = 2047 := fun v ↦ by
    rw [← BitVec.toNat_inj]
    rfl
  have himplicit : (1#1 ++ unpackMantissa b).toNat = 2 ^ 52 + (unpackMantissa b).toNat := by
    rw [BitVec.toNat_append, ← Nat.shiftLeft_add_eq_or_of_lt (unpackMantissa b).isLt]
    simp [Nat.shiftLeft_eq]
  have hbias : (binary64.exponentBias : ℤ) + (52 : ℕ) = 1075 := by
    simp [Float.Model.Format.exponentBias]
  unfold UnpackedFloat.unpack ofParts
  simp only [hzero, hones, himplicit, hbias]
  split_ifs
  · rfl
  · rfl
  · rfl
  next hbiased _ => simp [hbiased]
  · rfl

/-- A double taken apart has the parts of its bits. -/
theorem unpack_packComponents (sign : Sign) (biased : BitVec 11) (fraction : BitVec 52) :
    UnpackedFloat.unpack binary64 (packComponents binary64 sign biased fraction) =
      ofParts sign biased.toNat fraction.toNat := by
  rw [unpack_eq, Float.Model.UnpackedFloat.unpackSign_packComponents,
    Float.Model.UnpackedFloat.unpackExponent_packComponents,
    Float.Model.UnpackedFloat.unpackMantissa_packComponents, Sign.ofBitVec_toBitVec]

/-- The parts of a normal number. -/
theorem ofParts_normal (sign : Sign) {m : ℕ} (hm : 0 < m) {e : ℤ} (hlow : 2 ^ 52 ≤ m)
    (he : -1074 ≤ e) (he' : e ≤ 971) :
    ofParts sign (e + 1075).toNat (m - 2 ^ 52) = .finite sign m e hm := by
  have hm' : 2 ^ 52 + (m - 2 ^ 52) = m := by omega
  have hbiased : ((e + 1075).toNat : ℤ) - 1075 = e := by omega
  unfold ofParts
  rw [if_neg (by omega), if_neg (by omega)]
  simp only [hm', hbiased]

/-- The parts of a number with the least exponent and a short mantissa. -/
theorem ofParts_subnormal (sign : Sign) {m : ℕ} (hm : 0 < m) :
    ofParts sign 0 m = .finite sign m (-1074) hm := by
  unfold ofParts
  rw [if_neg (by decide), if_pos rfl, dif_neg hm.ne']

/-- The bits of a finite number. -/
theorem pack_finite (sign : Sign) {m : ℕ} (hm : 0 < m) (e : ℤ) :
    UnpackedFloat.pack binary64 (.finite sign m e hm) =
      if 2 ^ 11 ≤ (e + 1075).toNat + 1 then UnpackedFloat.packedInfinity binary64 sign
      else packComponents binary64 sign
        (if m.log2 + 1 = 53 then BitVec.ofNat 11 (e + 1075).toNat else 0#11)
        (BitVec.ofNat 52 m) := by
  have hbits : binary64.mantissaBits = 53 := rfl
  have hbias : e + (binary64.exponentBias : ℤ) + (52 : ℕ) = e + 1075 := by
    simp [Float.Model.Format.exponentBias, add_assoc]
  unfold UnpackedFloat.pack
  simp only [hbits, hbias]
  split_ifs <;> rfl

/-- Packing a number in canonical form and taking it apart gives the number. -/
theorem unpack_pack {u : UnpackedFloat} (h : Canonical u) : (Float.Model.pack u).unpack = u := by
  show UnpackedFloat.unpack binary64 (UnpackedFloat.pack binary64 u) = u
  cases u with
  | infinity sign => cases h
  | notANumber => cases h
  | zero sign => exact Float.Model.UnpackedFloat.unpack_packedZero
  | finite sign m e hm =>
      obtain ⟨hlength, hlow, hhigh, hform⟩ := h
      have hinfinite : ¬ 2 ^ 11 ≤ (e + 1075).toNat + 1 := by omega
      rw [pack_finite, if_neg hinfinite, unpack_packComponents, BitVec.toNat_ofNat]
      by_cases hnormal : 2 ^ 52 ≤ m
      · have hlog : m.log2 + 1 = 53 := by
          rw [(Nat.log2_eq_iff hm.ne').mpr ⟨hnormal, hlength⟩]
        have hfraction : m % 2 ^ 52 = m - 2 ^ 52 := by omega
        have hbiased : (e + 1075).toNat < 2 ^ 11 := by omega
        rw [if_pos hlog, BitVec.toNat_ofNat, Nat.mod_eq_of_lt hbiased, hfraction]
        exact ofParts_normal sign hm hnormal hlow hhigh
      · have hlog : m.log2 + 1 ≠ 53 := by
          intro hlog
          exact hnormal ((Nat.log2_eq_iff hm.ne').mp (Nat.succ.inj hlog)).1
        obtain rfl : e = -1074 := hform.resolve_left hnormal
        rw [if_neg hlog, Nat.mod_eq_of_lt (not_le.mp hnormal)]
        exact ofParts_subnormal sign hm

/-- The parts of bits are in canonical form unless the exponent is the greatest one. -/
theorem canonical_ofParts (sign : Sign) {biased fraction : ℕ} (hbiased : biased < 2047)
    (hfraction : fraction < 2 ^ 52) : Canonical (ofParts sign biased fraction) := by
  unfold ofParts
  rw [if_neg hbiased.ne]
  split_ifs
  · trivial
  · exact ⟨by omega, le_rfl, by decide, .inr rfl⟩
  · exact ⟨by omega, by omega, by omega, .inl (by omega)⟩

/-- A finite double taken apart is in canonical form. -/
theorem canonical_unpack {x : Float} (h : x.isFinite = true) : Canonical x.toModel.unpack := by
  have hunpack : x.toModel.unpack = _ := unpack_eq x.toModel.toBits.toBitVec
  have hfinite : x.toModel.unpack.isFinite = true := h
  let bits : BitVec binary64.numBits := x.toModel.toBits.toBitVec
  let biased : BitVec 11 := unpackExponent bits
  let fraction : BitVec 52 := unpackMantissa bits
  have hbiased : biased.toNat ≤ 2047 := Nat.le_of_lt_succ biased.isLt
  rw [hunpack] at hfinite ⊢
  refine canonical_ofParts _ (lt_of_le_of_ne hbiased fun hgreatest ↦ ?_) fraction.isLt
  rw [show (unpackExponent bits).toNat = 2047 from hgreatest] at hfinite
  unfold ofParts at hfinite
  rw [if_pos rfl] at hfinite
  split_ifs at hfinite <;> cases hfinite

/-- A number in canonical form is finite. -/
theorem Canonical.isFinite {u : UnpackedFloat} (h : Canonical u) : u.isFinite = true := by
  cases u with
  | infinity sign => cases h
  | notANumber => cases h
  | zero sign => rfl
  | finite sign m e hm => rfl

/-- A double that is in canonical form when it is taken apart is finite. -/
theorem isFinite_of_canonical {x : Float} (h : Canonical x.toModel.unpack) : x.isFinite = true :=
  h.isFinite

/-- The opposite of a number in canonical form is in canonical form. -/
theorem Canonical.neg {u : UnpackedFloat} (h : Canonical u) : Canonical u.neg := by
  cases u with
  | infinity sign => cases h
  | notANumber => cases h
  | zero sign => trivial
  | finite sign m e hm => exact h

/-- The opposite of a finite double is finite. -/
theorem isFinite_neg {x : Float} (h : x.isFinite = true) : (-x).isFinite = true := by
  have hneg := (canonical_unpack h).neg
  refine isFinite_of_canonical ?_
  show Canonical (Float.Model.pack x.toModel.unpack.neg).unpack
  rwa [unpack_pack hneg]

/-! ## Order -/

/-- A number in units of a power of two that is not above its own. -/
theorem scaled_mul_zpow (m : ℕ) {e t : ℤ} (h : t ≤ e) :
    ((m * 2 ^ (e - t).toNat : ℕ) : ℚ) * 2 ^ t = m * 2 ^ e := by
  have hexponent : e = (e - t).toNat + t := by omega
  conv_rhs => rw [hexponent, zpow_add₀ two_ne_zero, zpow_natCast, ← mul_assoc]
  push_cast
  rfl

/-- The greater exponent makes the greater magnitude. -/
theorem magnitude_lt {m m' : ℕ} {e e' : ℤ} (hm : m < 2 ^ 53) (hm' : 2 ^ 52 ≤ m')
    (he : e < e') : (m : ℚ) * 2 ^ e < m' * 2 ^ e' := by
  have hpow : (0 : ℚ) < 2 ^ e := zpow_pos two_pos e
  have hstep : (2 : ℚ) ^ (e + 1) ≤ 2 ^ e' := zpow_le_zpow_right₀ one_le_two he
  calc (m : ℚ) * 2 ^ e < 2 ^ 53 * 2 ^ e := by
        refine mul_lt_mul_of_pos_right ?_ hpow
        exact_mod_cast hm
    _ = 2 ^ 52 * 2 ^ (e + 1) := by
        rw [zpow_add_one₀ two_ne_zero]
        ring
    _ ≤ m' * 2 ^ e' := by
        refine mul_le_mul ?_ hstep (zpow_pos two_pos _).le (Nat.cast_nonneg m')
        exact_mod_cast hm'

/-- Exponents and then mantissas compare like the magnitudes. -/
theorem compare_magnitude {m m' : ℕ} {e e' : ℤ} (hm : m < 2 ^ 53) (hm' : m' < 2 ^ 53)
    (he : -1074 ≤ e) (he' : -1074 ≤ e') (hform : 2 ^ 52 ≤ m ∨ e = -1074)
    (hform' : 2 ^ 52 ≤ m' ∨ e' = -1074) :
    (compare e e').then (compare m m') = compare ((m : ℚ) * 2 ^ e) (m' * 2 ^ e') := by
  rcases lt_trichotomy e e' with hlt | rfl | hgt
  · have hnormal : 2 ^ 52 ≤ m' := hform'.resolve_right (by omega)
    rw [compare_lt_iff_lt.mpr hlt, compare_lt_iff_lt.mpr (magnitude_lt hm hnormal hlt)]
    rfl
  · have hpow : (0 : ℚ) < 2 ^ e := zpow_pos two_pos e
    rw [compare_eq_iff_eq.mpr rfl]
    show compare m m' = _
    rcases lt_trichotomy m m' with hlt | rfl | hgt
    · have hmul : (m : ℚ) * 2 ^ e < m' * 2 ^ e :=
        mul_lt_mul_of_pos_right (Nat.cast_lt.mpr hlt) hpow
      rw [compare_lt_iff_lt.mpr hlt, compare_lt_iff_lt.mpr hmul]
    · rw [compare_eq_iff_eq.mpr rfl, compare_eq_iff_eq.mpr rfl]
    · have hmul : (m' : ℚ) * 2 ^ e < m * 2 ^ e :=
        mul_lt_mul_of_pos_right (Nat.cast_lt.mpr hgt) hpow
      rw [compare_gt_iff_gt.mpr hgt, compare_gt_iff_gt.mpr hmul]
  · have hnormal : 2 ^ 52 ≤ m := hform.resolve_right (by omega)
    rw [compare_gt_iff_gt.mpr hgt, compare_gt_iff_gt.mpr (magnitude_lt hm' hnormal hgt)]
    rfl

/-- Negating both sides turns a comparison around. -/
theorem compare_neg (a b : ℚ) : compare (-a) (-b) = (compare a b).swap := by
  rcases lt_trichotomy a b with hlt | rfl | hgt
  · rw [compare_lt_iff_lt.mpr hlt, compare_gt_iff_gt.mpr (neg_lt_neg hlt)]
    rfl
  · rw [compare_eq_iff_eq.mpr rfl, compare_eq_iff_eq.mpr rfl]
    rfl
  · rw [compare_gt_iff_gt.mpr hgt, compare_lt_iff_lt.mpr (neg_lt_neg hgt)]
    rfl

/-- The value of a positive number. -/
theorem valueOf_positive {m : ℕ} (hm : 0 < m) (e : ℤ) :
    valueOf (.finite .positive m e hm) = m * 2 ^ e ∧ (0 : ℚ) < m * 2 ^ e :=
  ⟨rfl, mul_pos (Nat.cast_pos.mpr hm) (zpow_pos two_pos e)⟩

/-- The value of a negative number. -/
theorem valueOf_negative {m : ℕ} (hm : 0 < m) (e : ℤ) :
    valueOf (.finite .negative m e hm) = -(m * 2 ^ e) ∧ -((m : ℚ) * 2 ^ e) < 0 := by
  refine ⟨?_, neg_lt_zero.mpr (valueOf_positive hm e).2⟩
  show ((-(m : ℤ) : ℤ) : ℚ) * 2 ^ e = _
  push_cast
  ring

/-- Numbers in canonical form compare like their values. -/
theorem compare_eq {u v : UnpackedFloat} (hu : Canonical u) (hv : Canonical v) :
    u.compare v = some (compare (valueOf u) (valueOf v)) := by
  cases u with
  | infinity sign => cases hu
  | notANumber => cases hu
  | zero sign =>
      cases v with
      | infinity sign' => cases hv
      | notANumber => cases hv
      | zero sign' => rfl
      | finite sign' m' e' hm' =>
          cases sign' with
          | positive =>
              obtain ⟨hvalue, hpos⟩ := valueOf_positive hm' e'
              exact congrArg some (compare_lt_iff_lt.mpr (hvalue ▸ hpos)).symm
          | negative =>
              obtain ⟨hvalue, hneg⟩ := valueOf_negative hm' e'
              exact congrArg some (compare_gt_iff_gt.mpr (hvalue ▸ hneg)).symm
  | finite sign m e hm =>
      cases v with
      | infinity sign' => cases hv
      | notANumber => cases hv
      | zero sign' =>
          cases sign with
          | positive =>
              obtain ⟨hvalue, hpos⟩ := valueOf_positive hm e
              exact congrArg some (compare_gt_iff_gt.mpr (hvalue ▸ hpos)).symm
          | negative =>
              obtain ⟨hvalue, hneg⟩ := valueOf_negative hm e
              exact congrArg some (compare_lt_iff_lt.mpr (hvalue ▸ hneg)).symm
      | finite sign' m' e' hm' =>
          obtain ⟨hlength, hlow, -, hform⟩ := hu
          obtain ⟨hlength', hlow', -, hform'⟩ := hv
          have hmagnitude := compare_magnitude hlength hlength' hlow hlow' hform hform'
          cases sign with
          | positive =>
              cases sign' with
              | positive => exact congrArg some hmagnitude
              | negative =>
                  refine congrArg some (compare_gt_iff_gt.mpr ?_).symm
                  rw [(valueOf_negative hm' e').1]
                  exact (valueOf_negative hm' e').2.trans (valueOf_positive hm e).2
          | negative =>
              cases sign' with
              | positive =>
                  refine congrArg some (compare_lt_iff_lt.mpr ?_).symm
                  rw [(valueOf_negative hm e).1]
                  exact (valueOf_negative hm e).2.trans (valueOf_positive hm' e').2
              | negative =>
                  show some ((compare e e').then (compare m m')).swap = _
                  rw [hmagnitude, (valueOf_negative hm e).1, (valueOf_negative hm' e').1,
                    compare_neg]

variable {x y : Float} (hx : x.isFinite = true) (hy : y.isFinite = true)
include hx hy

/-- Finite doubles are ordered like their values. -/
theorem le_iff : x ≤ y ↔ value x ≤ value y := by
  have hcompare := compare_eq (canonical_unpack hx) (canonical_unpack hy)
  have hle : x ≤ y ↔
      (x.toModel.unpack.compare y.toModel.unpack).any (·.isLE) = true :=
    decide_eq_true_iff
  rw [hle, hcompare, Option.any_some]
  exact Ordering.isLE_iff_ne_gt.trans (not_congr compare_gt_iff_gt |>.trans not_lt)

/-- Finite doubles are strictly ordered like their values. -/
theorem lt_iff : x < y ↔ value x < value y := by
  have hcompare := compare_eq (canonical_unpack hx) (canonical_unpack hy)
  have hlt : x < y ↔ (x.toModel.unpack.compare y.toModel.unpack == some .lt) = true :=
    decide_eq_true_iff
  rw [hlt, hcompare, beq_iff_eq, Option.some_inj]
  exact compare_lt_iff_lt

/-- Finite doubles are equal in comparisons if their values are. -/
theorem beq_iff : (x == y) = true ↔ value x = value y := by
  have hcompare := compare_eq (canonical_unpack hx) (canonical_unpack hy)
  have hbeq : (x == y) = (x.toModel.unpack.compare y.toModel.unpack == some .eq) := rfl
  rw [hbeq, hcompare, beq_iff_eq, Option.some_inj]
  exact compare_eq_iff_eq

end PlasmaField.Binary64
