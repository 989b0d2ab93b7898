import Mathlib
import PlasmaField.Proofs.Binary64.Rounding

/-!
# Remainders and wrapped doubles

The exact value that `finite?` reads off the bits of a double is its value, and `toFloat` turns one
with a mantissa of at most 53 bits back into a double, `value_toFloat`. A remainder has such a
mantissa, since it is below the divisor and not above the dividend. It is exact, therefore, and
smaller than the divisor, `value_remainder_lt`. Wrapping adds the modulus to a negative remainder;
the sum is rounded, but not past zero nor past the modulus, `wrap_mem`.
-/

namespace PlasmaField.Binary64

open Float.Model (UnpackedFloat)
open Float.Model.Format (binary64)
open Float.Model.UnpackedFloat (Sign unpackSign unpackExponent unpackMantissa)

/-! ## Exact values -/

/-- The parts of a bit pattern that is given as a number. -/
theorem unpack_eq_of_toNat (bits : BitVec 64) : UnpackedFloat.unpack binary64 bits =
    ofParts (signOf (bits.toNat / 2 ^ 63 % 2 == 1)) (bits.toNat / 2 ^ 52 % 2048)
      (bits.toNat % 2 ^ 52) := by
  have hfraction : (@unpackMantissa binary64 bits).toNat = bits.toNat % 2 ^ 52 := by
    rw [Float.Model.UnpackedFloat.unpackMantissa_def, BitVec.extractLsb'_toNat]
    simp
  have hbiased : (@unpackExponent binary64 bits).toNat = bits.toNat / 2 ^ 52 % 2048 := by
    rw [Float.Model.UnpackedFloat.unpackExponent_def, BitVec.extractLsb'_toNat]
    simp [Nat.shiftRight_eq_div_pow]
  have hsign : Sign.ofBitVec (@unpackSign binary64 bits) =
      signOf (bits.toNat / 2 ^ 63 % 2 == 1) := by
    have hbit : (@unpackSign binary64 bits).toNat = bits.toNat / 2 ^ 63 % 2 := by
      rw [Float.Model.UnpackedFloat.unpackSign_def, BitVec.extractLsb'_toNat]
      simp [Nat.shiftRight_eq_div_pow]
    unfold Sign.ofBitVec signOf
    simp only [← BitVec.toNat_inj, hbit]
    rcases Nat.mod_two_eq_zero_or_one (bits.toNat / 2 ^ 63) with hzero | hone
    · rw [hzero]
      rfl
    · rw [hone]
      rfl
  have hunpack := unpack_eq bits
  rw [hfraction, hbiased, hsign] at hunpack
  exact hunpack

/-- The parts of a double. -/
theorem unpack_toModel (x : Float) : x.toModel.unpack =
    ofParts (signOf (x.toBits.toNat / 2 ^ 63 % 2 == 1)) (x.toBits.toNat / 2 ^ 52 % 2048)
      (x.toBits.toNat % 2 ^ 52) :=
  unpack_eq_of_toNat x.toModel.toBits.toBitVec

namespace Exact

/-- The value of a sign, a mantissa and an exponent. -/
def value (v : Exact) : ℚ :=
  (if v.negative then -1 else 1) * v.mantissa * 2 ^ v.exponent

/-- A mantissa of at most 53 bits and an exponent of a double. -/
structure Short (v : Exact) : Prop where
  mantissa : v.mantissa < 2 ^ 53
  low : -1074 ≤ v.exponent
  high : v.exponent ≤ 971

end Exact

/-- The value of a signed number. -/
theorem valueOf_signOf (negative : Bool) {m : ℕ} (hm : 0 < m) (e : ℤ) :
    valueOf (.finite (signOf negative) m e hm) = (⟨negative, m, e⟩ : Exact).value := by
  unfold Exact.value
  cases negative with
  | false => exact (valueOf_positive hm e).1.trans (by simp)
  | true => exact (valueOf_negative hm e).1.trans (by simp)

/-- A finite double has an exact value, which is its value. -/
theorem exists_finite? {x : Float} (h : x.isFinite = true) :
    ∃ v, finite? x = some v ∧ v.Short ∧ v.value = value x := by
  let n : ℕ := x.toBits.toNat
  have hunpack : x.toModel.unpack =
      ofParts (signOf (n / 2 ^ 63 % 2 == 1)) (n / 2 ^ 52 % 2048) (n % 2 ^ 52) := unpack_toModel x
  have hfinite : x.toModel.unpack.isFinite = true := h
  have hvalue : value x = valueOf x.toModel.unpack := rfl
  have hfraction : n % 2 ^ 52 < 2 ^ 52 := Nat.mod_lt _ (by decide)
  have hbiased : n / 2 ^ 52 % 2048 < 2048 := Nat.mod_lt _ (by decide)
  have hread : finite? x = if n / 2 ^ 52 % 2048 = 2047 then none
      else if n / 2 ^ 52 % 2048 = 0 then some ⟨n / 2 ^ 63 % 2 == 1, n % 2 ^ 52, -1074⟩
      else some ⟨n / 2 ^ 63 % 2 == 1, n % 2 ^ 52 + 2 ^ 52, (n / 2 ^ 52 % 2048 : ℕ) - 1075⟩ := rfl
  have hgreatest : n / 2 ^ 52 % 2048 ≠ 2047 := by
    intro hgreatest
    rw [hunpack, hgreatest] at hfinite
    unfold ofParts at hfinite
    rw [if_pos rfl] at hfinite
    split_ifs at hfinite <;> cases hfinite
  rw [hvalue, hunpack, hread, if_neg hgreatest]
  unfold ofParts
  rw [if_neg hgreatest]
  by_cases hleast : n / 2 ^ 52 % 2048 = 0
  · rw [if_pos hleast, if_pos hleast]
    refine ⟨_, rfl, ⟨by dsimp only; omega, le_rfl, by dsimp only; omega⟩, ?_⟩
    by_cases hzero : n % 2 ^ 52 = 0
    · rw [dif_pos hzero, hzero]
      simp [Exact.value, valueOf]
    · rw [dif_neg hzero, valueOf_signOf]
  · rw [if_neg hleast, if_neg hleast]
    refine ⟨_, rfl, ⟨by dsimp only; omega, by dsimp only; omega, by dsimp only; omega⟩, ?_⟩
    rw [valueOf_signOf, Nat.add_comm]

/-- The number that the bits of the given parts stand for. -/
theorem unpack_ofBits (negative : Bool) {biased fraction : ℕ} (hbiased : biased < 2047)
    (hfraction : fraction < 2 ^ 52) :
    (Float.ofBits (UInt64.ofNat ((if negative then 2 ^ 63 else 0) +
      (biased * 2 ^ 52 + fraction)))).toModel.unpack =
        ofParts (signOf negative) biased fraction := by
  let n : ℕ := (if negative then 2 ^ 63 else 0) + (biased * 2 ^ 52 + fraction)
  have hn : n = (if negative then 1 else 0) * 2 ^ 63 + (biased * 2 ^ 52 + fraction) := by
    cases negative <;> rfl
  have hbit : (if negative then 1 else 0) < 2 := by
    cases negative <;> decide
  have hsmall : n < 2 ^ 64 := by omega
  have htoNat : (UInt64.ofNat n).toBitVec.toNat = n := by
    simpa using hsmall
  have hbits : UnpackedFloat.unpack binary64 (UInt64.ofNat n).toBitVec =
      ofParts (signOf negative) biased fraction := by
    rw [unpack_eq_of_toNat, htoNat]
    have h₁ : n / 2 ^ 63 % 2 = if negative then 1 else 0 := by omega
    have h₂ : n / 2 ^ 52 % 2048 = biased := by omega
    have h₃ : n % 2 ^ 52 = fraction := by omega
    rw [h₁, h₂, h₃]
    cases negative <;> rfl
  have hcanonical := canonical_ofParts (signOf negative) hbiased hfraction
  rw [← hbits] at hcanonical ⊢
  exact unpack_pack hcanonical

/-- Turning a short mantissa into one of 53 bits, as far as the least exponent allows. -/
theorem exists_normalized {v : Exact} (h : v.Short) : ∃ (m : ℕ) (last : ℤ),
    v.toFloat = Float.ofBits (UInt64.ofNat ((if v.negative then 2 ^ 63 else 0) +
      if m < 2 ^ 52 then m else (last + 1075).toNat * 2 ^ 52 + (m - 2 ^ 52))) ∧
    (m : ℚ) * 2 ^ last = v.mantissa * 2 ^ v.exponent ∧ m < 2 ^ 53 ∧ -1074 ≤ last ∧ last ≤ 971 ∧
      (m < 2 ^ 52 → m = 0 ∨ last = -1074) := by
  obtain ⟨hshort, hlow, hhigh⟩ := h
  let length := if v.mantissa = 0 then 0 else v.mantissa.log2 + 1
  let last : ℤ := max (v.exponent + length - 53) (-1074)
  have hlength : length ≤ 53 := by
    show (if v.mantissa = 0 then 0 else v.mantissa.log2 + 1) ≤ 53
    split
    · exact Nat.zero_le _
    next hne => exact (Nat.log2_lt hne).mpr hshort
  have hlast : last ≤ v.exponent := by omega
  let shift := (v.exponent - last).toNat
  refine ⟨v.mantissa * 2 ^ shift, last, ?_, scaled_mul_zpow _ hlast, ?_, by omega, by omega, ?_⟩
  · have hm : (if last ≤ v.exponent then v.mantissa * 2 ^ shift
        else v.mantissa / 2 ^ (last - v.exponent).toNat) = v.mantissa * 2 ^ shift := if_pos hlast
    rw [← hm]
    rfl
  · by_cases hzero : v.mantissa = 0
    · rw [hzero, zero_mul]
      decide
    · have hbits : length = v.mantissa.log2 + 1 := if_neg hzero
      calc v.mantissa * 2 ^ shift < 2 ^ length * 2 ^ shift :=
            Nat.mul_lt_mul_of_pos_right (hbits ▸ Nat.lt_log2_self) (Nat.two_pow_pos shift)
        _ = 2 ^ (length + shift) := (pow_add 2 length shift).symm
        _ ≤ 2 ^ 53 := Nat.pow_le_pow_right two_pos (by omega)
  · intro hfew
    by_cases hzero : v.mantissa = 0
    · exact .inl (by rw [hzero, zero_mul])
    · have hbits : length = v.mantissa.log2 + 1 := if_neg hzero
      by_contra hnot
      have hfull : v.mantissa.log2 + shift = 52 := by omega
      have hlarge : 2 ^ (v.mantissa.log2 + shift) ≤ v.mantissa * 2 ^ shift := by
        rw [pow_add]
        exact Nat.mul_le_mul_right _ (Nat.log2_self_le hzero)
      rw [hfull] at hlarge
      exact hlarge.not_gt hfew

/-- An exact value with a short mantissa is turned into a double with that value. -/
theorem value_toFloat {v : Exact} (h : v.Short) :
    v.toFloat.isFinite = true ∧ value v.toFloat = v.value := by
  obtain ⟨m, last, hfloat, hexact, hm, hlow, hhigh, hleast⟩ := exists_normalized h
  have hvalue : v.value = (⟨v.negative, m, last⟩ : Exact).value := by
    unfold Exact.value
    rw [mul_assoc, ← hexact, mul_assoc]
  have hunpack : ∃ biased < 2047, ∃ fraction < 2 ^ 52,
      v.toFloat.toModel.unpack = ofParts (signOf v.negative) biased fraction ∧
        valueOf (ofParts (signOf v.negative) biased fraction) = v.value := by
    rw [hfloat, hvalue]
    by_cases hfew : m < 2 ^ 52
    · rw [if_pos hfew]
      have hbits := unpack_ofBits v.negative (show 0 < 2047 by decide) hfew
      rw [Nat.zero_mul, Nat.zero_add] at hbits
      refine ⟨0, by decide, m, hfew, hbits, ?_⟩
      rcases Nat.eq_zero_or_pos m with rfl | hpos
      · simp [ofParts, valueOf, Exact.value]
      · obtain rfl : last = -1074 := (hleast hfew).resolve_left hpos.ne'
        rw [ofParts_subnormal _ hpos, valueOf_signOf]
    · rw [if_neg hfew]
      refine ⟨_, by omega, _, by omega, unpack_ofBits v.negative (by omega) (by omega), ?_⟩
      rw [ofParts_normal _ (by omega) (not_lt.mp hfew) hlow hhigh, valueOf_signOf]
  obtain ⟨biased, hbiased, fraction, hfraction, hunpack, hof⟩ := hunpack
  refine ⟨isFinite_of_canonical (hunpack ▸ canonical_ofParts _ hbiased hfraction), ?_⟩
  unfold value
  rw [hunpack, hof]

/-! ## Remainders -/

/-- The magnitude of an exact value. -/
theorem Exact.abs_value (v : Exact) : |v.value| = v.mantissa * 2 ^ v.exponent := by
  have hmagnitude : (0 : ℚ) ≤ v.mantissa * 2 ^ v.exponent :=
    mul_nonneg (Nat.cast_nonneg _) (zpow_pos two_pos _).le
  unfold Exact.value
  rw [mul_assoc, abs_mul, abs_of_nonneg hmagnitude]
  cases v.negative <;> simp

/-- The magnitude in units of a power of two that is not above the exponent. -/
theorem Exact.natAbs_inUnits (v : Exact) (scale : ℤ) :
    (v.inUnits scale).natAbs = v.mantissa * 2 ^ (v.exponent - scale).toNat := by
  unfold Exact.inUnits
  cases v.negative <;> simp [Int.natAbs_mul, Int.natAbs_pow]

/-- The units count the magnitude. -/
theorem Exact.natAbs_inUnits_mul (v : Exact) {scale : ℤ} (h : scale ≤ v.exponent) :
    ((v.inUnits scale).natAbs : ℚ) * 2 ^ scale = |v.value| := by
  rw [v.natAbs_inUnits, v.abs_value, scaled_mul_zpow _ h]

/-- The remainder of finite doubles is finite, and its magnitude is below that of the divisor. -/
theorem value_remainder_lt {x m : Float} (hx : x.isFinite = true) (hm : m.isFinite = true)
    (hne : value m ≠ 0) :
    (remainder x m).isFinite = true ∧ |value (remainder x m)| < |value m| := by
  obtain ⟨a, ha, ⟨hshort, hlow, hhigh⟩, -⟩ := exists_finite? hx
  obtain ⟨b, hb, ⟨hshort', hlow', hhigh'⟩, hvalue⟩ := exists_finite? hm
  have hb₀ : b.mantissa ≠ 0 := by
    intro hzero
    refine hne (hvalue ▸ ?_)
    simp [Exact.value, hzero]
  let scale := min a.exponent b.exponent
  let r := (a.inUnits scale).natAbs % (b.inUnits scale).natAbs
  have hread : remainder x m = Exact.toFloat ⟨a.negative, r, scale⟩ := by
    unfold remainder
    rw [ha, hb]
    exact if_neg hb₀
  have hdivisor : 0 < (b.inUnits scale).natAbs := by
    rw [b.natAbs_inUnits]
    exact Nat.mul_pos (Nat.pos_of_ne_zero hb₀) (Nat.two_pow_pos _)
  have hlt : r < (b.inUnits scale).natAbs := Nat.mod_lt _ hdivisor
  -- the operand with the smaller exponent is counted by its own mantissa
  have hr : r < 2 ^ 53 := by
    rcases le_total a.exponent b.exponent with hle | hle
    · have hown : (a.inUnits scale).natAbs = a.mantissa := by
        rw [a.natAbs_inUnits, show a.exponent - scale = 0 by omega]
        simp
      exact (Nat.mod_le _ _).trans_lt (hown ▸ hshort)
    · have hown : (b.inUnits scale).natAbs = b.mantissa := by
        rw [b.natAbs_inUnits, show b.exponent - scale = 0 by omega]
        simp
      exact hlt.trans (hown ▸ hshort')
  obtain ⟨hfinite, hexact⟩ := value_toFloat (v := ⟨a.negative, r, scale⟩)
    ⟨hr, by dsimp only; omega, by dsimp only; omega⟩
  rw [hread]
  refine ⟨hfinite, ?_⟩
  rw [hexact, Exact.abs_value, ← hvalue, ← b.natAbs_inUnits_mul (min_le_right _ _)]
  exact mul_lt_mul_of_pos_right (Nat.cast_lt.mpr hlt) (zpow_pos two_pos scale)

/-- The literal zero is finite and has the value zero. -/
theorem value_zero : (0 : Float).isFinite = true ∧ value 0 = 0 := by
  decide +kernel

/-- A finite double is wrapped into the range from zero to the modulus, both included. -/
theorem wrap_mem {x m : Float} (hx : x.isFinite = true) (hm : m.isFinite = true)
    (hpos : 0 < value m) : (Scalar.wrap m x).isFinite = true ∧ 0 ≤ value (Scalar.wrap m x) ∧
      value (Scalar.wrap m x) ≤ value m := by
  obtain ⟨hfinite, hlt⟩ := value_remainder_lt hx hm hpos.ne'
  rw [abs_of_pos hpos] at hlt
  obtain ⟨hlow, hhigh⟩ := abs_lt.mp hlt
  have hwrap : Scalar.wrap m x =
      if remainder x m < (0 : Float) then remainder x m + m else remainder x m := rfl
  rw [hwrap]
  split
  next hneg =>
    have hvalue := (lt_iff hfinite value_zero.1).mp hneg
    rw [value_zero.2] at hvalue
    exact value_add_le hfinite hm hm (by linarith) (by linarith)
  next hnot =>
    have hvalue := mt (lt_iff hfinite value_zero.1).mpr hnot
    rw [value_zero.2, not_lt] at hvalue
    exact ⟨hfinite, hvalue, hhigh.le⟩

end PlasmaField.Binary64
