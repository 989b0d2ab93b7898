import Mathlib
import PlasmaField.Proofs.Binary64.Remainder

/-!
# Doubles that are natural numbers

A double is read as a natural number by dividing its magnitude, a fraction with a power of two as
its denominator. The division is exact, so the reading gives a number just if the double is finite
and has that number as its value, `natural?_eq_some_iff`. There is no bound on the numbers that are
read: most natural doubles do not fit into a word.
-/

namespace PlasmaField.Binary64

/-- A double with an exact value is finite. -/
theorem isFinite_of_finite? {x : Float} {v : Exact} (h : finite? x = some v) :
    x.isFinite = true := by
  -- the greatest exponent is kept for infinities and undefined results
  have hbiased : x.toBits.toNat / 2 ^ 52 % 2048 ≠ 2047 := by
    intro hgreatest
    have hnone : finite? x = none := if_pos hgreatest
    rw [hnone] at h
    cases h
  have hfraction : x.toBits.toNat % 2 ^ 52 < 2 ^ 52 := Nat.mod_lt _ (by decide)
  exact isFinite_of_canonical (unpack_toModel x ▸ canonical_ofParts _ (by omega) hfraction)

namespace Exact

/-- The denominator of a magnitude is positive. -/
theorem magnitude_pos (v : Exact) : 0 < v.magnitude.2 := by
  unfold magnitude
  split
  · exact Nat.one_pos
  · exact Nat.two_pow_pos _

/-- The fraction is the magnitude. -/
theorem magnitude_div (v : Exact) :
    (v.magnitude.1 : ℚ) / v.magnitude.2 = v.mantissa * 2 ^ v.exponent := by
  unfold magnitude
  split
  next k hk =>
    rw [hk, Int.ofNat_eq_natCast, zpow_natCast]
    simp
  next k hk =>
    rw [hk, zpow_negSucc, Nat.pow_eq]
    push_cast
    exact div_eq_mul_inv _ _

/-- The value is the fraction with the sign. -/
theorem value_eq_magnitude (v : Exact) :
    v.value = if v.negative then -(v.magnitude.1 / v.magnitude.2 : ℚ)
      else v.magnitude.1 / v.magnitude.2 := by
  rw [v.magnitude_div]
  unfold value
  cases v.negative <;> simp

/-- A value is a natural number if its fraction is a whole one, and not below zero. -/
theorem value_eq_natCast_iff (v : Exact) (k : ℕ) :
    v.value = k ↔ v.magnitude.1 = k * v.magnitude.2 ∧ (v.negative = true → k = 0) := by
  have hd : (v.magnitude.2 : ℚ) ≠ 0 := Nat.cast_ne_zero.mpr v.magnitude_pos.ne'
  have hwhole : (v.magnitude.1 / v.magnitude.2 : ℚ) = k ↔ v.magnitude.1 = k * v.magnitude.2 := by
    rw [div_eq_iff hd]
    norm_cast
  rw [v.value_eq_magnitude]
  cases v.negative with
  | false => simpa using hwhole
  | true =>
    have hfraction : (0 : ℚ) ≤ v.magnitude.1 / v.magnitude.2 := by positivity
    constructor
    · intro hvalue
      rw [if_pos rfl] at hvalue
      -- a number and its opposite are not below zero
      have hzero : k = 0 := by
        have hk : (0 : ℚ) ≤ k := Nat.cast_nonneg k
        exact Nat.cast_eq_zero.mp (show (k : ℚ) = 0 by linarith)
      refine ⟨hwhole.mp ?_, fun _ ↦ hzero⟩
      rw [hzero, Nat.cast_zero] at hvalue ⊢
      exact neg_eq_zero.mp hvalue
    · rintro ⟨hfraction, hzero⟩
      rw [if_pos rfl, hwhole.mpr hfraction, hzero rfl, Nat.cast_zero, neg_zero]

end Exact

/-- A double is read as a natural number just if it is finite and has that number as its value. -/
theorem natural?_eq_some_iff {x : Float} {k : ℕ} :
    natural? x = some k ↔ x.isFinite = true ∧ value x = k := by
  constructor
  · intro h
    obtain ⟨v, hv, h⟩ := Option.bind_eq_some_iff.mp h
    obtain ⟨w, hw, -, hvalue⟩ := exists_finite? (isFinite_of_finite? hv)
    obtain rfl : v = w := Option.some.inj (hv.symm.trans hw)
    obtain ⟨hwhole, hk⟩ := Option.ite_none_right_eq_some.mp h
    rw [Bool.and_eq_true, Bool.or_eq_true, Bool.not_eq_true', decide_eq_true_iff,
      decide_eq_true_iff] at hwhole
    obtain rfl := Option.some.inj hk
    refine ⟨isFinite_of_finite? hv, ?_⟩
    rw [← hvalue, v.value_eq_natCast_iff]
    refine ⟨(Nat.div_mul_cancel (Nat.dvd_of_mod_eq_zero hwhole.1)).symm, fun hnegative ↦ ?_⟩
    rw [hwhole.2.resolve_left (by rw [hnegative]; exact Bool.true_eq_false.mp), Nat.zero_div]
  · rintro ⟨hfinite, hk⟩
    obtain ⟨v, hv, -, hvalue⟩ := exists_finite? hfinite
    obtain ⟨hwhole, hzero⟩ := (v.value_eq_natCast_iff k).mp (hvalue.trans hk)
    refine Option.bind_eq_some_iff.mpr ⟨v, hv, ?_⟩
    dsimp only
    rw [hwhole, Nat.mul_mod_left, Nat.mul_div_cancel _ v.magnitude_pos, if_pos]
    cases hsign : v.negative with
    | false => rfl
    | true => simp [hzero hsign]

end PlasmaField.Binary64
