import Mathlib
import PlasmaField.Proofs.Binary64.Value

/-!
# Rounded sums of doubles

A rounded number does not pass a double: whatever lies between zero and a double is rounded into the
same range, `round_le`, and so is a sum of doubles whose exact value lies there, `value_add_le`. The
argument follows the bits that are shifted out. A mantissa below a multiple of the last place kept
is rounded to at most that multiple, because the bits shifted out are all zero where it is reached.
-/

namespace PlasmaField.Binary64

open Float.Model (UnpackedFloat)
open Float.Model.Format (binary64)
open Float.Model.UnpackedFloat (Sign Accuracy ExtendedMantissa)

/-! ## Shifting -/

/-- The extended mantissa is at most a whole number: its mantissa is smaller, or it is the number
and nothing was shifted out. -/
def AtMost (em : ExtendedMantissa) (n : ℕ) : Prop :=
  em.mantissa < n ∨ em = ⟨n, false, false⟩

/-- Shifting by one place halves the bound. -/
theorem AtMost.shiftRightOne {em : ExtendedMantissa} {n : ℕ} (h : AtMost em (n * 2)) :
    AtMost em.shiftRightOne n := by
  rcases h with hlt | rfl
  · exact .inl (Nat.div_lt_of_lt_mul (by omega))
  · refine .inr ?_
    simp [ExtendedMantissa.shiftRightOne]

/-- Shifting by more places divides the bound by their weight. -/
theorem AtMost.shiftRight {em : ExtendedMantissa} {n : ℕ} (k : ℕ) (h : AtMost em (n * 2 ^ k)) :
    AtMost (em >>> k) n := by
  show AtMost (k.repeat ExtendedMantissa.shiftRightOne em) n
  induction k generalizing n with
  | zero =>
      rw [pow_zero, mul_one] at h
      exact h
  | succ k ih =>
      refine AtMost.shiftRightOne (ih ?_)
      rwa [mul_assoc, ← pow_succ']

/-- Rounding keeps the bound. -/
theorem AtMost.roundedMantissa_le {em : ExtendedMantissa} {n : ℕ} (h : AtMost em n) :
    em.roundedMantissa ≤ n := by
  rcases h with hlt | rfl
  · obtain ⟨m, round, sticky⟩ := em
    have hm : m < n := hlt
    unfold ExtendedMantissa.roundedMantissa ExtendedMantissa.accuracy
    cases round <;> cases sticky <;> simp [Accuracy.roundToNearestEven] <;> omega
  · rfl

/-- The mantissa that is left after shifting. -/
theorem mantissa_shiftRight (em : ExtendedMantissa) (k : ℕ) :
    (em >>> k).mantissa = em.mantissa / 2 ^ k := by
  show (k.repeat ExtendedMantissa.shiftRightOne em).mantissa = _
  induction k with
  | zero => simp [Nat.repeat]
  | succ k ih =>
      show (k.repeat ExtendedMantissa.shiftRightOne em).mantissa / 2 = _
      rw [ih, Nat.div_div_eq_div_mul, pow_succ]

/-- Rounding does not make the mantissa smaller. -/
theorem mantissa_le_roundedMantissa (em : ExtendedMantissa) : em.mantissa ≤ em.roundedMantissa := by
  obtain ⟨m, round, sticky⟩ := em
  unfold ExtendedMantissa.roundedMantissa ExtendedMantissa.accuracy
  cases round <;> cases sticky <;> simp [Accuracy.roundToNearestEven]

/-! ## Rounding -/

/-- The exponent of the last place that is kept. -/
theorem targetExponent_eq (m : ℕ) (e : ℤ) :
    binary64.targetExponent (Float.Model.totalExponent m e) = max (m.log2 + e - 52) (-1074) := by
  have hmin : binary64.minExponent = -1074 := by decide
  have hbits : binary64.mantissaBits = 53 := rfl
  unfold Float.Model.Format.targetExponent Float.Model.totalExponent
  rw [hmin, hbits]
  congr 1
  push_cast
  ring

/-- Shifting to the last place that is kept. -/
theorem shiftToTargetExponent_eq (m : ℕ) (e : ℤ) :
    UnpackedFloat.shiftToTargetExponent binary64 m e .exact =
      let k := (max (m.log2 + e - 52) (-1074) - e).toNat
      ((⟨m, false, false⟩ : ExtendedMantissa) >>> k, e + k) := by
  unfold UnpackedFloat.shiftToTargetExponent UnpackedFloat.shiftToExponent
  rw [targetExponent_eq]
  rfl

/-- A mantissa of at most 53 bits with a possible exponent stays as it is. One more is the next
power of two, which loses a zero. -/
theorem shiftToTargetExponent_of_le {m : ℕ} {e : ℤ} (hm : m ≤ 2 ^ 53) (he : -1074 ≤ e) :
    ∃ m' e', UnpackedFloat.shiftToTargetExponent binary64 m e .exact = (⟨m', false, false⟩, e') ∧
      (m' : ℚ) * 2 ^ e' = m * 2 ^ e ∧ m' < 2 ^ 53 ∧ -1074 ≤ e' ∧
      (2 ^ 52 ≤ m ∨ e = -1074 → 2 ^ 52 ≤ m' ∨ e' = -1074) := by
  rw [shiftToTargetExponent_eq]
  rcases hm.lt_or_eq with hlt | rfl
  · have hlog : m.log2 ≤ 52 := by
      by_cases hzero : m = 0
      · subst hzero
        decide
      · exact Nat.le_of_lt_succ ((Nat.log2_lt hzero).mpr hlt)
    have hshift : (max (m.log2 + e - 52) (-1074) - e).toNat = 0 := by omega
    rw [hshift]
    exact ⟨m, e, Prod.ext rfl (add_zero e), rfl, hlt, he, id⟩
  · have hshift : (max (((2 ^ 53 : ℕ).log2 : ℤ) + e - 52) (-1074) - e).toNat = 1 := by
      rw [Nat.log2_two_pow]
      omega
    rw [hshift]
    refine ⟨2 ^ 52, e + 1, Prod.ext rfl rfl, ?_, by decide, by omega, fun _ ↦ .inl le_rfl⟩
    rw [zpow_add_one₀ two_ne_zero]
    push_cast
    ring

/-- Making the exponent smaller does not change the number. -/
theorem exists_decreaseExponent {m : ℕ} (hm : 0 < m) (e t : ℤ) : ∃ m' e',
    UnpackedFloat.decreaseExponent m e t = (m', e') ∧ (m' : ℚ) * 2 ^ e' = m * 2 ^ e ∧ 0 < m' ∧
      (m'.log2 : ℤ) + e' = m.log2 + e ∧ e' = min e t := by
  let d := (e - t).toNat
  have hscaled : 0 < m * 2 ^ d := Nat.mul_pos hm (Nat.two_pow_pos d)
  have hlog : (m * 2 ^ d).log2 = m.log2 + d := by
    refine (Nat.log2_eq_iff hscaled.ne').mpr ⟨?_, ?_⟩
    · rw [pow_add]
      exact Nat.mul_le_mul_right _ (Nat.log2_self_le hm.ne')
    · rw [add_right_comm, pow_add]
      exact Nat.mul_lt_mul_of_pos_right Nat.lt_log2_self (Nat.two_pow_pos d)
  refine ⟨m * 2 ^ d, e - d, ?_, ?_, hscaled, ?_, ?_⟩
  · show (m <<< d, e - d) = _
    rw [Nat.shiftLeft_eq]
  · rw [Nat.cast_mul, Nat.cast_pow, zpow_sub₀ two_ne_zero, zpow_natCast]
    push_cast
    field_simp
  · rw [hlog]
    push_cast
    ring
  · omega

/-- A positive number lies between two consecutive powers of two. -/
theorem log2_bounds {m : ℕ} (hm : 0 < m) (e : ℤ) :
    (2 : ℚ) ^ (m.log2 + e) ≤ m * 2 ^ e ∧ (m : ℚ) * 2 ^ e < 2 ^ (m.log2 + e + 1) := by
  have hpow : (0 : ℚ) < 2 ^ e := zpow_pos two_pos e
  have hlow : ((2 ^ m.log2 : ℕ) : ℚ) ≤ m := Nat.cast_le.mpr (Nat.log2_self_le hm.ne')
  have hhigh : (m : ℚ) < ((2 ^ (m.log2 + 1) : ℕ) : ℚ) := Nat.cast_lt.mpr Nat.lt_log2_self
  push_cast at hlow hhigh
  constructor
  · rw [zpow_add₀ two_ne_zero, zpow_natCast]
    exact mul_le_mul_of_nonneg_right hlow hpow.le
  · rw [add_right_comm, zpow_add₀ two_ne_zero]
    refine mul_lt_mul_of_pos_right ?_ hpow
    exact_mod_cast hhigh

/-- Rounding to the last place that is kept. The rounded mantissa has at most 53 bits, or is the
next power of two, and is at most every whole number that is not below the exact mantissa. -/
theorem exists_round {m : ℕ} (hm : 0 < m) (e : ℤ) : ∃ (r : ℕ) (t : ℤ),
    t = max (m.log2 + e - 52) (-1074) ∧ r ≤ 2 ^ 53 ∧ (2 ^ 52 ≤ r ∨ t = -1074) ∧
      (∀ bound : ℕ, (m : ℚ) * 2 ^ e ≤ bound * 2 ^ t → r ≤ bound) ∧
      ∀ m' e', UnpackedFloat.shiftToTargetExponent binary64 r t .exact = (⟨m', false, false⟩, e') →
        UnpackedFloat.round binary64 .positive m e =
          if h : m' = 0 then .zero .positive
          else .finite .positive m' e' (Nat.pos_of_ne_zero h) := by
  let t : ℤ := max (m.log2 + e - 52) (-1074)
  obtain ⟨m₁, e₁, hdecrease, hvalue, hm₁, hlog, he₁⟩ := exists_decreaseExponent hm e t
  have ht : max (m₁.log2 + e₁ - 52) (-1074) = t := by rw [hlog]
  let k := (t - e₁).toNat
  have hk : e₁ + k = t := by omega
  let em : ExtendedMantissa := (⟨m₁, false, false⟩ : ExtendedMantissa) >>> k
  have hem : em.mantissa = m₁ / 2 ^ k := mantissa_shiftRight _ k
  have hround : ∀ bound : ℕ, (m : ℚ) * 2 ^ e ≤ bound * 2 ^ t → em.roundedMantissa ≤ bound := by
    intro bound hbound
    have hmantissa : m₁ ≤ bound * 2 ^ k := by
      rw [← hvalue, ← hk, zpow_add₀ two_ne_zero, zpow_natCast, mul_left_comm, mul_comm,
        mul_le_mul_iff_right₀ (zpow_pos two_pos e₁)] at hbound
      exact_mod_cast hbound
    refine (AtMost.shiftRight k ?_).roundedMantissa_le
    exact hmantissa.lt_or_eq.imp id fun heq ↦ by rw [heq]
  refine ⟨em.roundedMantissa, t, rfl, hround _ ?_, ?_, hround, ?_⟩
  · have hbelow := (log2_bounds hm e).2.le
    refine hbelow.trans ?_
    rw [Nat.cast_pow, Nat.cast_ofNat, ← zpow_natCast, ← zpow_add₀ two_ne_zero]
    exact zpow_le_zpow_right₀ one_le_two (by omega)
  · refine or_iff_not_imp_right.mpr fun hleast ↦ ?_
    have hkeep : 52 + k = m₁.log2 := by omega
    refine le_trans ?_ (mantissa_le_roundedMantissa em)
    rw [hem, Nat.le_div_iff_mul_le (Nat.two_pow_pos k), ← pow_add, hkeep]
    exact Nat.log2_self_le hm₁.ne'
  · intro m' e' hshift
    have hfirst : UnpackedFloat.shiftToTargetExponent binary64 m₁ e₁ .exact = (em, t) := by
      rw [shiftToTargetExponent_eq, ht]
      exact Prod.ext rfl hk
    unfold UnpackedFloat.round UnpackedFloat.roundWithAccuracy
    rw [targetExponent_eq, show max ((m.log2 : ℤ) + e - 52) (-1074) = t from rfl]
    simp only [hdecrease, hfirst, hshift]

/-- What lies between zero and a double is rounded to a double in the same range. -/
theorem round_le {m : ℕ} (hm : 0 < m) {e : ℤ} {n : ℕ} {f : ℤ} (hn : n < 2 ^ 53) (hf : -1074 ≤ f)
    (hf' : f ≤ 971) (hle : (m : ℚ) * 2 ^ e ≤ n * 2 ^ f) :
    Canonical (UnpackedFloat.round binary64 .positive m e) ∧
      0 ≤ valueOf (UnpackedFloat.round binary64 .positive m e) ∧
      valueOf (UnpackedFloat.round binary64 .positive m e) ≤ n * 2 ^ f := by
  obtain ⟨r, t, ht, hr, hnormal, hround, hfinal⟩ := exists_round hm e
  obtain ⟨m', e', hshift, hvalue, hm', he', hform⟩ :=
    shiftToTargetExponent_of_le hr (show -1074 ≤ t by omega)
  have hpow : ∀ a : ℤ, (0 : ℚ) < 2 ^ a := zpow_pos two_pos
  have hbound : (m' : ℚ) * 2 ^ e' ≤ n * 2 ^ f := by
    rw [hvalue]
    rcases le_or_gt t f with hcoarse | hfine
    · -- the double is a multiple of the last place kept
      rw [← scaled_mul_zpow n hcoarse] at hle ⊢
      exact mul_le_mul_of_nonneg_right (Nat.cast_le.mpr (hround _ hle)) (hpow t).le
    · -- the double would have fewer places than its value needs
      exfalso
      have hlow := (log2_bounds hm e).1
      have hpower : (2 : ℚ) ^ (f + 53) ≤ 2 ^ ((m.log2 : ℤ) + e) :=
        zpow_le_zpow_right₀ one_le_two (by omega)
      have hhigh : (n : ℚ) * 2 ^ f < 2 ^ (f + 53) := by
        rw [zpow_add₀ two_ne_zero, mul_comm]
        refine mul_lt_mul_of_pos_left ?_ (hpow f)
        exact_mod_cast hn
      exact absurd (hpower.trans (hlow.trans hle)) hhigh.not_ge
  rw [hfinal m' e' hshift]
  split
  · exact ⟨trivial, le_rfl, mul_nonneg (Nat.cast_nonneg n) (hpow f).le⟩
  next hne =>
    have hpositive := Nat.pos_of_ne_zero hne
    refine ⟨⟨hm', he', ?_, hform hnormal⟩, ?_, ?_⟩
    · by_contra hgreat
      have hlong : 2 ^ 52 ≤ m' := (hform hnormal).resolve_right (by omega)
      exact hbound.not_gt (magnitude_lt hn hlong (by omega))
    · rw [(valueOf_positive hpositive e').1]
      exact (valueOf_positive hpositive e').2.le
    · rw [(valueOf_positive hpositive e').1]
      exact hbound

/-! ## Sums -/

/-- A number that is not zero, with an exponent that is not above its own. -/
theorem exists_decreased (sign : Sign) {m : ℕ} (hm : 0 < m) {e t : ℤ} (ht : t ≤ e) :
    ∃ m', UnpackedFloat.decreaseExponent m e t = (m', t) ∧
      ((sign.apply (m' : ℤ) : ℤ) : ℚ) * 2 ^ t = valueOf (.finite sign m e hm) := by
  obtain ⟨m', e', hdecrease, hvalue, -, -, he'⟩ := exists_decreaseExponent hm e t
  obtain rfl : e' = t := he'.trans (min_eq_right ht)
  refine ⟨m', hdecrease, ?_⟩
  cases sign with
  | positive => exact hvalue
  | negative =>
      rw [(valueOf_negative hm e).1, ← hvalue]
      show ((-(m' : ℤ) : ℤ) : ℚ) * 2 ^ e' = _
      push_cast
      ring

/-- A positive value is that of a mantissa and an exponent of a double. -/
theorem exists_of_valueOf_pos {w : UnpackedFloat} (hw : Canonical w) (h : 0 < valueOf w) :
    ∃ (n : ℕ) (f : ℤ), n < 2 ^ 53 ∧ -1074 ≤ f ∧ f ≤ 971 ∧ valueOf w = n * 2 ^ f := by
  cases w with
  | infinity sign => cases hw
  | notANumber => cases hw
  | zero sign => exact absurd h (lt_irrefl 0)
  | finite sign n f hn =>
      obtain ⟨hlength, hlow, hhigh, -⟩ := hw
      cases sign with
      | positive => exact ⟨n, f, hlength, hlow, hhigh, rfl⟩
      | negative => exact absurd h ((valueOf_negative hn f).1 ▸ (valueOf_negative hn f).2.not_gt)

/-- An exact number between zero and a double is rounded to a double in the same range. -/
theorem normalize_le {a : ℤ} {t : ℤ} {w : UnpackedFloat} (hw : Canonical w)
    (h₀ : 0 ≤ (a : ℚ) * 2 ^ t) (hle : (a : ℚ) * 2 ^ t ≤ valueOf w) :
    Canonical (UnpackedFloat.normalize binary64 a t .positive) ∧
      0 ≤ valueOf (UnpackedFloat.normalize binary64 a t .positive) ∧
      valueOf (UnpackedFloat.normalize binary64 a t .positive) ≤ valueOf w := by
  have hpow : (0 : ℚ) < 2 ^ t := zpow_pos two_pos t
  unfold UnpackedFloat.normalize
  rcases lt_trichotomy a 0 with hneg | rfl | hpos
  · exact absurd h₀ (mul_neg_of_neg_of_pos (Int.cast_lt_zero.mpr hneg) hpow).not_ge
  · rw [Int.cast_zero, zero_mul] at hle
    exact ⟨trivial, le_rfl, hle⟩
  · obtain ⟨m, rfl⟩ := Int.eq_ofNat_of_zero_le hpos.le
    have hm : 0 < m := Int.natCast_pos.mp hpos
    rw [Int.cast_natCast] at hle
    have hexact : (0 : ℚ) < m * 2 ^ t := mul_pos (Nat.cast_pos.mpr hm) hpow
    obtain ⟨n, f, hn, hf, hf', hvalue⟩ := exists_of_valueOf_pos hw (hexact.trans_le hle)
    rw [hvalue] at hle ⊢
    rw [Int.compare_eq_gt.mpr hpos]
    exact round_le hm hn hf hf' hle

/-- A sum whose exact value lies between zero and a double is rounded to a double in the same
range. -/
theorem add_le {u v w : UnpackedFloat} (hu : Canonical u) (hv : Canonical v) (hw : Canonical w)
    (h₀ : 0 ≤ valueOf u + valueOf v) (hle : valueOf u + valueOf v ≤ valueOf w) :
    Canonical (UnpackedFloat.add binary64 u v) ∧
      0 ≤ valueOf (UnpackedFloat.add binary64 u v) ∧
      valueOf (UnpackedFloat.add binary64 u v) ≤ valueOf w := by
  have hzero : ∀ sign, valueOf (.zero sign) = 0 := fun _ ↦ rfl
  cases u with
  | infinity sign => cases hu
  | notANumber => cases hu
  | zero sign =>
      rw [hzero, zero_add] at h₀ hle
      cases v with
      | infinity sign' => cases hv
      | notANumber => cases hv
      | zero sign' =>
          have hsum : ∃ s, UnpackedFloat.add binary64 (.zero sign) (.zero sign') = .zero s := by
            cases sign <;> cases sign' <;> exact ⟨_, rfl⟩
          obtain ⟨s, hsum⟩ := hsum
          rw [hsum]
          exact ⟨trivial, le_rfl, hle⟩
      | finite sign' m' e' hm' => exact ⟨hv, h₀, hle⟩
  | finite sign m e hm =>
      cases v with
      | infinity sign' => cases hv
      | notANumber => cases hv
      | zero sign' =>
          rw [hzero, add_zero] at h₀ hle
          exact ⟨hu, h₀, hle⟩
      | finite sign' m' e' hm' =>
          obtain ⟨m₁, hdecrease, hvalue⟩ := exists_decreased sign hm (min_le_left e e')
          obtain ⟨m₂, hdecrease', hvalue'⟩ := exists_decreased sign' hm' (min_le_right e e')
          have hsum : UnpackedFloat.add binary64 (.finite sign m e hm) (.finite sign' m' e' hm') =
              UnpackedFloat.normalize binary64 (sign.apply m₁ + sign'.apply m₂) (min e e')
                .positive := by
            unfold UnpackedFloat.add
            simp only [hdecrease, hdecrease']
          rw [← hvalue, ← hvalue', ← add_mul, ← Int.cast_add] at h₀ hle
          rw [hsum]
          exact normalize_le hw h₀ hle

/-- A rounded sum does not pass a double. -/
theorem value_add_le {x y z : Float} (hx : x.isFinite = true) (hy : y.isFinite = true)
    (hz : z.isFinite = true) (h₀ : 0 ≤ value x + value y) (hle : value x + value y ≤ value z) :
    (x + y).isFinite = true ∧ 0 ≤ value (x + y) ∧ value (x + y) ≤ value z := by
  obtain ⟨hcanonical, hnonneg, hbound⟩ :=
    add_le (canonical_unpack hx) (canonical_unpack hy) (canonical_unpack hz) h₀ hle
  have hunpack : (x + y).toModel.unpack =
      UnpackedFloat.add binary64 x.toModel.unpack y.toModel.unpack := unpack_pack hcanonical
  refine ⟨isFinite_of_canonical (hunpack ▸ hcanonical), ?_, ?_⟩
  · unfold value
    rwa [hunpack]
  · unfold value
    rwa [hunpack]

end PlasmaField.Binary64
