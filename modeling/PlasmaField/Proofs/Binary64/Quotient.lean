import Mathlib
import PlasmaField.Proofs.Binary64.Rounding

/-!
# Rounded quotients of doubles

A quotient is rounded from its leading digits and from how the rest compares with half of the last
one, `Leads`. It has enough of them, `exists_divCore`, so that a quotient up to the greatest double
is rounded to a double, and one from `2 ^ 1024` on to an infinity. As no two mantissas of 53 bits
have a quotient between these bounds, the second one alone tells whether the quotient of two finite
doubles is finite, `isFinite_div_iff`.
-/

namespace PlasmaField.Binary64

open Float.Model (UnpackedFloat)
open Float.Model.Format (binary64)
open Float.Model.UnpackedFloat (Sign Accuracy ExtendedMantissa)

/-! ## Rounding leading digits -/

/-- The number has the leading digits `m` in units of `2 ^ t`, and no others if it is said to be
exact. -/
structure Leads (m : ℕ) (t : ℤ) (accuracy : Accuracy) (q : ℚ) : Prop where
  low : m * 2 ^ t ≤ q
  high : q < (m + 1) * 2 ^ t
  exact : q = m * 2 ^ t → accuracy = .exact

/-- The mantissa is what it is made of. -/
theorem mantissa_ofMantissaAndAccuracy (m : ℕ) (accuracy : Accuracy) :
    (ExtendedMantissa.ofMantissaAndAccuracy m accuracy).mantissa = m := by
  rcases accuracy with _ | (_ | _ | _) <;> rfl

/-- The extended mantissa of a number is at most a whole number that is not below it. -/
theorem Leads.atMost {m : ℕ} {t : ℤ} {accuracy : Accuracy} {q : ℚ} (h : Leads m t accuracy q)
    {n : ℕ} (hle : q ≤ n * 2 ^ t) :
    AtMost (ExtendedMantissa.ofMantissaAndAccuracy m accuracy) n := by
  have hpow : (0 : ℚ) < 2 ^ t := zpow_pos two_pos t
  have hmn : m ≤ n := by
    exact_mod_cast (mul_le_mul_iff_left₀ hpow).mp (h.low.trans hle)
  rcases hmn.lt_or_eq with hlt | rfl
  · refine .inl ?_
    rwa [mantissa_ofMantissaAndAccuracy]
  · rw [h.exact (le_antisymm hle h.low)]
    exact .inr rfl

/-- Leading digits that are shifted and rounded do not pass a whole number of the new last place. -/
theorem Leads.roundedMantissa_le {m : ℕ} {t : ℤ} {accuracy : Accuracy} {q : ℚ}
    (h : Leads m t accuracy q) {k n : ℕ} (hle : q ≤ n * 2 ^ (t + k)) :
    (ExtendedMantissa.ofMantissaAndAccuracy m accuracy >>> k).roundedMantissa ≤ n := by
  refine (AtMost.shiftRight k (h.atMost ?_)).roundedMantissa_le
  rwa [Nat.cast_mul, Nat.cast_pow, Nat.cast_ofNat, mul_assoc, ← zpow_natCast,
    ← zpow_add₀ two_ne_zero, add_comm]

/-- A number is at most the power of two with one digit more than its leading digits. -/
theorem Leads.le_pow {m : ℕ} {t : ℤ} {accuracy : Accuracy} {q : ℚ} (h : Leads m t accuracy q)
    {p : ℤ} (hp : m.log2 + 1 + t ≤ p) : q ≤ 2 ^ p := by
  have hlog : ((m + 1 : ℕ) : ℚ) ≤ ((2 ^ (m.log2 + 1) : ℕ) : ℚ) :=
    Nat.cast_le.mpr Nat.lt_log2_self
  push_cast at hlog
  calc q ≤ ((m : ℚ) + 1) * 2 ^ t := h.high.le
    _ ≤ 2 ^ (m.log2 + 1) * 2 ^ t := mul_le_mul_of_nonneg_right hlog (zpow_pos two_pos t).le
    _ = 2 ^ ((m.log2 : ℤ) + 1 + t) := by
        rw [zpow_add₀ two_ne_zero]
        exact_mod_cast rfl
    _ ≤ 2 ^ p := zpow_le_zpow_right₀ one_le_two hp

/-- A mantissa of which 53 digits are kept is long when it is rounded. -/
theorem le_roundedMantissa {m k : ℕ} (hm : m ≠ 0) (hk : 52 + k = m.log2) (accuracy : Accuracy) :
    2 ^ 52 ≤ (ExtendedMantissa.ofMantissaAndAccuracy m accuracy >>> k).roundedMantissa := by
  refine le_trans ?_ (mantissa_le_roundedMantissa _)
  rw [mantissa_shiftRight, mantissa_ofMantissaAndAccuracy,
    Nat.le_div_iff_mul_le (Nat.two_pow_pos k), ← pow_add, hk]
  exact Nat.log2_self_le hm

/-- Rounding leading digits to the last place that is kept. The rounded number has a mantissa of 53
bits and a possible exponent, and does not pass a multiple of that place. -/
theorem Leads.exists_round {m : ℕ} {t : ℤ} {accuracy : Accuracy} {q : ℚ} (h : Leads m t accuracy q)
    (hdigits : 52 ≤ m.log2 ∨ t ≤ -1074) (sign : Sign) : ∃ (T : ℤ) (m' : ℕ) (e' : ℤ),
      T = max (m.log2 + t - 52) (-1074) ∧ m' < 2 ^ 53 ∧ -1074 ≤ e' ∧
      (2 ^ 52 ≤ m' ∨ e' = -1074) ∧ (T ≠ -1074 → 2 ^ 52 * 2 ^ T ≤ (m' : ℚ) * 2 ^ e') ∧
      (∀ bound : ℕ, q ≤ bound * 2 ^ T → (m' : ℚ) * 2 ^ e' ≤ bound * 2 ^ T) ∧
      UnpackedFloat.roundWithAccuracy binary64 sign m t accuracy =
        if h : m' = 0 then .zero sign else .finite sign m' e' (Nat.pos_of_ne_zero h) := by
  let T : ℤ := max (m.log2 + t - 52) (-1074)
  let k := (T - t).toNat
  have hk : t + k = T := by omega
  let em := ExtendedMantissa.ofMantissaAndAccuracy m accuracy >>> k
  have hround : ∀ bound : ℕ, q ≤ bound * 2 ^ T → em.roundedMantissa ≤ bound := fun bound hbound ↦
    h.roundedMantissa_le (by rwa [hk])
  have hr : em.roundedMantissa ≤ 2 ^ 53 := by
    refine hround _ ((h.le_pow (show m.log2 + 1 + t ≤ 53 + T by omega)).trans_eq ?_)
    rw [zpow_add₀ two_ne_zero]
    exact_mod_cast rfl
  have hnormal : T ≠ -1074 → 2 ^ 52 ≤ em.roundedMantissa := by
    intro hT
    have hm : m ≠ 0 := by
      rintro rfl
      have hzero := Nat.log2_zero
      omega
    exact le_roundedMantissa hm (by omega) accuracy
  obtain ⟨m', e', hshift, hvalue, hm', he', hform⟩ :=
    shiftToTargetExponent_of_le hr (show -1074 ≤ T by omega)
  have hpow : (0 : ℚ) ≤ 2 ^ T := (zpow_pos two_pos T).le
  refine ⟨T, m', e', rfl, hm', he', hform (or_iff_not_imp_right.mpr hnormal), fun hT ↦ ?_,
    fun bound hbound ↦ ?_, ?_⟩
  · rw [hvalue]
    refine mul_le_mul_of_nonneg_right ?_ hpow
    exact_mod_cast hnormal hT
  · rw [hvalue]
    exact mul_le_mul_of_nonneg_right (Nat.cast_le.mpr (hround bound hbound)) hpow
  · have hfirst : UnpackedFloat.shiftToTargetExponent binary64 m t accuracy = (em, T) := by
      unfold UnpackedFloat.shiftToTargetExponent UnpackedFloat.shiftToExponent
      rw [targetExponent_eq]
      exact Prod.ext rfl hk
    unfold UnpackedFloat.roundWithAccuracy
    simp only [hfirst, hshift]

/-- A number with a mantissa of 53 bits is below the power of two that has one bit more. -/
theorem mul_zpow_lt {m : ℕ} (hm : m < 2 ^ 53) (e : ℤ) : (m : ℚ) * 2 ^ e < 2 ^ (53 + e) := by
  rw [zpow_add₀ two_ne_zero]
  refine mul_lt_mul_of_pos_right ?_ (zpow_pos two_pos e)
  exact_mod_cast hm

/-- A number up to the greatest double is rounded to a double. -/
theorem Leads.canonical {m : ℕ} {t : ℤ} {accuracy : Accuracy} {q : ℚ} (h : Leads m t accuracy q)
    (hdigits : 52 ≤ m.log2 ∨ t ≤ -1074) (hq : q ≤ (2 ^ 53 - 1 : ℕ) * 2 ^ (971 : ℤ)) (sign : Sign) :
    Canonical (UnpackedFloat.roundWithAccuracy binary64 sign m t accuracy) := by
  obtain ⟨T, m', e', hT, hm', he', hform, -, hround, hresult⟩ := h.exists_round hdigits sign
  have hgreatest : ((2 ^ 53 - 1 : ℕ) : ℚ) * 2 ^ (971 : ℤ) < 2 ^ (1024 : ℤ) :=
    mul_zpow_lt (by norm_num) 971
  have hT' : T ≤ 971 := by
    by_contra hgreat
    have hm : 0 < m := by
      refine Nat.pos_of_ne_zero fun hzero ↦ ?_
      rw [hzero, Nat.log2_zero] at hT hdigits
      omega
    have hpower : (2 : ℚ) ^ (1024 : ℤ) ≤ 2 ^ ((m.log2 : ℤ) + t) :=
      zpow_le_zpow_right₀ one_le_two (by omega)
    have hlow := (log2_bounds hm t).1
    exact absurd (hpower.trans (hlow.trans (h.low.trans hq))) hgreatest.not_ge
  have hbound : (m' : ℚ) * 2 ^ e' ≤ (2 ^ 53 - 1 : ℕ) * 2 ^ (971 : ℤ) := by
    rw [← scaled_mul_zpow (2 ^ 53 - 1) hT'] at hq ⊢
    exact hround _ hq
  rw [hresult]
  split
  · trivial
  · refine ⟨hm', he', ?_, hform⟩
    by_contra hgreat
    have hlong : 2 ^ 52 ≤ m' := hform.resolve_right (by omega)
    exact hbound.not_gt (magnitude_lt (by norm_num) hlong (by omega))

/-- A number from `2 ^ 1024` on is rounded to one that has too great an exponent for a double. -/
theorem Leads.overflow {m : ℕ} {t : ℤ} {accuracy : Accuracy} {q : ℚ} (h : Leads m t accuracy q)
    (hdigits : 52 ≤ m.log2 ∨ t ≤ -1074) (hq : 2 ^ (1024 : ℤ) ≤ q) (sign : Sign) :
    ∃ m' e' hm, UnpackedFloat.roundWithAccuracy binary64 sign m t accuracy =
      .finite sign m' e' hm ∧ 972 ≤ e' := by
  obtain ⟨T, m', e', hT, hm', -, -, hnormal, -, hresult⟩ := h.exists_round hdigits sign
  have hlog : 1024 ≤ (m.log2 : ℤ) + t := by
    rcases le_or_gt t 1024 with hfine | hcoarse
    · have hlead := hq.trans_lt h.high
      rw [← one_mul ((2 : ℚ) ^ (1024 : ℤ)), ← Nat.cast_one, ← scaled_mul_zpow 1 hfine, one_mul,
        mul_lt_mul_iff_left₀ (zpow_pos two_pos t)] at hlead
      have hm : 2 ^ (1024 - t).toNat ≤ m := Nat.le_of_lt_succ (by exact_mod_cast hlead)
      have hlong := (Nat.le_log2 (Nat.two_pow_pos _ |>.trans_le hm).ne').mpr hm
      omega
    · omega
  have hgreat : (2 : ℚ) ^ (1024 : ℤ) ≤ m' * 2 ^ e' := by
    refine le_trans ?_ (hnormal (by omega))
    calc (2 : ℚ) ^ (1024 : ℤ) ≤ 2 ^ ((52 : ℤ) + T) := zpow_le_zpow_right₀ one_le_two (by omega)
      _ = 2 ^ 52 * 2 ^ T := by
          rw [zpow_add₀ two_ne_zero]
          rfl
  have hne : m' ≠ 0 := by
    rintro rfl
    rw [Nat.cast_zero, zero_mul] at hgreat
    exact hgreat.not_gt (zpow_pos two_pos _)
  refine ⟨m', e', Nat.pos_of_ne_zero hne, hresult.trans (dif_neg hne), ?_⟩
  by_contra hsmall
  have hbelow : (2 : ℚ) ^ (53 + e') ≤ 2 ^ (1024 : ℤ) := zpow_le_zpow_right₀ one_le_two (by omega)
  exact hgreat.not_gt ((mul_zpow_lt hm' e').trans_le hbelow)

/-! ## Quotients -/

/-- The digits of a quotient: those of the whole part of a fraction of which the numerator is
scaled. The scale is great enough for 53 digits, or the last one is the last of all doubles. -/
theorem exists_divCore_eq (m n : ℕ) (e f : ℤ) : ∃ (k : ℕ) (t : ℤ), t + k = e - f ∧
    (n.log2 + 53 ≤ m.log2 + k ∨ t ≤ -1074) ∧ UnpackedFloat.divCore binary64 m e n f =
      (m * 2 ^ k / n, t, UnpackedFloat.accuracyOfFraction (m * 2 ^ k % n) n) := by
  let t : ℤ := min (e - f) (max (m.log2 + e - (n.log2 + f) - 53) (-1074))
  have htarget : binary64.targetExponent
      (Float.Model.totalExponent m e - Float.Model.totalExponent n f) =
        max (m.log2 + e - (n.log2 + f) - 53) (-1074) := by
    have hmin : binary64.minExponent = -1074 := by decide
    have hbits : binary64.mantissaBits = 53 := rfl
    unfold Float.Model.Format.targetExponent Float.Model.totalExponent
    rw [hmin, hbits]
    congr 1
    push_cast
    ring
  refine ⟨(e - f - t).toNat, t, by omega, by omega, ?_⟩
  unfold UnpackedFloat.divCore
  simp only [htarget, Nat.shiftLeft_eq]
  rfl

/-- The whole part of a fraction has its leading digits. -/
theorem leads_fraction (a : ℕ) {n : ℕ} (hn : 0 < n) (t : ℤ) :
    Leads (a / n) t (UnpackedFloat.accuracyOfFraction (a % n) n) ((a : ℚ) / n * 2 ^ t) := by
  have hn₀ : (0 : ℚ) < n := Nat.cast_pos.mpr hn
  have hpow : (0 : ℚ) < 2 ^ t := zpow_pos two_pos t
  refine ⟨mul_le_mul_of_nonneg_right Nat.cast_div_le hpow.le, ?_, fun hexact ↦ ?_⟩
  · refine mul_lt_mul_of_pos_right ((div_lt_iff₀ hn₀).mpr ?_) hpow
    have hlt : a < (a / n + 1) * n := (Nat.lt_mul_div_succ _ hn).trans_eq (mul_comm _ _)
    exact_mod_cast hlt
  · have hwhole : (a : ℚ) = (a / n : ℕ) * n :=
      (div_eq_iff hn₀.ne').mp (mul_right_cancel₀ hpow.ne' hexact)
    have hmod : a % n = 0 :=
      Nat.mod_eq_zero_of_dvd (Dvd.intro_left _ (by exact_mod_cast hwhole.symm))
    unfold UnpackedFloat.accuracyOfFraction
    rw [if_pos hmod]

/-- A fraction whose numerator is scaled by enough has 53 digits before the point. -/
theorem le_log2_div {m n k : ℕ} (hm : 0 < m) (hn : 0 < n) (h : n.log2 + 53 ≤ m.log2 + k) :
    52 ≤ (m * 2 ^ k / n).log2 := by
  have hlong : 2 ^ 52 ≤ m * 2 ^ k / n := by
    rw [Nat.le_div_iff_mul_le hn]
    calc 2 ^ 52 * n ≤ 2 ^ 52 * 2 ^ (n.log2 + 1) :=
          Nat.mul_le_mul_left _ Nat.lt_log2_self.le
      _ = 2 ^ (n.log2 + 53) := by ring
      _ ≤ 2 ^ (m.log2 + k) := Nat.pow_le_pow_right two_pos h
      _ = 2 ^ m.log2 * 2 ^ k := pow_add _ _ _
      _ ≤ m * 2 ^ k := Nat.mul_le_mul_right _ (Nat.log2_self_le hm.ne')
  exact (Nat.le_log2 ((Nat.two_pow_pos 52).trans_le hlong).ne').mpr hlong

/-- The leading digits of a quotient, of which there are enough. -/
theorem exists_divCore {m n : ℕ} (hm : 0 < m) (hn : 0 < n) (e f : ℤ) : ∃ d t accuracy,
    UnpackedFloat.divCore binary64 m e n f = (d, t, accuracy) ∧
      Leads d t accuracy (m * 2 ^ e / (n * 2 ^ f)) ∧ (52 ≤ d.log2 ∨ t ≤ -1074) := by
  obtain ⟨k, t, hk, hdigits, hcore⟩ := exists_divCore_eq m n e f
  have hquotient : (m : ℚ) * 2 ^ e / (n * 2 ^ f) = ((m * 2 ^ k : ℕ) : ℚ) / n * 2 ^ t := by
    rw [mul_div_mul_comm, ← zpow_sub₀ two_ne_zero, ← hk, zpow_add₀ two_ne_zero, zpow_natCast]
    push_cast
    ring
  rw [hquotient]
  exact ⟨_, t, _, hcore, leads_fraction _ hn t, hdigits.imp_left (le_log2_div hm hn)⟩

/-- No quotient of mantissas of 53 bits lies between the greatest double and `2 ^ 1024`. -/
theorem quotient_le_of_lt {m n : ℕ} (hm : m < 2 ^ 53) (hn : 0 < n) (hn' : n < 2 ^ 53) {e f : ℤ}
    (h : (m : ℚ) * 2 ^ e / (n * 2 ^ f) < 2 ^ (1024 : ℤ)) :
    (m : ℚ) * 2 ^ e / (n * 2 ^ f) ≤ (2 ^ 53 - 1 : ℕ) * 2 ^ (971 : ℤ) := by
  have hgap : ∀ a b : ℕ, a < b → (a < 2 ^ 53 ∨ b ≤ 2 ^ 53) → a * 2 ^ 53 ≤ (2 ^ 53 - 1) * b := by
    omega
  -- the quotient in units of the bound, as a fraction of which one side is short
  obtain ⟨a, b, hb, hquotient, hshort⟩ : ∃ a b : ℕ, 0 < b ∧
      (m : ℚ) * 2 ^ e / (n * 2 ^ f) = a / b * 2 ^ (1024 : ℤ) ∧ (a < 2 ^ 53 ∨ b ≤ 2 ^ 53) := by
    rw [mul_div_mul_comm, ← zpow_sub₀ two_ne_zero]
    rcases le_total 1024 (e - f) with hle | hle
    · refine ⟨m * 2 ^ (e - f - 1024).toNat, n, hn, ?_, .inr hn'.le⟩
      rw [div_mul_eq_mul_div, div_mul_eq_mul_div, scaled_mul_zpow m hle]
    · refine ⟨m, n * 2 ^ (1024 - (e - f)).toNat, Nat.mul_pos hn (Nat.two_pow_pos _), ?_, .inl hm⟩
      have hscaled := scaled_mul_zpow n hle
      have hn₀ : (n : ℚ) ≠ 0 := Nat.cast_ne_zero.mpr hn.ne'
      have hunits : ((n * 2 ^ (1024 - (e - f)).toNat : ℕ) : ℚ) ≠ 0 :=
        Nat.cast_ne_zero.mpr (Nat.mul_pos hn (Nat.two_pow_pos _)).ne'
      rw [div_mul_eq_mul_div, div_mul_eq_mul_div, div_eq_div_iff hn₀ hunits]
      linear_combination (m : ℚ) * hscaled
  have hb₀ : (0 : ℚ) < b := Nat.cast_pos.mpr hb
  rw [hquotient] at h ⊢
  have hlt : a < b := by
    have hone := (mul_lt_iff_lt_one_left (zpow_pos two_pos (1024 : ℤ))).mp h
    exact_mod_cast (div_lt_one hb₀).mp hone
  have hbound : (a : ℚ) * 2 ^ 53 ≤ (2 ^ 53 - 1 : ℕ) * b := by
    exact_mod_cast hgap a b hlt hshort
  calc (a : ℚ) / b * 2 ^ (1024 : ℤ) = a * 2 ^ 53 / b * 2 ^ (971 : ℤ) := by
        rw [show (1024 : ℤ) = 53 + 971 by rfl, zpow_add₀ two_ne_zero, ← mul_assoc,
          div_mul_eq_mul_div]
        rfl
    _ ≤ (2 ^ 53 - 1 : ℕ) * 2 ^ (971 : ℤ) := by
        refine mul_le_mul_of_nonneg_right ?_ (zpow_pos two_pos _).le
        rwa [div_le_iff₀ hb₀]

/-- The magnitude of a finite number. -/
theorem abs_valueOf (sign : Sign) {m : ℕ} (hm : 0 < m) (e : ℤ) :
    |valueOf (.finite sign m e hm)| = m * 2 ^ e := by
  obtain ⟨hvalue, hpos⟩ := valueOf_positive hm e
  cases sign with
  | positive => rw [hvalue, abs_of_pos hpos]
  | negative => rw [(valueOf_negative hm e).1, abs_neg, abs_of_pos hpos]

/-- A number with too great an exponent is packed as an infinity. -/
theorem unpack_pack_of_great (sign : Sign) {m : ℕ} (hm : 0 < m) {e : ℤ} (he : 972 ≤ e) :
    (Float.Model.pack (.finite sign m e hm)).unpack = .infinity sign := by
  show UnpackedFloat.unpack binary64 (UnpackedFloat.pack binary64 (.finite sign m e hm)) = _
  rw [pack_finite, if_pos (by omega)]
  exact unpack_packComponents sign (-1#11) 0#52

/-- The quotient of two finite numbers is rounded to a finite one just if the exact quotient is
below `2 ^ 1024`. -/
theorem isFinite_pack_div {sign sign' : Sign} {m n : ℕ} {e f : ℤ} {hm : 0 < m} {hn : 0 < n}
    (hu : Canonical (.finite sign m e hm)) (hv : Canonical (.finite sign' n f hn)) :
    (Float.Model.pack (UnpackedFloat.div binary64 (.finite sign m e hm)
      (.finite sign' n f hn))).unpack.isFinite = true ↔
      (m : ℚ) * 2 ^ e / (n * 2 ^ f) < 2 ^ (1024 : ℤ) := by
  obtain ⟨d, t, accuracy, hcore, hleads, hdigits⟩ := exists_divCore hm hn e f
  have hdiv : UnpackedFloat.div binary64 (.finite sign m e hm) (.finite sign' n f hn) =
      UnpackedFloat.roundWithAccuracy binary64 (sign / sign') d t accuracy := by
    unfold UnpackedFloat.div
    simp only [hcore]
  rw [hdiv]
  constructor
  · intro hfinite
    by_contra hgreat
    obtain ⟨m', e', hm', hround, he'⟩ :=
      hleads.overflow hdigits (not_lt.mp hgreat) (sign / sign')
    rw [hround, unpack_pack_of_great _ hm' he'] at hfinite
    cases hfinite
  · intro hlt
    have hcanonical :=
      hleads.canonical hdigits (quotient_le_of_lt hu.1 hn hv.1 hlt) (sign / sign')
    rw [unpack_pack hcanonical]
    exact hcanonical.isFinite

/-- The quotient of two finite doubles is finite just if the exact quotient is below `2 ^ 1024`. -/
theorem isFinite_div_iff {x y : Float} (hx : x.isFinite = true) (hy : y.isFinite = true)
    (hne : value y ≠ 0) : (x / y).isFinite = true ↔ |value x| < 2 ^ 1024 * |value y| := by
  have hu := canonical_unpack hx
  have hv := canonical_unpack hy
  show (Float.Model.pack (UnpackedFloat.div binary64 x.toModel.unpack
    y.toModel.unpack)).unpack.isFinite = true ↔
      |valueOf x.toModel.unpack| < 2 ^ 1024 * |valueOf y.toModel.unpack|
  unfold value at hne
  generalize x.toModel.unpack = u at hu ⊢
  generalize y.toModel.unpack = v at hv hne ⊢
  cases v with
  | infinity sign' => cases hv
  | notANumber => cases hv
  | zero sign' => exact absurd rfl hne
  | finite sign' n f hn =>
      have hn₀ : (0 : ℚ) < n * 2 ^ f := (valueOf_positive hn f).2
      rw [abs_valueOf]
      cases u with
      | infinity sign => cases hu
      | notANumber => cases hu
      | zero sign =>
          refine iff_of_true ?_ ?_
          · show (Float.Model.pack (.zero _)).unpack.isFinite = true
            rw [unpack_pack (u := .zero _) trivial]
            rfl
          · rw [show valueOf (.zero sign) = 0 from rfl, abs_zero]
            exact mul_pos (by norm_num) hn₀
      | finite sign m e hm =>
          rw [abs_valueOf, isFinite_pack_div hu hv, ← div_lt_iff₀ hn₀]
          exact_mod_cast Iff.rfl

end PlasmaField.Binary64
