import Mathlib
import PlasmaField.Proofs.Harmonics
import PlasmaField.Proofs.Zero

/-!
# Harmonic series with coefficients zero

A series with coefficients zero adds nothing to any other series of the same modes,
`HarmonicBasis.Neutral.add_eq`. At a point where the angles of all modes are finite it is zero. At
any other point some angle has no sine and no cosine, and then no series has a value to which
something could be added. The coefficients need to be zero only where the modes are finite: scaling
a zero by an infinite mode number gives no zero.
-/

namespace PlasmaField

open Scalar (nth isFinite)
open ElementaryScalar (sin cos)

variable {α : Type} [ElementaryScalar α]

/-- Coefficients that are all zero. -/
def zeroTable (ns mn : ℕ) : Table α :=
  Table.ofFn ns mn fun _ _ ↦ 0

/-- A sum that is undefined stays so. -/
theorem foldl_add_of_absorbing (f : ℕ → α) {acc : α} (hacc : Absorbing acc) (l : List ℕ) :
    l.foldl (fun acc k ↦ acc + f k) acc = acc := by
  induction l with
  | nil => rfl
  | cons k l ih => rw [List.foldl_cons, hacc.add_left, ih]

/-- A sum with an undefined term is undefined. -/
theorem absorbing_foldl_add {f : ℕ → α} {k : ℕ} (hk : Absorbing (f k)) {l : List ℕ} (hl : k ∈ l)
    (acc : α) : Absorbing (l.foldl (fun acc k ↦ acc + f k) acc) := by
  induction l generalizing acc with
  | nil => cases hl
  | cons j l ih =>
      rw [List.foldl_cons]
      rcases List.mem_cons.mp hl with rfl | hl
      · rw [hk.add_right, foldl_add_of_absorbing f hk]
        exact hk
      · exact ih hl _

/-- A sum of zeros adds nothing. -/
theorem foldl_add_zero [NeutralZero α] {f : ℕ → α} {l : List ℕ} (h : ∀ k ∈ l, f k = 0) (acc : α) :
    l.foldl (fun acc k ↦ acc + f k) acc = acc := by
  induction l with
  | nil => rfl
  | cons k l ih =>
      rw [List.foldl_cons, h k List.mem_cons_self, NeutralZero.add_zero]
      exact ih fun j hj ↦ h j (List.mem_cons_of_mem k hj)

namespace HarmonicBasis

variable (b : HarmonicBasis α)

/-- A sum over the modes with an undefined term is undefined. -/
theorem absorbing_sumModes {term : ℕ → α} {k : ℕ} (hk : k < b.modes) (h : Absorbing (term k)) :
    Absorbing (b.sumModes term) := by
  have hpos : 0 < blockSize := by decide
  have hsplit : k / blockSize * blockSize + k % blockSize = k := Nat.div_add_mod' k blockSize
  have hmod : k % blockSize < blockSize := Nat.mod_lt k hpos
  have hblock : k / blockSize < (b.modes + blockSize - 1) / blockSize := by
    unfold blockSize
    omega
  refine absorbing_foldl_add (f := fun block ↦ _) (k := k / blockSize) ?_
    (List.mem_range.mpr hblock) 0
  refine absorbing_foldl_add (f := fun j ↦ term (k / blockSize * blockSize + j))
    (k := k % blockSize) ?_ (List.mem_range.mpr (lt_min hmod (by omega))) 0
  rwa [hsplit]

/-- The angles of all modes are finite at a point. -/
def Regular (t v : α) : Prop :=
  ∀ k < b.modes, isFinite (nth b.xm k * t) = true ∧ isFinite (nth b.xn k * v) = true

variable [NeutralZero α]

/-- A sum of zeros over the modes is zero. -/
theorem sumModes_eq_zero {term : ℕ → α} (h : ∀ k < b.modes, term k = 0) : b.sumModes term = 0 := by
  refine foldl_add_zero (f := fun block ↦ _) (fun block _ ↦ ?_) 0
  refine foldl_add_zero (f := fun k ↦ term (block * blockSize + k)) (fun k hk ↦ h _ ?_) 0
  have hcount := List.mem_range.mp hk
  omega

/-- A function of an angle that is finite or undefined with the angle. -/
structure IsAngular (f : α → α) : Prop where
  finite : ∀ x, isFinite x = true → isFinite (f x) = true
  absorbing : ∀ x, isFinite x = false → Absorbing (f x)

omit b in
/-- The sine is finite for finite angles, and undefined for others. -/
theorem isAngular_sin : IsAngular (sin : α → α) :=
  ⟨NeutralZero.isFinite_sin, NeutralZero.absorbing_sin⟩

omit b in
/-- The cosine is finite for finite angles, and undefined for others. -/
theorem isAngular_cos : IsAngular (cos : α → α) :=
  ⟨NeutralZero.isFinite_cos, NeutralZero.absorbing_cos⟩

section ModeSum

variable {f g : α → α} (hf : IsAngular f) (hg : IsAngular g) {a : ℕ → α} {t v : α}
include hf hg

/-- Where the angles are finite, a sum with coefficients zero is zero. -/
theorem modeSum_eq_zero (hregular : b.Regular t v) (ha : ∀ k < b.modes, a k = 0) :
    b.modeSum f g a t v = 0 := by
  refine b.sumModes_eq_zero fun k hk ↦ ?_
  obtain ⟨ht, hv⟩ := hregular k hk
  rw [ha k hk, NeutralZero.mul_zero _ (hf.finite _ ht), NeutralZero.zero_mul _ (hg.finite _ hv)]

omit [NeutralZero α] in
/-- Where some angle is not finite, every sum over the modes is undefined. -/
theorem absorbing_modeSum (hregular : ¬ b.Regular t v) : Absorbing (b.modeSum f g a t v) := by
  obtain ⟨k, hangle⟩ := not_forall.mp hregular
  obtain ⟨hk, hangle⟩ := Classical.not_imp.mp hangle
  refine b.absorbing_sumModes hk ?_
  by_cases ht : isFinite (nth b.xm k * t) = true
  · have hundefined := hg.absorbing _ (Bool.eq_false_iff.mpr (not_and.mp hangle ht))
    rw [hundefined.mul_right]
    exact hundefined
  · have hundefined := hf.absorbing _ (Bool.eq_false_iff.mpr ht)
    rw [hundefined.mul_left, hundefined.mul_left]
    exact hundefined

end ModeSum

/-- A series is zero for coefficients zero where all angles are finite, and undefined elsewhere. -/
structure Neutral (series : (ℕ → α) → α → α → α) : Prop where
  eq_zero : ∀ {a t v}, b.Regular t v → (∀ k < b.modes, a k = 0) → series a t v = 0
  absorbing : ∀ a {t v}, ¬ b.Regular t v → Absorbing (series a t v)

/-- The series of cosines. -/
theorem neutral_cosineAt : b.Neutral b.cosineAt where
  eq_zero hregular ha := by
    unfold cosineAt
    rw [b.modeSum_eq_zero isAngular_cos isAngular_cos hregular ha,
      b.modeSum_eq_zero isAngular_sin isAngular_sin hregular ha, NeutralZero.sub_zero]
  absorbing a t v hregular := by
    have hfirst := b.absorbing_modeSum isAngular_cos isAngular_cos (a := a) hregular
    unfold cosineAt
    rw [hfirst.sub_left]
    exact hfirst

/-- The series of sines. -/
theorem neutral_sineAt : b.Neutral b.sineAt where
  eq_zero hregular ha := by
    unfold sineAt
    rw [b.modeSum_eq_zero isAngular_sin isAngular_cos hregular ha,
      b.modeSum_eq_zero isAngular_cos isAngular_sin hregular ha, NeutralZero.add_zero]
  absorbing a t v hregular := by
    have hfirst := b.absorbing_modeSum isAngular_sin isAngular_cos (a := a) hregular
    unfold sineAt
    rw [hfirst.add_left]
    exact hfirst

variable {b}

/-- A series with coefficients zero adds nothing to a series. -/
theorem Neutral.add_eq {first second : (ℕ → α) → α → α → α} (hfirst : b.Neutral first)
    (hsecond : b.Neutral second) (a : ℕ → α) {zeros : ℕ → α} {t v : α}
    (hzeros : b.Regular t v → ∀ k < b.modes, zeros k = 0) :
    first a t v + second zeros t v = first a t v := by
  by_cases hregular : b.Regular t v
  · rw [hsecond.eq_zero hregular (hzeros hregular), NeutralZero.add_zero]
  · exact (hfirst.absorbing a hregular).add_left _

/-! ## Tables of zeros -/

/-- Factors of the modes that are finite where the angles of the modes are. -/
structure FiniteFactors (b : HarmonicBasis α) (factor : Array α) : Prop where
  size : factor.size = b.modes
  finite : ∀ t v, b.Regular t v → ∀ k < b.modes, isFinite (nth factor k) = true

/-- Coefficients that are zero where the angles of the modes are finite. -/
def VanishesOn (b : HarmonicBasis α) (c : Table α) : Prop :=
  ∀ t v, b.Regular t v → ∀ s < c.rows, ∀ k < b.modes, c.get s k = 0

variable {ns : ℕ}

omit [NeutralZero α] in
/-- Coefficients zero vanish. -/
theorem vanishesOn_zeroTable : b.VanishesOn (zeroTable ns b.modes) :=
  fun _ _ _ _ hs _ hk ↦ Table.get_ofFn _ hs hk

/-- Coefficients zero vanish when they are scaled. -/
theorem vanishesOn_scaleColumns {factor : Array α} (h : b.FiniteFactors factor) :
    b.VanishesOn (scaleColumns (zeroTable ns b.modes) factor) := by
  intro t v hregular s hs k hk
  have hzero : (zeroTable ns b.modes : Table α).get s k = 0 := Table.get_ofFn _ hs hk
  have hsize : factor.size = (zeroTable ns b.modes : Table α).cols := h.size
  rw [get_scaleColumns hsize hs hk, hzero]
  exact NeutralZero.zero_mul _ (h.finite t v hregular k hk)

/-- The poloidal mode numbers are finite where the angles are. -/
theorem finiteFactors_xm : b.FiniteFactors b.xm where
  size := rfl
  finite _ _ hregular k hk := NeutralZero.isFinite_left _ _ (hregular k hk).1

/-- The toroidal mode numbers are finite where the angles are. -/
theorem finiteFactors_xn (hsize : b.xm.size = b.xn.size) : b.FiniteFactors b.xn where
  size := hsize.symm
  finite _ _ hregular k hk := NeutralZero.isFinite_left _ _ (hregular k hk).2

/-- A series of zeros adds nothing to the sum of a series on any surface, at any pair of angles. -/
theorem zipWith_zeroSeries {first second : (ℕ → α) → α → α → α} (hfirst : b.Neutral first)
    (hsecond : b.Neutral second) {coeffs zeros : Table α} {c c' : Cube α}
    (hc : b.synthesize first coeffs = .ok c) (hc' : b.synthesize second zeros = .ok c')
    (hrows : zeros.rows = coeffs.rows) (hzeros : b.VanishesOn zeros) :
    c.zipWith (· + ·) c' = c := by
  unfold synthesize at hc hc'
  split at hc
  · cases hc
  split at hc'
  · cases hc'
  cases hc
  cases hc'
  rw [hrows, Cube.zipWith_ofFn]
  refine Cube.ofFn_congr fun s i j hs hi hj ↦ ?_
  exact hfirst.add_eq hsecond _ fun hregular ↦ hzeros _ _ hregular s (hrows ▸ hs)

end HarmonicBasis

end PlasmaField
