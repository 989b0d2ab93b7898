import Mathlib
import PlasmaField.Proofs.Equilibrium.Synthesis

/-!
# Profiles on the surfaces

Radial profiles are given half-way between the surfaces, and `halfToFull` moves them onto the
surfaces, entry by entry as `get_halfToFull` says. The mean of two neighbours is exact for a profile
that is affine in the radius. Both ends have formulas of their own: from an affine profile the axis
gets half of the first value that is given, and the last surface gets the last one. These lie half a
step away from the surfaces, so an affine profile is met everywhere only if it is zero,
`halfToFull_affine`.
-/

namespace PlasmaField

open SpectralInput (HasShape)

/-- The entries of profiles that are moved onto the surfaces. -/
theorem get_halfToFull {α : Type} [Scalar α] {profiles full : Table α}
    (h : halfToFull profiles = .ok full) {i k : ℕ} (hi : i < profiles.rows)
    (hk : k < profiles.cols) : full.get i k =
      if i = 0 then profiles.get 1 k - 0.5 * profiles.get 2 k
      else if i + 1 < profiles.rows then 0.5 * (profiles.get i k + profiles.get (i + 1) k)
      else 2 * profiles.get (profiles.rows - 2) k - profiles.get (profiles.rows - 3) k := by
  unfold halfToFull at h
  dsimp only at h
  split at h
  · cases h
  · cases h
    exact Table.get_ofFn _ hi hk

open scoped Exact

variable {K : Type} [Field K] [LinearOrder K] [FloorRing K] [IsStrictOrderedRing K]

/-- The values of an affine function of the radius, half a step inside of every surface. Surfaces
are one step apart. -/
def SamplesHalfGrid (f : ℕ → K) (ns : ℕ) (alpha beta : K) : Prop :=
  ∀ i < ns, f i = alpha + beta * (i - 1 / 2)

/-- What the values of an affine function half a step inside of every surface become: those of the
function on all surfaces but the first and the last, half of the first value on the axis, and the
last value on the last surface. -/
structure ShiftsAffine (f full : ℕ → K) (ns : ℕ) (alpha beta : K) : Prop where
  inner : ∀ i, 1 ≤ i → i + 1 < ns → full i = alpha + beta * i
  axis : full 0 = f 0 / 2 ∧ full 0 = alpha / 2 - beta / 4
  edge : full (ns - 1) = f (ns - 1) ∧ full (ns - 1) = alpha + beta * (ns - 3 / 2)
  constant : beta = 0 → full 0 = alpha / 2 ∧ ∀ i, 1 ≤ i → i < ns → full i = alpha
  everywhere_iff : (∀ i < ns, full i = alpha + beta * i) ↔ alpha = 0 ∧ beta = 0

/-- Values of an affine function that are averaged between neighbours and extrapolated at both ends
as radial profiles are. -/
theorem shiftsAffine_of_stencil {f full : ℕ → K} {ns : ℕ} {alpha beta : K} (hns : 3 ≤ ns)
    (hf : SamplesHalfGrid f ns alpha beta)
    (hinner : ∀ i, 1 ≤ i → i + 1 < ns → full i = (f i + f (i + 1)) / 2)
    (haxis : full 0 = f 1 - f 2 / 2) (hedge : full (ns - 1) = 2 * f (ns - 2) - f (ns - 3)) :
    ShiftsAffine f full ns alpha beta := by
  have hinner' (i : ℕ) (h₁ : 1 ≤ i) (h₂ : i + 1 < ns) : full i = alpha + beta * i := by
    rw [hinner i h₁ h₂, hf i (by omega), hf (i + 1) h₂]
    push_cast
    ring
  have haxis' : full 0 = alpha / 2 - beta / 4 := by
    rw [haxis, hf 1 (by omega), hf 2 (by omega)]
    push_cast
    ring
  have hedge' : full (ns - 1) = alpha + beta * (ns - 3 / 2) := by
    rw [hedge, hf (ns - 2) (by omega), hf (ns - 3) (by omega), Nat.cast_sub (by omega),
      Nat.cast_sub hns]
    push_cast
    ring
  have hconstant : beta = 0 → full 0 = alpha / 2 ∧ ∀ i, 1 ≤ i → i < ns → full i = alpha := by
    rintro rfl
    refine ⟨by rw [haxis']; ring, fun i h₁ h₂ ↦ ?_⟩
    rcases Nat.lt_or_ge (i + 1) ns with hlt | hge
    · rw [hinner' i h₁ hlt, zero_mul, add_zero]
    · obtain rfl : i = ns - 1 := by omega
      rw [hedge', zero_mul, add_zero]
  refine ⟨hinner', ⟨?_, haxis'⟩, ⟨?_, hedge'⟩, hconstant, ?_, ?_⟩
  · rw [haxis', hf 0 (by omega)]
    push_cast
    ring
  · rw [hedge', hf (ns - 1) (by omega), Nat.cast_sub (by omega)]
    push_cast
    ring
  · intro heverywhere
    -- the last surface shows the slope, and then the axis the constant
    have hlast := hedge'.symm.trans (heverywhere (ns - 1) (by omega))
    have hfirst := haxis'.symm.trans (heverywhere 0 (by omega))
    rw [Nat.cast_sub (by omega)] at hlast
    push_cast at hlast hfirst
    have hbeta : beta = 0 := by linarith
    rw [hbeta] at hfirst
    exact ⟨by linarith, hbeta⟩
  · rintro ⟨rfl, rfl⟩ i hi
    obtain ⟨hzero, hrest⟩ := hconstant rfl
    rw [zero_mul, add_zero]
    rcases Nat.eq_zero_or_pos i with rfl | hpos
    · rw [hzero, zero_div]
    · exact hrest i hpos hi

/-- A column of radial profiles that is affine. -/
theorem shiftsAffine_column {profiles full : Table K} (h : halfToFull profiles = .ok full)
    (hrows : 3 ≤ profiles.rows) {k : ℕ} (hk : k < profiles.cols) {alpha beta : K}
    (hf : SamplesHalfGrid (profiles.get · k) profiles.rows alpha beta) :
    ShiftsAffine (profiles.get · k) (full.get · k) profiles.rows alpha beta := by
  refine shiftsAffine_of_stencil hrows hf ?_ ?_ ?_
  · intro i h₁ h₂
    rw [get_halfToFull h (by omega) hk, if_neg (by omega), if_pos h₂, Exact.literal_scientific]
    ring
  · rw [get_halfToFull h (by omega) hk, if_pos rfl, Exact.literal_scientific]
    ring
  · rw [get_halfToFull h (by omega) hk, if_neg (by omega), if_neg (by omega),
      Exact.literal_ofNat]

/-- Radial profiles that are affine are moved onto the surfaces without an error, but for the axis
and the last surface. -/
theorem halfToFull_affine {profiles : Table K} (hrows : 3 ≤ profiles.rows) {alpha beta : ℕ → K}
    (h : ∀ k < profiles.cols,
      SamplesHalfGrid (profiles.get · k) profiles.rows (alpha k) (beta k)) :
    ∃ full, halfToFull profiles = .ok full ∧ HasShape full profiles.rows profiles.cols ∧
      ∀ k < profiles.cols,
        ShiftsAffine (profiles.get · k) (full.get · k) profiles.rows (alpha k) (beta k) := by
  obtain ⟨full, hfull, hshape⟩ := halfToFull_eq_ok hrows
  exact ⟨full, hfull, hshape, fun k hk ↦ shiftsAffine_column hfull hrows hk (h k hk)⟩

section TwoProfiles

/-- A constant profile and a linear one, half-way between three surfaces. -/
def twoProfiles : Table ℚ :=
  .ofFn 3 2 fun i k ↦ if k = 0 then 1 else i - 1 / 2

/-- The entries are the values of the two functions. -/
theorem samplesHalfGrid_twoProfiles : ∀ k < 2,
    SamplesHalfGrid (twoProfiles.get · k) 3 (if k = 0 then 1 else 0) (if k = 0 then 0 else 1) := by
  intro k hk i hi
  refine (Table.get_ofFn _ hi hk).trans ?_
  split <;> ring

/-- Both profiles are moved onto the three surfaces. -/
theorem halfToFull_twoProfiles : 3 ≤ twoProfiles.rows ∧
    ∃ full, halfToFull twoProfiles = .ok full ∧
      ShiftsAffine (twoProfiles.get · 0) (full.get · 0) 3 1 0 ∧
      ShiftsAffine (twoProfiles.get · 1) (full.get · 1) 3 0 1 := by
  have hrows : 3 ≤ twoProfiles.rows := le_rfl
  obtain ⟨full, hfull, -, hshifts⟩ := halfToFull_affine hrows samplesHalfGrid_twoProfiles
  exact ⟨hrows, full, hfull, hshifts 0 two_pos, hshifts 1 one_lt_two⟩

/-- The constant profile is halved on the axis, and the linear one is not met on the last surface,
whose number is two. -/
theorem twoProfiles_ends :
    (∀ i < 3, twoProfiles.get i 0 = 1) ∧ (∀ i < 3, twoProfiles.get i 1 = i - 1 / 2) ∧
      ∃ full, halfToFull twoProfiles = .ok full ∧ full.get 0 0 = 1 / 2 ∧
        full.get 2 1 = 3 / 2 := by
  have hrows : 3 ≤ twoProfiles.rows := le_rfl
  obtain ⟨full, hfull, -⟩ := halfToFull_eq_ok hrows
  have hconstant := shiftsAffine_column hfull hrows two_pos (samplesHalfGrid_twoProfiles 0 two_pos)
  have hlinear := shiftsAffine_column hfull hrows one_lt_two
    (samplesHalfGrid_twoProfiles 1 one_lt_two)
  refine ⟨fun i hi ↦ Table.get_ofFn _ hi two_pos, fun i hi ↦ Table.get_ofFn _ hi one_lt_two, full,
    hfull, hconstant.axis.2.trans (by norm_num), hlinear.edge.2.trans ?_⟩
  show (0 : ℚ) + 1 * ((3 : ℕ) - 3 / 2) = 3 / 2
  norm_num

end TwoProfiles

end PlasmaField
