import Mathlib
import PlasmaField.EdgeDamping
import PlasmaField.Proofs.Exact

/-!
# The damping factor of a box

Between two opposite walls with strips along them the damping factor is the least of the distances
from both walls in units of the strips' width, cut to the range from zero to one; in a corner it is
the least of all four. Each strip is tested on its own side of the box only, and the check that the
strips of opposite walls leave room between them is what makes the other test superfluous:
`fallsToward_of_ofParameters`. That check doubles the widths in 64-bit words and therefore passes
for some widths of `2 ^ 63` cells and more, for which the factor does not vanish beyond a wall:
`factor_of_wrapped_width`.
-/

namespace PlasmaField

open Scalar (nth)
open scoped Exact

variable {K : Type} [Field K] [LinearOrder K] [FloorRing K]

/-! ## Two opposite walls -/

/-- Two opposite walls, and the strips along them: how many cells they are wide, and how wide a cell
is. -/
structure WallPair (K : Type) where
  lower : K
  upper : K
  cells : UInt64
  spacing : K

namespace WallPair

variable (w : WallPair K)

/-- The width of the strips. -/
def width : K :=
  w.cells.toNat * w.spacing

/-- The distance from the nearer wall. It is negative beyond the wall. -/
def depth (v : K) : K :=
  min (v - w.lower) (w.upper - v)

/-- The distances from both walls in units of the width of the strips, where there are strips. -/
def ratios (v : K) : List K :=
  if w.cells = 0 then [] else [(v - w.lower) / w.width, (w.upper - v) / w.width]

/-- The least ratio, if it is below one. -/
def leastRatio (v : K) : K :=
  (w.ratios v).foldr min 1

/-- The strips have a width and leave room between them. -/
structure Apart : Prop where
  width_pos : 0 < w.width
  inner_le : w.lower + w.width ≤ w.upper - w.width

omit [FloorRing K] in
/-- Without strips no ratio is below one. -/
theorem leastRatio_of_cells_eq_zero {w : WallPair K} (h : w.cells = 0) (v : K) :
    w.leastRatio v = 1 := by
  unfold leastRatio ratios
  rw [if_pos h]
  rfl

omit [FloorRing K] in
/-- The least ratio is at most one. -/
theorem leastRatio_le_one (v : K) : w.leastRatio v ≤ 1 := by
  unfold leastRatio ratios
  split
  · exact le_rfl
  · exact (min_le_right _ _).trans (min_le_right _ _)

section Ordered

variable [IsStrictOrderedRing K] {w}

omit [FloorRing K] in
/-- With strips the least ratio is the depth in units of their width. -/
theorem Apart.leastRatio_eq (hw : w.Apart) (hcells : w.cells ≠ 0) (v : K) :
    w.leastRatio v = min (w.depth v / w.width) 1 := by
  unfold leastRatio ratios depth
  rw [if_neg hcells, ← min_div_div_right hw.width_pos.le]
  exact (min_assoc _ _ _).symm

variable (hw : w.cells ≠ 0 → w.Apart)
include hw

omit [FloorRing K] in
/-- The least ratio is one outside the strips. -/
theorem leastRatio_eq_one_iff (v : K) :
    w.leastRatio v = 1 ↔ (w.cells ≠ 0 → w.width ≤ w.depth v) := by
  by_cases hcells : w.cells = 0
  · simp [leastRatio_of_cells_eq_zero hcells, hcells]
  · rw [(hw hcells).leastRatio_eq hcells, min_eq_right_iff, one_le_div (hw hcells).width_pos]
    simp [hcells]

omit [FloorRing K] in
/-- The least ratio is not positive on a wall with a strip and beyond it. -/
theorem leastRatio_nonpos_iff (v : K) :
    w.leastRatio v ≤ 0 ↔ w.cells ≠ 0 ∧ w.depth v ≤ 0 := by
  by_cases hcells : w.cells = 0
  · simp [leastRatio_of_cells_eq_zero hcells, hcells]
  · rw [(hw hcells).leastRatio_eq hcells, min_le_iff, div_le_iff₀ (hw hcells).width_pos, zero_mul]
    simp [hcells]

omit [FloorRing K] in
/-- The least ratio does not grow toward the nearer wall. -/
theorem leastRatio_mono {v v' : K} (h : w.cells ≠ 0 → w.depth v' ≤ w.depth v) :
    w.leastRatio v' ≤ w.leastRatio v := by
  by_cases hcells : w.cells = 0
  · rw [leastRatio_of_cells_eq_zero hcells, leastRatio_of_cells_eq_zero hcells]
  · rw [(hw hcells).leastRatio_eq hcells, (hw hcells).leastRatio_eq hcells]
    exact min_le_min_right _ (div_le_div_of_nonneg_right (h hcells) (hw hcells).width_pos.le)

end Ordered

end WallPair

/-! ## The strips of a box -/

/-- The factor of a strip with a width is the distance from the wall in units of the width. -/
theorem Strip.factor_eq {s : Strip K} (h : s.inner ≠ s.outer) (v : K) :
    s.factor v = (v - s.outer) / (s.inner - s.outer) := by
  unfold factor
  simp only [beq_iff_eq, h, if_false, Exact.literal_one]
  rw [div_add_one (sub_ne_zero.mpr h), sub_add_sub_cancel]

namespace EdgeDamping

/-- Strips without a width lower no factor. -/
theorem lower_of_inner_eq {low high : Strip K} (hlow : low.inner = low.outer)
    (hhigh : high.inner = high.outer) {q : K} (hq : q ≤ 1) (v : K) : lower q low high v = q := by
  unfold lower Strip.factor
  simp [hlow, hhigh, hq]

section Ordered

variable [IsStrictOrderedRing K]

/-- Strips along two walls lower a factor to the least ratio. Each strip is tested on its own side
only, where the ratio of the other wall is no smaller. -/
theorem lower_of_apart {w : WallPair K} (hw : w.Apart) (hcells : w.cells ≠ 0) {q : K} (hq : q ≤ 1)
    (v : K) : lower q ⟨w.lower + w.width, w.lower⟩ ⟨w.upper - w.width, w.upper⟩ v =
      min q (w.leastRatio v) := by
  have hpos := hw.width_pos
  have hinner := hw.inner_le
  have hlow : (⟨w.lower + w.width, w.lower⟩ : Strip K).factor v = (v - w.lower) / w.width := by
    rw [Strip.factor_eq (by simpa using hpos.ne'), add_sub_cancel_left]
  have hhigh : (⟨w.upper - w.width, w.upper⟩ : Strip K).factor v = (w.upper - v) / w.width := by
    rw [Strip.factor_eq (by simpa using hpos.ne'), sub_sub_cancel_left, ← neg_sub, neg_div_neg_eq]
  unfold lower
  rw [hlow, hhigh, hw.leastRatio_eq hcells, Exact.min_eq, Exact.min_eq, WallPair.depth]
  split
  next hleft =>
    have hdepth : v - w.lower ≤ w.upper - v := by linarith
    have hone : (v - w.lower) / w.width ≤ 1 := (div_le_one hpos).mpr (by linarith)
    rw [min_eq_left hdepth, min_eq_left hone]
  next hleft =>
    split
    next hright =>
      have hdepth : w.upper - v ≤ v - w.lower := by linarith
      have hone : (w.upper - v) / w.width ≤ 1 := (div_le_one hpos).mpr (by linarith)
      rw [min_eq_right hdepth, min_eq_left hone]
    next hright =>
      have hdepth : w.width ≤ min (v - w.lower) (w.upper - v) :=
        le_min (by linarith) (by linarith)
      rw [min_eq_right ((one_le_div hpos).mpr hdepth), min_eq_left hq]

/-! ## Boxes -/

/-- The ends of equally spaced coordinates, and strips along them that leave room between them. -/
theorem apart_linspace {lower upper : K} (h : lower < upper) {n : ℕ} {cells : UInt64}
    (hcells : cells ≠ 0) (hfit : 2 * cells.toNat < n) :
    let xs := Scalar.linspace lower upper n
    nth xs 0 = lower ∧ nth xs (xs.size - 1) = upper ∧
      (⟨lower, upper, cells, Grid.spacing xs lower upper⟩ : WallPair K).Apart := by
  intro xs
  have hsize : xs.size = n := Array.size_ofFn
  have hpos : 0 < cells.toNat := Nat.pos_of_ne_zero fun h ↦ hcells (UInt64.toNat_inj.mp h)
  have hn : 1 < n := by omega
  have hgaps : (0 : K) < ((n - 1 : ℕ) : K) := Nat.cast_pos.mpr (by omega)
  have hentry : ∀ i < n, nth xs i = lower + (upper - lower) / ((n - 1 : ℕ) : K) * i :=
    fun i hi ↦ Exact.nth_linspace lower upper hn hi
  have hspacing : Grid.spacing xs lower upper = (upper - lower) / ((n - 1 : ℕ) : K) := by
    unfold Grid.spacing
    rw [if_pos (hn.trans_eq hsize.symm), hentry 1 hn, hentry 0 (by omega)]
    simp
  have htwice : (2 : K) * cells.toNat ≤ ((n - 1 : ℕ) : K) := by
    exact_mod_cast show 2 * cells.toNat ≤ n - 1 by omega
  have hstep : 0 < (upper - lower) / ((n - 1 : ℕ) : K) := div_pos (sub_pos.mpr h) hgaps
  have hspan : (upper - lower) / ((n - 1 : ℕ) : K) * ((n - 1 : ℕ) : K) = upper - lower :=
    div_mul_cancel₀ _ hgaps.ne'
  refine ⟨?_, ?_, ?_, ?_⟩
  · rw [hentry 0 (by omega), Nat.cast_zero, mul_zero, add_zero]
  · rw [hsize, hentry (n - 1) (by omega), hspan, add_sub_cancel]
  · unfold WallPair.width
    rw [hspacing]
    exact mul_pos (Nat.cast_pos.mpr hpos) hstep
  · have hroom := mul_le_mul_of_nonneg_left htwice hstep.le
    unfold WallPair.width
    dsimp only
    rw [hspacing]
    linarith

/-- Strips along the ends of equally spaced coordinates lower a factor to the least ratio. -/
theorem lower_of_linspace {lower upper : K} (h : lower < upper) {n : ℕ} {cells : UInt64}
    (hfit : 2 * cells.toNat < n) {q : K} (hq : q ≤ 1) (v : K) :
    let xs := Scalar.linspace lower upper n
    let w : WallPair K := ⟨lower, upper, cells, Grid.spacing xs lower upper⟩
    EdgeDamping.lower q ⟨nth xs 0 + w.width, nth xs 0⟩
      ⟨nth xs (xs.size - 1) - w.width, nth xs (xs.size - 1)⟩ v = min q (w.leastRatio v) := by
  intro xs w
  by_cases hcells : cells = 0
  · have hwidth : w.width = 0 := by simp [WallPair.width, w, hcells]
    rw [hwidth, WallPair.leastRatio_of_cells_eq_zero hcells, min_eq_left hq]
    exact lower_of_inner_eq (add_zero _) (sub_zero _) hq v
  · obtain ⟨hfirst, hlast, hw⟩ : nth xs 0 = lower ∧ nth xs (xs.size - 1) = upper ∧ w.Apart :=
      apart_linspace h hcells hfit
    rw [hfirst, hlast]
    exact lower_of_apart hw hcells hq v

/-- The damping of a box is accepted if the strips of opposite walls leave room between them. Their
widths are doubled in 64-bit words. -/
theorem ofParameters_eq_ok_iff {α : Type} [Scalar α] {g : Grid α} {p : DampingParameters}
    {d : EdgeDamping α} : ofParameters g p = .ok d ↔
      ((2 * p.xBoundary).toNat < g.nr ∧ (2 * p.zBoundary).toNat < g.nz) ∧
      d = ⟨p.mode, ⟨g.rMin + Scalar.ofNat p.xBoundary.toNat * g.dr, g.rMin⟩,
        ⟨g.rMax - Scalar.ofNat p.xBoundary.toNat * g.dr, g.rMax⟩,
        ⟨g.zMin + Scalar.ofNat p.zBoundary.toNat * g.dz, g.zMin⟩,
        ⟨g.zMax - Scalar.ofNat p.zBoundary.toNat * g.dz, g.zMax⟩⟩ := by
  unfold ofParameters
  simp only [Bool.or_eq_true, decide_eq_true_eq]
  split
  next h =>
    simp only [reduceCtorEq, false_iff]
    omega
  next h =>
    rw [not_or, not_le, not_le] at h
    rw [and_iff_right h, Except.ok.injEq]
    exact eq_comm

/-- A width below `2 ^ 63` is doubled without a loss. -/
theorem toNat_two_mul {n : UInt64} (h : n.toNat < 2 ^ 63) : (2 * n).toNat = 2 * n.toNat := by
  have htwo : (2 : UInt64).toNat = 2 := rfl
  rw [UInt64.toNat_mul, htwo]
  omega

/-- The damping factor of a box with the given walls is the least of the ratios of both directions,
cut to the range from zero to one. It is one at the points outside all strips and no others, and
zero on the walls with strips, beyond them and nowhere else. It does not grow when a point moves
toward the nearer of two walls with strips. -/
structure FallsToward (d : EdgeDamping K) (a b : WallPair K) : Prop where
  factor_eq : ∀ x z, d.factor x z = max 0 ((a.ratios x ++ b.ratios z).foldr min 1)
  one_iff : ∀ x z, d.factor x z = 1 ↔
    (a.cells ≠ 0 → a.width ≤ a.depth x) ∧ (b.cells ≠ 0 → b.width ≤ b.depth z)
  zero_iff : ∀ x z, d.factor x z = 0 ↔
    (a.cells ≠ 0 ∧ a.depth x ≤ 0) ∨ (b.cells ≠ 0 ∧ b.depth z ≤ 0)
  mono : ∀ x z x' z', (a.cells ≠ 0 → a.depth x' ≤ a.depth x) →
    (b.cells ≠ 0 → b.depth z' ≤ b.depth z) → d.factor x' z' ≤ d.factor x z

/-- A box whose damping factor is the least of the ratios falls toward its walls. -/
theorem fallsToward_of_factor {d : EdgeDamping K} {a b : WallPair K} (ha : a.cells ≠ 0 → a.Apart)
    (hb : b.cells ≠ 0 → b.Apart)
    (h : ∀ x z, d.factor x z = max 0 (min (a.leastRatio x) (b.leastRatio z))) :
    d.FallsToward a b where
  factor_eq x z := by
    have hleast : (b.ratios z).foldr min 1 = min 1 ((b.ratios z).foldr min 1) :=
      (min_eq_right (b.leastRatio_le_one z)).symm
    rw [h, List.foldr_append, hleast, List.foldr_assoc]
    rfl
  one_iff x z := by
    rw [h, ← WallPair.leastRatio_eq_one_iff ha, ← WallPair.leastRatio_eq_one_iff hb]
    constructor
    · intro hone
      have hmin := (le_max_iff.mp hone.ge).resolve_left (not_le.mpr one_pos)
      obtain ⟨hx, hz⟩ := le_min_iff.mp hmin
      exact ⟨(a.leastRatio_le_one x).antisymm hx, (b.leastRatio_le_one z).antisymm hz⟩
    · rintro ⟨hx, hz⟩
      rw [hx, hz, min_self, max_eq_right zero_le_one]
  zero_iff x z := by
    rw [h, max_eq_left_iff, min_le_iff, WallPair.leastRatio_nonpos_iff ha,
      WallPair.leastRatio_nonpos_iff hb]
  mono x z x' z' hx hz := by
    rw [h, h]
    exact max_le_max_left 0
      (min_le_min (WallPair.leastRatio_mono ha hx) (WallPair.leastRatio_mono hb hz))

/-- The damping factor on a grid falls toward the walls of its rectangle, for strips that are less
than `2 ^ 63` cells wide. -/
theorem fallsToward_of_ofParameters {nr nz : ℕ} {rMin rMax zMin zMax : K} (hr : rMin < rMax)
    (hz : zMin < zMax) {p : DampingParameters} (hxBoundary : p.xBoundary.toNat < 2 ^ 63)
    (hzBoundary : p.zBoundary.toNat < 2 ^ 63) {d : EdgeDamping K}
    (h : ofParameters (Grid.uniform nr nz rMin rMax zMin zMax) p = .ok d) :
    let g := Grid.uniform nr nz rMin rMax zMin zMax
    d.FallsToward ⟨rMin, rMax, p.xBoundary, g.dr⟩ ⟨zMin, zMax, p.zBoundary, g.dz⟩ := by
  intro g
  obtain ⟨⟨hcolumns, hrows⟩, rfl⟩ := ofParameters_eq_ok_iff.mp h
  have hfitX : 2 * p.xBoundary.toNat < nr := by
    rw [← toNat_two_mul hxBoundary]
    exact hcolumns.trans_eq Array.size_ofFn
  have hfitZ : 2 * p.zBoundary.toNat < nz := by
    rw [← toNat_two_mul hzBoundary]
    exact hrows.trans_eq Array.size_ofFn
  refine fallsToward_of_factor (fun hcells ↦ (apart_linspace hr hcells hfitX).2.2)
    (fun hcells ↦ (apart_linspace hz hcells hfitZ).2.2) fun x z ↦ ?_
  have hone := WallPair.leastRatio_le_one ⟨rMin, rMax, p.xBoundary, g.dr⟩ x
  have hlowerX := (lower_of_linspace hr hfitX le_rfl x).trans (min_eq_right hone)
  have hlowerZ := lower_of_linspace hz hfitZ hone z
  unfold factor
  rw [Exact.max_eq, Exact.literal_one, Exact.literal_zero, max_comm]
  exact congrArg (max 0) ((congrArg (lower · _ _ z) hlowerX).trans hlowerZ)

end Ordered

/-- On a grid of five columns and rows strips of two cells meet in the middle. -/
theorem fallsToward_meetingStrips :
    let g : Grid ℚ := Grid.uniform 5 5 0 4 0 8
    ∃ d, ofParameters g ⟨2, 1, .damped⟩ = .ok d ∧
      d.FallsToward ⟨0, 4, 2, g.dr⟩ ⟨0, 8, 1, g.dz⟩ := by
  intro g
  have hrooms : (2 * 2 : UInt64).toNat < g.nr ∧ (2 * 1 : UInt64).toNat < g.nz := by decide +kernel
  obtain ⟨d, hd⟩ : ∃ d, ofParameters g ⟨2, 1, .damped⟩ = .ok d :=
    ⟨_, ofParameters_eq_ok_iff.mpr ⟨hrooms, rfl⟩⟩
  exact ⟨d, hd, fallsToward_of_ofParameters (by norm_num) (by norm_num) (by decide) (by decide) hd⟩

/-! ## Widths that are doubled with a loss -/

/-- Strips of `2 ^ 63` cells pass the check on a grid of one cell. Beyond the right wall the damping
factor is then one half, where the least ratio is negative. -/
theorem factor_of_wrapped_width :
    let g : Grid ℚ := Grid.uniform 2 2 0 1 0 1
    ∃ d, ofParameters g ⟨2 ^ 63, 0, .damped⟩ = .ok d ∧ d.factor (2 ^ 62) 0 = 1 / 2 ∧
      max 0 (((⟨0, 1, 2 ^ 63, g.dr⟩ : WallPair ℚ).ratios (2 ^ 62) ++
        (⟨0, 1, 0, g.dz⟩ : WallPair ℚ).ratios 0).foldr min 1) = 0 := by
  intro g
  refine ⟨_, ofParameters_eq_ok_iff.mpr ⟨?_, rfl⟩, ?_, ?_⟩
  · decide +kernel
  · decide +kernel
  · decide +kernel

end EdgeDamping

end PlasmaField
