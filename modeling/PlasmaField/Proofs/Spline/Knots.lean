import Mathlib
import PlasmaField.Spline.Cubic
import PlasmaField.Proofs.Exact

/-!
# Knots and their intervals

Over exact scalars the knot check accepts two or more increasing knots. Each value from the first
knot on lies in exactly one of the half-open knot intervals, of which the last one is unbounded;
`interval` finds it, `interval_eq_iff`.
-/

namespace PlasmaField.Spline

open Scalar (nth)
open scoped Exact

variable {K : Type} [Field K] [LinearOrder K] [FloorRing K]

/-- Every knot is below the one after it. -/
def Increasing (x : Array K) : Prop :=
  ∀ i, i + 1 < x.size → nth x i < nth x (i + 1)

/-- The knots are usable when there are at least two and they increase. -/
theorem checkKnots_eq_ok_iff (axis : KnotAxis) (x : Array K) :
    checkKnots axis x = .ok () ↔ 2 ≤ x.size ∧ Increasing x := by
  rw [Increasing, ← Exact.increasing_iff]
  unfold checkKnots
  rcases Nat.lt_or_ge x.size 2 with hsize | hsize
  · simp [hsize, throw, throwThe, MonadExceptOf.throw, bind, Except.bind]
  · simp [hsize.not_gt, hsize, throw, throwThe, MonadExceptOf.throw, pure, Except.pure]

/-- Later knots are larger. -/
theorem Increasing.lt {x : Array K} (hx : Increasing x) {i j : ℕ} (hij : i < j)
    (hj : j < x.size) : nth x i < nth x j := by
  induction j, hij using Nat.le_induction with
  | base => exact hx i hj
  | succ j hij ih => exact (ih (by omega)).trans (hx j hj)

/-- Later knots are not smaller. -/
theorem Increasing.le {x : Array K} (hx : Increasing x) {i j : ℕ} (hij : i ≤ j)
    (hj : j < x.size) : nth x i ≤ nth x j := by
  rcases hij.lt_or_eq with hlt | rfl
  · exact (hx.lt hlt hj).le
  · exact le_rfl

/-- A value is moved between the first and the last knot. -/
theorem Increasing.clamp_mem {x : Array K} (hx : Increasing x) (hn : 0 < x.size) (v : K) :
    Scalar.clamp (nth x 0) (nth x (x.size - 1)) v ∈ Set.Icc (nth x 0) (nth x (x.size - 1)) :=
  Exact.clamp_mem (hx.le (Nat.zero_le _) (Nat.sub_one_lt_of_lt hn)) v

/-- The length of knot interval `i`. -/
def gap (x : Array K) (i : ℕ) : K :=
  nth x (i + 1) - nth x i

/-- Knot intervals have positive length. -/
theorem Increasing.gap_pos {x : Array K} [IsStrictOrderedRing K] (hx : Increasing x) {i : ℕ}
    (hi : i + 1 < x.size) : 0 < gap x i :=
  sub_pos.mpr (hx i hi)

/-- The value lies in knot interval `i`, which holds its left end, and holds its right end only if
it is the last interval. -/
def Within (x : Array K) (i : ℕ) (v : K) : Prop :=
  i + 1 < x.size ∧ nth x i ≤ v ∧ (v < nth x (i + 1) ∨ i + 2 = x.size)

/-- A value lies in one interval only. -/
theorem Within.unique {x : Array K} (hx : Increasing x) {i j : ℕ} {v : K} (hi : Within x i v)
    (hj : Within x j v) : i = j := by
  have hle : ∀ {k l : ℕ}, Within x k v → Within x l v → l ≤ k := by
    intro k l hk hl
    by_contra hlt
    have hkl : nth x (k + 1) ≤ nth x l := hx.le (by omega) (by have := hl.1; omega)
    rcases hk.2.2 with hv | hlast
    · exact absurd (hv.trans_le (hkl.trans hl.2.1)) (lt_irrefl _)
    · have := hl.1
      omega
  exact le_antisymm (hle hj hi) (hle hi hj)

/-- The interval that is found holds the value. -/
theorem within_interval {x : Array K} (hn : 2 ≤ x.size) {v : K} (hv : nth x 0 ≤ v) :
    Within x (interval x v) v := by
  set k := x.findIdx (fun y ↦ !(y ≤ v)) with hk
  have hinterval : interval x v = min (k - 1) (x.size - 2) := rfl
  have hbelow : ∀ j < k, nth x j ≤ v := by
    intro j hj
    have hjn : j < x.size := hj.trans_le Array.findIdx_le_size
    have hnot := Array.not_of_lt_findIdx hj
    rw [Exact.nth_eq_getElem x hjn]
    simpa using hnot
  have habove : k < x.size → v < nth x k := by
    intro hkn
    have hfound : (!(x[k] ≤ v)) = true := Array.findIdx_getElem (w := hkn)
    rw [Exact.nth_eq_getElem x hkn]
    simpa using hfound
  -- the first knot is not above the value, so the knot that was found is not the first
  have hpos : 0 < k := by
    by_contra hzero
    have hk0 : k = 0 := by omega
    have := habove (by omega)
    rw [hk0] at this
    exact absurd (hv.trans_lt this) (lt_irrefl _)
  rcases Nat.lt_or_ge k x.size with hkn | hkn
  · have hi : interval x v = k - 1 := by omega
    refine ⟨by omega, hbelow _ (by omega), Or.inl ?_⟩
    rw [hi, Nat.sub_add_cancel hpos]
    exact habove hkn
  · have hi : interval x v = x.size - 2 := by omega
    exact ⟨by omega, hbelow _ (by omega), Or.inr (by omega)⟩

/-- The interval that is found for a value between the knots, with its right end, holds it. -/
theorem mem_interval {x : Array K} (hn : 2 ≤ x.size) {v : K} (hfirst : nth x 0 ≤ v)
    (hlast : v ≤ nth x (x.size - 1)) : interval x v + 1 < x.size ∧
      nth x (interval x v) ≤ v ∧ v ≤ nth x (interval x v + 1) := by
  obtain ⟨hi, hleft, hright⟩ := within_interval hn hfirst
  refine ⟨hi, hleft, ?_⟩
  rcases hright with hlt | hend
  · exact hlt.le
  · rwa [show interval x v + 1 = x.size - 1 by omega]

/-- The interval that is found is the one that holds the value. -/
theorem interval_eq_iff {x : Array K} (hx : Increasing x) (hn : 2 ≤ x.size) {v : K}
    (hv : nth x 0 ≤ v) (i : ℕ) : interval x v = i ↔ Within x i v := by
  constructor
  · rintro rfl
    exact within_interval hn hv
  · intro hi
    exact (within_interval hn hv).unique hx hi

/-- Formulas for the intervals that agree at the knots between them may be applied to either end of
an interval. -/
theorem apply_interval {β : Type} {x : Array K} (hx : Increasing x) (F : ℕ → K → β)
    (hF : ∀ i, i + 2 < x.size → F i (nth x (i + 1)) = F (i + 1) (nth x (i + 1))) {i : ℕ} {v : K}
    (hi : i + 1 < x.size) (hleft : nth x i ≤ v) (hright : v ≤ nth x (i + 1)) :
    F (interval x v) v = F i v := by
  have hfirst : nth x 0 ≤ v := (hx.le (Nat.zero_le i) (by omega)).trans hleft
  have hfind := interval_eq_iff hx (by omega : 2 ≤ x.size) hfirst
  rcases hright.lt_or_eq with hlt | rfl
  · rw [(hfind i).mpr ⟨hi, hleft, Or.inl hlt⟩]
  · by_cases hlast : i + 2 < x.size
    · have hnext : Within x (i + 1) (nth x (i + 1)) := ⟨hlast, le_rfl, Or.inl (hx _ hlast)⟩
      rw [(hfind (i + 1)).mpr hnext, hF i hlast]
    · rw [(hfind i).mpr ⟨hi, hleft, Or.inr (by omega)⟩]

end PlasmaField.Spline
