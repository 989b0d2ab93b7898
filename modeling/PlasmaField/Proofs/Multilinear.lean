import Mathlib
import PlasmaField.Multilinear
import PlasmaField.Proofs.Outcome
import PlasmaField.Proofs.Spline.Knots

/-!
# Multilinear interpolation as a mean of samples

Over exact scalars the corners of a cell have weights that are not negative and add up to one, and
places within the samples, `isMean_corners`. A value within the grid is therefore a mean of samples,
`eval_cases`, and lies between any bounds of the samples that take part, `IsMean.le_sum` and
`IsMean.sum_le`. What the checks accept is said for any scalars first,
`ofSamples_eq_ok_iff_of_checkAxis`.
-/

namespace PlasmaField.Multilinear

open Outcome (bind_eq_ok_iff guard_eq_ok_iff)
open Scalar (nth)
open Spline (Increasing)
open ShapedArray (volume)
open scoped Exact

/-! ## Over any scalars -/

section Scalars

variable {α : Type} [Scalar α]

/-- The grid holds a point: there is a cell for the coordinate along every axis. -/
def Holds (g : Multilinear α) (point : List α) : Prop :=
  ∃ cells, ((g.axes.zip point).mapM fun p ↦ cell? p.1 p.2) = some cells

/-- A coordinate has a cell when it lies between the ends of the axis. -/
theorem exists_cell?_iff {axis : Array α} {v : α} : (∃ cell, cell? axis v = some cell) ↔
    Scalar.within (nth axis 0) (nth axis (axis.size - 1)) v = true := by
  unfold cell?
  split
  next h => exact iff_of_true ⟨_, rfl⟩ h
  next h => exact iff_of_false (fun ⟨_, hcell⟩ ↦ by cases hcell) h

/-- A point is held by three axes when each of its coordinates lies between the ends of its axis. -/
theorem holds_iff {g : Multilinear α} {r z zeta : Array α} (haxes : g.axes = [r, z, zeta])
    (x y v : α) : g.Holds [x, y, v] ↔
      Scalar.within (nth r 0) (nth r (r.size - 1)) x = true ∧
      Scalar.within (nth z 0) (nth z (z.size - 1)) y = true ∧
      Scalar.within (nth zeta 0) (nth zeta (zeta.size - 1)) v = true := by
  rw [← exists_cell?_iff, ← exists_cell?_iff, ← exists_cell?_iff]
  unfold Holds
  rw [haxes]
  simp only [List.zip_cons_cons, List.zip_nil_right, List.mapM_cons, List.mapM_nil]
  cases cell? r x <;> cases cell? z y <;> cases cell? zeta v <;> simp

/-- A point that is not held has the fill value. -/
theorem eval_of_not_holds {g : Multilinear α} {point : List α} (h : ¬ g.Holds point) :
    g.eval point = g.fill := by
  have hnone : ((g.axes.zip point).mapM fun p ↦ cell? p.1 p.2) = none := by
    rw [Option.eq_none_iff_forall_ne_some]
    exact fun cells hcells ↦ h ⟨cells, hcells⟩
  unfold eval
  rw [hnone]

/-- An interpolant has the axes it is built from, and these pass the check. -/
theorem of_ofSamples {axes : List (Array α)} {samples : ShapedArray α} {fill : α}
    {g : Multilinear α} (h : ofSamples axes samples fill = .ok g) :
    checkAxes 0 axes samples.shape = .ok () ∧ g = ⟨axes, samples, fill⟩ := by
  unfold ofSamples at h
  obtain ⟨-, h⟩ := guard_eq_ok_iff.mp h
  obtain ⟨-, h⟩ := guard_eq_ok_iff.mp h
  obtain ⟨_, hcheck, h⟩ := bind_eq_ok_iff.mp h
  cases h
  exact ⟨hcheck, rfl⟩

/-- An interpolant is built from one to four axes that pass the check. -/
theorem ofSamples_eq_ok {axes : List (Array α)} {samples : ShapedArray α} (hne : axes ≠ [])
    (hcount : axes.length ≤ maxAxes) (hrank : samples.shape.length = axes.length)
    (hcheck : checkAxes 0 axes samples.shape = .ok ()) (fill : α) :
    ofSamples axes samples fill = .ok ⟨axes, samples, fill⟩ := by
  unfold ofSamples
  refine guard_eq_ok_iff.mpr ⟨by simp [hne, hcount], guard_eq_ok_iff.mpr ⟨?_, ?_⟩⟩
  · simp [ShapedArray.rank, hrank]
  · exact bind_eq_ok_iff.mpr ⟨(), hcheck, rfl⟩

/-- An axis passes the check when it has two or more finite increasing entries, as many as there are
samples along it. -/
theorem checkAxis_eq_ok_iff_of_scalar {k : ℕ} {axis : Array α} {entries : ℕ} :
    checkAxis k axis entries = .ok () ↔ 2 ≤ axis.size ∧ axis.size = entries ∧
      axis.all Scalar.isFinite = true ∧ Scalar.increasing axis.toList = true := by
  unfold checkAxis
  rw [guard_eq_ok_iff, guard_eq_ok_iff]
  simp only [not_lt, bne_iff_ne, ne_eq, not_not]
  refine and_congr_right fun _ ↦ and_congr_right fun _ ↦ ?_
  cases axis.all Scalar.isFinite with
  | false => exact iff_of_false (fun h ↦ by cases h) (fun h ↦ by cases h.1)
  | true =>
      cases Scalar.increasing axis.toList with
      | false => exact iff_of_false (fun h ↦ by cases h) (fun h ↦ by cases h.2)
      | true => exact iff_of_true rfl ⟨rfl, rfl⟩

/-- The entries of an axis that passes the check are finite. -/
theorem all_isFinite_of_checkAxis {k : ℕ} {axis : Array α} {entries : ℕ}
    (h : checkAxis k axis entries = .ok ()) : axis.all Scalar.isFinite = true :=
  (checkAxis_eq_ok_iff_of_scalar.mp h).2.2.1

section Checked

variable {P : Array α → ℕ → Prop}
  (hP : ∀ k axis entries, checkAxis k axis entries = .ok () ↔ P axis entries)
include hP

/-- As many axes as dimensions pass the check when every axis does. -/
theorem checkAxes_eq_ok_iff {axes : List (Array α)} {shape : List ℕ}
    (hlength : axes.length = shape.length) {k : ℕ} :
    checkAxes k axes shape = .ok () ↔ List.Forall₂ P axes shape := by
  induction axes generalizing shape k with
  | nil =>
      cases shape with
      | nil => exact iff_of_true rfl .nil
      | cons n shape => cases hlength
  | cons axis axes ih =>
      cases shape with
      | nil => cases hlength
      | cons n shape =>
          rw [List.forall₂_cons, ← hP k, ← ih (Nat.succ.inj hlength) (k := k + 1)]
          exact bind_eq_ok_iff.trans ⟨fun ⟨_, h⟩ ↦ h, fun h ↦ ⟨(), h⟩⟩

/-- An interpolant is built from one to four axes that pass the check, one per dimension of the
samples. -/
theorem ofSamples_eq_ok_iff_of_checkAxis {axes : List (Array α)} {samples : ShapedArray α}
    {fill : α} {g : Multilinear α} : ofSamples axes samples fill = .ok g ↔
      axes ≠ [] ∧ axes.length ≤ maxAxes ∧ List.Forall₂ P axes samples.shape ∧
        g = ⟨axes, samples, fill⟩ := by
  constructor
  · intro h
    obtain ⟨hcheck, rfl⟩ := of_ofSamples h
    unfold ofSamples at h
    obtain ⟨hcount, h⟩ := guard_eq_ok_iff.mp h
    obtain ⟨hrank, -⟩ := guard_eq_ok_iff.mp h
    have hlength : samples.rank = axes.length := by simpa using hrank
    simp only [Bool.or_eq_true, List.isEmpty_iff, decide_eq_true_eq, not_or, not_lt] at hcount
    exact ⟨hcount.1, hcount.2, (checkAxes_eq_ok_iff hP hlength.symm).mp hcheck, rfl⟩
  · rintro ⟨hne, hcount, haxes, rfl⟩
    have hlength := haxes.length_eq
    exact ofSamples_eq_ok hne hcount hlength.symm ((checkAxes_eq_ok_iff hP hlength).mpr haxes) fill

end Checked

end Scalars

/-! ## Over exact scalars -/

variable {K : Type} [Field K] [LinearOrder K] [FloorRing K]

/-- An axis with two or more increasing entries, as many as there are samples along it. -/
structure Usable (axis : Array K) (entries : ℕ) : Prop where
  two_le : 2 ≤ axis.size
  size : axis.size = entries
  increasing : Increasing axis

/-- An axis passes the check when it is usable. -/
theorem checkAxis_eq_ok_iff {k : ℕ} {axis : Array K} {entries : ℕ} :
    checkAxis k axis entries = .ok () ↔ Usable axis entries := by
  have hfinite : axis.all Scalar.isFinite = true := Array.all_eq_true.mpr fun _ _ ↦ rfl
  rw [checkAxis_eq_ok_iff_of_scalar, Exact.increasing_iff]
  exact ⟨fun ⟨htwo, hsize, _, hx⟩ ↦ ⟨htwo, hsize, hx⟩,
    fun ⟨htwo, hsize, hx⟩ ↦ ⟨htwo, hsize, hfinite, hx⟩⟩

/-- An interpolant is built from one to four usable axes. -/
theorem ofSamples_eq_ok_iff {axes : List (Array K)} {samples : ShapedArray K} {fill : K}
    {g : Multilinear K} : ofSamples axes samples fill = .ok g ↔
      axes ≠ [] ∧ axes.length ≤ maxAxes ∧ List.Forall₂ Usable axes samples.shape ∧
        g = ⟨axes, samples, fill⟩ :=
  ofSamples_eq_ok_iff_of_checkAxis fun _ _ _ ↦ checkAxis_eq_ok_iff

/-! ## Cells -/

/-- A cell of an axis, by its number and a place within it. -/
def Inside (cell : ℕ × K) (entries : ℕ) : Prop :=
  cell.1 + 1 < entries ∧ 0 ≤ cell.2 ∧ cell.2 ≤ 1

/-- The cells that hold a point, one along every axis. -/
def cellsAt? (g : Multilinear K) (point : List K) : Option (List (ℕ × K)) :=
  (g.axes.zip point).mapM fun p ↦ cell? p.1 p.2

/-- The corners of the cell that holds a point; none outside the grid. -/
def cornersAt (g : Multilinear K) (point : List K) : List (Corner K) :=
  (g.cellsAt? point).elim [] (corners g.samples.shape)

section Ordered

variable [IsStrictOrderedRing K]

/-- The cell that is found for a coordinate is one of the axis, and its place lies within it. -/
theorem inside_of_cell? {axis : Array K} {n : ℕ} (h : Usable axis n) {v : K} {cell : ℕ × K}
    (hcell : cell? axis v = some cell) : Inside cell n := by
  unfold cell? at hcell
  split at hcell
  next hwithin =>
    cases hcell
    obtain ⟨hfirst, hlast⟩ := Exact.within_iff.mp hwithin
    obtain ⟨hi, hleft, hright⟩ := Spline.mem_interval h.two_le hfirst hlast
    have hgap := sub_pos.mpr (h.increasing _ hi)
    refine ⟨h.size ▸ hi, div_nonneg (sub_nonneg.mpr hleft) hgap.le, ?_⟩
    exact (div_le_one hgap).mpr (sub_le_sub_right hright _)
  next => cases hcell

/-- The cells that are found for a point are cells of the axes. -/
theorem inside_of_cells {axes : List (Array K)} {shape : List ℕ}
    (h : List.Forall₂ Usable axes shape) {point : List K} (hlength : point.length = axes.length)
    {cells : List (ℕ × K)}
    (hcells : ((axes.zip point).mapM fun p ↦ cell? p.1 p.2) = some cells) :
    List.Forall₂ Inside cells shape := by
  induction h generalizing point cells with
  | nil =>
      obtain rfl := Option.some.inj hcells
      exact .nil
  | cons haxis _ ih =>
      cases point with
      | nil => cases hlength
      | cons v point =>
          rw [List.zip_cons_cons, List.mapM_cons] at hcells
          obtain ⟨cell, hcell, hcells⟩ := Option.bind_eq_some_iff.mp hcells
          obtain ⟨rest, hrest, hcells⟩ := Option.bind_eq_some_iff.mp hcells
          obtain rfl := Option.some.inj hcells
          exact .cons (inside_of_cell? haxis hcell) (ih (Nat.succ.inj hlength) hrest)

omit [IsStrictOrderedRing K] in
/-- The place of a coordinate on an axis with one cell. -/
theorem cell?_pair {a b v : K} (ha : a ≤ v) (hb : v ≤ b) :
    cell? #[a, b] v = some (0, (v - a) / (b - a)) := by
  have hinterval : Spline.interval #[a, b] v = 0 := Nat.min_zero _
  have hwithin : Scalar.within (nth #[a, b] 0) (nth #[a, b] 1) v = true :=
    Exact.within_iff.mpr ⟨ha, hb⟩
  unfold cell?
  rw [hinterval]
  exact if_pos hwithin

omit [IsStrictOrderedRing K] in
/-- An axis with one cell. -/
theorem usable_pair {a b : K} (h : a < b) : Usable #[a, b] 2 where
  two_le := le_rfl
  size := rfl
  increasing := by
    intro i hi
    obtain rfl : i = 0 := by simpa using hi
    simpa [Exact.nth_eq_getD] using h

/-! ## Weights -/

/-- The weights of the corners are not negative and add up to one, and behind the place of each
corner there is room for more places, within all of them. -/
structure IsMean (corners : List (Corner K)) (room places : ℕ) : Prop where
  nonneg : ∀ c ∈ corners, 0 ≤ c.weight
  sum : (corners.map (·.weight)).sum = 1
  place : ∀ c ∈ corners, c.place + room ≤ places

/-- Splitting along an axis leaves a mean. -/
theorem IsMean.splitAlong {cs : List (Corner K)} {n stride places : ℕ}
    (h : IsMean cs (n * stride) places) {cell : ℕ × K} (hcell : Inside cell n) :
    IsMean (splitAlong cs cell.1 cell.2 stride) stride places := by
  obtain ⟨hi, ht₀, ht₁⟩ := hcell
  have hroom : ∀ i, i < n → ∀ c ∈ cs, c.place + i * stride + stride ≤ places := by
    intro i hi c hc
    calc c.place + i * stride + stride = c.place + (i + 1) * stride := by ring
      _ ≤ c.place + n * stride := Nat.add_le_add_left (Nat.mul_le_mul_right _ hi) _
      _ ≤ places := h.place c hc
  unfold Multilinear.splitAlong
  simp only [Exact.literal_one]
  refine ⟨fun c hc ↦ ?_, ?_, fun c hc ↦ ?_⟩
  · rcases List.mem_append.mp hc with hc | hc
    · obtain ⟨d, hd, rfl⟩ := List.mem_map.mp hc
      exact mul_nonneg (h.nonneg d hd) (sub_nonneg.mpr ht₁)
    · obtain ⟨d, hd, rfl⟩ := List.mem_map.mp hc
      exact mul_nonneg (h.nonneg d hd) ht₀
  · rw [List.map_append, List.sum_append, List.map_map, List.map_map]
    calc _ = (cs.map fun c ↦ c.weight * (1 - cell.2)).sum +
          (cs.map fun c ↦ c.weight * cell.2).sum := rfl
      _ = (cs.map (·.weight)).sum * (1 - cell.2) + (cs.map (·.weight)).sum * cell.2 := by
          rw [List.sum_map_mul_right, List.sum_map_mul_right]
      _ = 1 := by rw [h.sum]; ring
  · rcases List.mem_append.mp hc with hc | hc
    · obtain ⟨d, hd, rfl⟩ := List.mem_map.mp hc
      exact hroom _ (by omega) d hd
    · obtain ⟨d, hd, rfl⟩ := List.mem_map.mp hc
      exact hroom _ hi d hd

/-- Splitting along all axes leaves a mean of single samples. -/
theorem IsMean.cornersFrom {cells : List (ℕ × K)} {shape : List ℕ}
    (hcells : List.Forall₂ Inside cells shape) {cs : List (Corner K)} {places : ℕ}
    (h : IsMean cs (volume shape) places) : IsMean (cornersFrom cs cells shape) 1 places := by
  induction hcells generalizing cs with
  | nil => exact h
  | cons hcell _ ih => exact ih (h.splitAlong hcell)

/-- The corners of a cell have the weights of a mean, and places within the samples. -/
theorem isMean_corners {cells : List (ℕ × K)} {shape : List ℕ}
    (hcells : List.Forall₂ Inside cells shape) :
    IsMean (corners shape cells) 1 (volume shape) := by
  refine IsMean.cornersFrom hcells ⟨fun c hc ↦ ?_, by simp, fun c hc ↦ ?_⟩
  · obtain rfl := List.mem_singleton.mp hc
    simp
  · obtain rfl := List.mem_singleton.mp hc
    simp

section Bounds

variable {cs : List (Corner K)} {room places : ℕ} (h : IsMean cs room places) {value : Corner K → K}
  {m : K}
include h

omit [FloorRing K] in
/-- A mean is at least what every value with a weight is. -/
theorem IsMean.le_sum (hm : ∀ c ∈ cs, c.weight ≠ 0 → m ≤ value c) :
    m ≤ (cs.map fun c ↦ c.weight * value c).sum := by
  have hmul : ∀ c ∈ cs, c.weight * m ≤ c.weight * value c := by
    intro c hc
    by_cases hzero : c.weight = 0
    · rw [hzero, zero_mul, zero_mul]
    · exact mul_le_mul_of_nonneg_left (hm c hc hzero) (h.nonneg c hc)
  calc m = (cs.map fun c ↦ c.weight * m).sum := by rw [List.sum_map_mul_right, h.sum, one_mul]
    _ ≤ _ := List.sum_le_sum hmul

omit [FloorRing K] in
/-- A mean is at most what every value with a weight is. -/
theorem IsMean.sum_le (hm : ∀ c ∈ cs, c.weight ≠ 0 → value c ≤ m) :
    (cs.map fun c ↦ c.weight * value c).sum ≤ m := by
  have hmul : ∀ c ∈ cs, c.weight * value c ≤ c.weight * m := by
    intro c hc
    by_cases hzero : c.weight = 0
    · rw [hzero, zero_mul, zero_mul]
    · exact mul_le_mul_of_nonneg_left (hm c hc hzero) (h.nonneg c hc)
  calc (cs.map fun c ↦ c.weight * value c).sum ≤ (cs.map fun c ↦ c.weight * m).sum :=
        List.sum_le_sum hmul
    _ = m := by rw [List.sum_map_mul_right, h.sum, one_mul]

end Bounds

omit [IsStrictOrderedRing K] in
/-- The places of single samples hold samples. -/
theorem IsMean.nth_mem {cs : List (Corner K)} {samples : Array K}
    (h : IsMean cs 1 samples.size) {c : Corner K} (hc : c ∈ cs) :
    nth samples c.place ∈ samples := by
  rw [Exact.nth_eq_getElem _ (h.place c hc)]
  exact Array.getElem_mem (h.place c hc)

/-! ## Values -/

omit [FloorRing K] [IsStrictOrderedRing K] in
/-- Leaving out the corners of weight zero does not change the sum over the corners. -/
theorem foldl_corners (value : Corner K → K) (cs : List (Corner K)) (start : K) :
    cs.foldl (fun acc c ↦ if c.weight == 0 then acc else acc + c.weight * value c) start =
      start + (cs.map fun c ↦ c.weight * value c).sum := by
  induction cs generalizing start with
  | nil => simp
  | cons c cs ih =>
      rw [List.foldl_cons, ih, List.map_cons, List.sum_cons]
      by_cases hzero : c.weight = 0
      · simp [hzero]
      · simp [hzero, add_assoc]

/-- Within the grid the value at a point is the mean of the samples at the corners of the cell that
holds it, and outside it is the fill value. -/
theorem eval_cases {g : Multilinear K} (hg : List.Forall₂ Usable g.axes g.samples.shape)
    {point : List K} (hlength : point.length = g.axes.length) :
    g.cornersAt point = [] ∧ g.eval point = g.fill ∨
      IsMean (g.cornersAt point) 1 g.samples.data.size ∧ g.eval point =
        ((g.cornersAt point).map fun c ↦ c.weight * nth g.samples.data c.place).sum := by
  unfold cornersAt eval
  cases hcells : g.cellsAt? point with
  | none =>
      unfold cellsAt? at hcells
      rw [hcells]
      exact .inl ⟨rfl, rfl⟩
  | some cells =>
      unfold cellsAt? at hcells
      rw [hcells]
      refine .inr ⟨?_, ?_⟩
      · rw [g.samples.size_eq]
        exact isMean_corners (inside_of_cells hg hlength hcells)
      · dsimp only [Option.elim_some]
        rw [← zero_add (List.sum _), ← foldl_corners]
        simp only [Exact.literal_zero]

end Ordered

end PlasmaField.Multilinear
