import Mathlib
import PlasmaField.Proofs.Extended
import PlasmaField.Proofs.Multilinear.Cells

/-!
# Multilinear interpolation at every point

Queries and samples may be infinite or undefined. The entries of the axes may not, so an interpolant
has axes of numbers, `ofSamples_extended_eq_ok_iff`. `Interpolates` says what its value is at each
point: the fill value outside the box of the axes, and within it the sum over the corners of any
cell that contains the point. Every interpolant that is built is of this kind,
`ofSamples_interpolates`.
-/

namespace PlasmaField

open Scalar (nth)
open ShapedArray (volume offset)
open scoped Exact

variable {K : Type} [Field K] [LinearOrder K] [FloorRing K]

namespace Extended

/-- A number has the same place between knots that are numbers. -/
theorem interval_map_finite (knots : Array K) (v : K) :
    Spline.interval (knots.map finite) (finite v) = Spline.interval knots v := by
  have hfind : (knots.map finite).findIdx (fun k ↦ !(k ≤ finite v)) =
      knots.findIdx fun k ↦ !(k ≤ v) := by
    rcases knots with ⟨knots⟩
    rw [List.map_toArray, List.findIdx_toArray, List.findIdx_toArray, List.findIdx_map]
    rfl
  unfold Spline.interval
  rw [hfind, Array.size_map]

end Extended

namespace Multilinear

open Extended (finite beyond)

/-! ## Axes of numbers -/

/-- Axes of numbers among the extended scalars. -/
def finiteAxes (axes : List (Array K)) : List (Array (Extended K)) :=
  axes.map (·.map finite)

/-- An axis passes the check when it is a usable axis of numbers. -/
theorem checkAxis_extended_eq_ok_iff {k : ℕ} {axis : Array (Extended K)} {entries : ℕ} :
    checkAxis k axis entries = .ok () ↔
      ∃ numbers : Array K, axis = numbers.map finite ∧ Usable numbers entries := by
  rw [checkAxis_eq_ok_iff_of_scalar, Extended.all_isFinite_iff]
  have hincreasing : ∀ numbers : Array K,
      Scalar.increasing (numbers.map finite).toList = true ↔ Spline.Increasing numbers := by
    intro numbers
    rw [Array.toList_map, Extended.increasing_map_finite]
    exact Exact.increasing_iff numbers
  constructor
  · rintro ⟨htwo, hsize, ⟨numbers, rfl⟩, hx⟩
    rw [Array.size_map] at htwo hsize
    exact ⟨numbers, rfl, htwo, hsize, (hincreasing numbers).mp hx⟩
  · rintro ⟨numbers, rfl, h⟩
    refine ⟨?_, ?_, ⟨numbers, rfl⟩, (hincreasing numbers).mpr h.increasing⟩
    · rw [Array.size_map]
      exact h.two_le
    · rw [Array.size_map]
      exact h.size

/-- An interpolant is built from one to four usable axes of numbers. -/
theorem ofSamples_extended_eq_ok_iff {axes : List (Array (Extended K))}
    {samples : ShapedArray (Extended K)} {fill : Extended K} {g : Multilinear (Extended K)} :
    ofSamples axes samples fill = .ok g ↔ ∃ numbers : List (Array K), axes = finiteAxes numbers ∧
      numbers ≠ [] ∧ numbers.length ≤ maxAxes ∧ List.Forall₂ Usable numbers samples.shape ∧
        g = ⟨axes, samples, fill⟩ := by
  rw [ofSamples_eq_ok_iff_of_checkAxis fun _ _ _ ↦ checkAxis_extended_eq_ok_iff]
  constructor
  · rintro ⟨hne, hcount, haxes, hg⟩
    have hnumbers : ∃ numbers, axes = finiteAxes numbers ∧
        List.Forall₂ Usable numbers samples.shape := by
      clear hne hcount hg
      generalize samples.shape = shape at haxes
      induction haxes with
      | nil => exact ⟨[], rfl, .nil⟩
      | cons haxis _ ih =>
          obtain ⟨number, rfl, husable⟩ := haxis
          obtain ⟨numbers, rfl, hall⟩ := ih
          exact ⟨number :: numbers, rfl, .cons husable hall⟩
    obtain ⟨numbers, rfl, husable⟩ := hnumbers
    exact ⟨numbers, rfl, by simpa [finiteAxes] using hne, by simpa [finiteAxes] using hcount,
      husable, hg⟩
  · rintro ⟨numbers, rfl, hne, hcount, husable, hg⟩
    refine ⟨by simpa [finiteAxes] using hne, by simpa [finiteAxes] using hcount, ?_, hg⟩
    exact List.forall₂_map_left_iff.mpr (husable.imp fun _ _ h ↦ ⟨_, rfl, h⟩)

/-! ## Cells and corners -/

/-- The cell of a number. -/
theorem cell?_finite {axis : Array K} {n : ℕ} [IsStrictOrderedRing K] (haxis : Usable axis n)
    (v : K) : cell? (axis.map finite) (finite v) = (cell? axis v).map (Prod.map id finite) := by
  unfold cell?
  simp only [Extended.nth_map_finite, Extended.interval_map_finite, Array.size_map]
  by_cases hwithin : Scalar.within (nth axis 0) (nth axis (axis.size - 1)) v = true
  · obtain ⟨hfirst, hlast⟩ := Exact.within_iff.mp hwithin
    obtain ⟨hi, -⟩ := Spline.mem_interval haxis.two_le hfirst hlast
    have hgap := (sub_pos.mpr (haxis.increasing _ hi)).ne'
    rw [if_pos hwithin, if_pos (show Scalar.within (finite _) (finite _) (finite v) = true from
      hwithin)]
    simp only [Extended.finite_sub_finite, Extended.finite_div_finite _ hgap]
    rfl
  · rw [if_neg hwithin, if_neg (show ¬ Scalar.within (finite _) (finite _) (finite v) = true from
      hwithin)]
    rfl

/-- What has a cell of an axis of numbers is a number between the ends of the axis. -/
theorem exists_of_cell? {axis : Array K} {x : Extended K} {cell : ℕ × Extended K}
    (h : cell? (axis.map finite) x = some cell) :
    ∃ v, x = finite v ∧ nth axis 0 ≤ v ∧ v ≤ nth axis (axis.size - 1) := by
  have hwithin := exists_cell?_iff.mp ⟨cell, h⟩
  rw [Extended.nth_map_finite, Extended.nth_map_finite, Array.size_map] at hwithin
  cases x with
  | finite v => exact ⟨v, rfl, Exact.within_iff.mp hwithin⟩
  | beyond s =>
      -- an infinity is beyond one of the two ends
      exfalso
      unfold Scalar.within at hwithin
      rw [Bool.and_eq_true, decide_eq_true_eq, decide_eq_true_eq] at hwithin
      obtain ⟨hfirst, hlast⟩ := hwithin
      have hup : s = 1 := hfirst
      have hdown : s = -1 := hlast
      rw [hup] at hdown
      cases hdown

/-- The cells of a point of numbers. -/
theorem cells_finite [IsStrictOrderedRing K] {axes : List (Array K)} {shape : List ℕ}
    (haxes : List.Forall₂ Usable axes shape) {v : List K} {cells : List (ℕ × K)}
    (h : ((axes.zip v).mapM fun p ↦ cell? p.1 p.2) = some cells) :
    (((finiteAxes axes).zip (v.map finite)).mapM fun p ↦ cell? p.1 p.2) =
      some (cells.map (Prod.map id finite)) := by
  induction haxes generalizing v cells with
  | nil =>
      obtain rfl := Option.some.inj h
      rfl
  | cons haxis _ ih =>
      cases v with
      | nil =>
          obtain rfl := Option.some.inj h
          rfl
      | cons v rest =>
          rw [List.zip_cons_cons, List.mapM_cons] at h
          obtain ⟨cell, hcell, h⟩ := Option.bind_eq_some_iff.mp h
          obtain ⟨tail, htail, h⟩ := Option.bind_eq_some_iff.mp h
          obtain rfl := Option.some.inj h
          have hrest := ih htail
          unfold finiteAxes at hrest ⊢
          rw [List.map_cons, List.map_cons, List.zip_cons_cons, List.mapM_cons, hrest,
            cell?_finite haxis, hcell]
          rfl

/-- A point that has cells consists of numbers in the box. -/
theorem exists_inBox_of_cells {axes : List (Array K)} {point : List (Extended K)}
    (hlength : point.length = axes.length) {cells : List (ℕ × Extended K)}
    (h : (((finiteAxes axes).zip point).mapM fun p ↦ cell? p.1 p.2) = some cells) :
    ∃ v, InBox axes v ∧ point = v.map finite := by
  induction axes generalizing point cells with
  | nil =>
      obtain rfl := List.eq_nil_of_length_eq_zero hlength
      exact ⟨[], .nil, rfl⟩
  | cons axis axes ih =>
      obtain ⟨x, point, rfl⟩ := List.exists_cons_of_length_eq_add_one hlength
      unfold finiteAxes at h ih
      rw [List.map_cons, List.zip_cons_cons, List.mapM_cons] at h
      obtain ⟨cell, hcell, h⟩ := Option.bind_eq_some_iff.mp h
      obtain ⟨tail, htail, -⟩ := Option.bind_eq_some_iff.mp h
      obtain ⟨v, rfl, hv⟩ := exists_of_cell? hcell
      obtain ⟨rest, hrest, rfl⟩ := ih (Nat.succ.inj hlength) htail
      exact ⟨v :: rest, .cons hv hrest, rfl⟩

/-- A corner among the extended scalars. -/
def Corner.lift (c : Corner K) : Corner (Extended K) :=
  ⟨finite c.weight, c.place⟩

/-- Corners are split in the same way among the extended scalars. -/
theorem cornersFrom_lift (cs : List (Corner K)) (cells : List (ℕ × K)) (shape : List ℕ) :
    cornersFrom (cs.map Corner.lift) (cells.map (Prod.map id finite)) shape =
      (cornersFrom cs cells shape).map Corner.lift := by
  induction cells generalizing cs shape with
  | nil => rfl
  | cons cell cells ih =>
      cases shape with
      | nil => rfl
      | cons n shape =>
          have hsplit : splitAlong (cs.map Corner.lift) cell.1 (finite cell.2) (volume shape) =
              (splitAlong cs cell.1 cell.2 (volume shape)).map Corner.lift := by
            unfold splitAlong
            simp only [Extended.literal_one, Exact.literal_one, Extended.finite_sub_finite,
              List.map_append, List.map_map]
            rfl
          exact (congrArg (cornersFrom · _ shape) hsplit).trans (ih _ shape)

/-- The sum over the corners that have a weight, first corners first. -/
def weightedSum (samples : Array (Extended K)) (cs : List (Corner K)) : Extended K :=
  ((weighted cs).map fun c ↦ finite c.weight * nth samples c.place).foldl (· + ·) (finite 0)

/-- Adding up corners leaves out those without a weight. -/
theorem foldl_lift (samples : Array (Extended K)) (cs : List (Corner K)) (start : Extended K) :
    (cs.map Corner.lift).foldl (fun acc c ↦
        if c.weight == 0 then acc else acc + c.weight * nth samples c.place) start =
      ((weighted cs).map fun c ↦ finite c.weight * nth samples c.place).foldl (· + ·) start := by
  induction cs generalizing start with
  | nil => rfl
  | cons c cs ih =>
      have htest : ((Corner.lift c).weight == 0) = decide (c.weight = 0) := by
        rw [Extended.literal_zero]
        rfl
      rw [List.map_cons, List.foldl_cons, ih, htest]
      by_cases hzero : c.weight = 0
      · rw [weighted_cons_of_eq hzero, if_pos (decide_eq_true hzero)]
      · rw [weighted_cons_of_ne hzero, if_neg (by simpa using hzero)]
        rfl

section Values

variable [IsStrictOrderedRing K] {g : Multilinear (Extended K)} {axes : List (Array K)}
  (hg : g.axes = finiteAxes axes) (haxes : List.Forall₂ Usable axes g.samples.shape)
include hg haxes

/-- The value in the box is the weighted sum over the corners of the cell that is found. -/
theorem eval_of_cells_finite {v : List K} {cells : List (ℕ × K)}
    (h : ((axes.zip v).mapM fun p ↦ cell? p.1 p.2) = some cells) :
    g.eval (v.map finite) = weightedSum g.samples.data (corners g.samples.shape cells) := by
  have hlift : corners g.samples.shape (cells.map (Prod.map id finite)) =
      (corners g.samples.shape cells).map Corner.lift := by
    unfold corners
    rw [← cornersFrom_lift, Extended.literal_one, Exact.literal_one]
    rfl
  unfold eval
  rw [hg, cells_finite haxes h]
  dsimp only
  rw [hlift, foldl_lift, Extended.literal_zero]
  rfl

/-- The value is the weighted sum over the corners of any cell that contains the point. -/
theorem eval_eq_weightedSum {v : List K} {cells : List (ℕ × K)} (h : ContainAll axes v cells) :
    g.eval (v.map finite) = weightedSum g.samples.data (corners g.samples.shape cells) := by
  obtain ⟨found, hfound, hcorners⟩ := exists_cells_of_containAll haxes h
  have hweighted : weighted (corners g.samples.shape found) =
      weighted (corners g.samples.shape cells) := hcorners _
  rw [eval_of_cells_finite hg haxes hfound]
  unfold weightedSum
  rw [hweighted]

end Values

/-! ## Interpolants -/

/-- The place of an index of the grid holds a sample. -/
theorem offset_lt {index shape : List ℕ} (h : List.Forall₂ (· < ·) index shape) :
    offset shape index < volume shape := by
  induction h with
  | nil => exact Nat.one_pos
  | @cons i n index shape hi _ ih =>
      calc offset (n :: shape) (i :: index) < i * volume shape + volume shape :=
            Nat.add_lt_add_left ih _
        _ = (i + 1) * volume shape := (Nat.succ_mul ..).symm
        _ ≤ n * volume shape := Nat.mul_le_mul_right _ hi

/-- The sample at an index of the grid is the entry at its place. -/
theorem get?_eq_nth (samples : ShapedArray (Extended K)) {index : List ℕ}
    (h : List.Forall₂ (· < ·) index samples.shape) :
    samples.get? index = some (nth samples.data (offset samples.shape index)) := by
  have hplace : offset samples.shape index < samples.data.size := by
    rw [samples.size_eq]
    exact offset_lt h
  have hlt : ((index.zip samples.shape).all fun p ↦ p.1 < p.2) = true :=
    List.all_eq_true.mpr fun p hp ↦ decide_eq_true (List.forall₂_iff_zip.mp h |>.2 hp)
  unfold ShapedArray.get?
  rw [if_pos (by rw [hlt, h.length_eq]; simp)]
  simp [nth, hplace]

/-- Over numbers the weighted sum is the sum in the field. -/
theorem weightedSum_finite {samples : Array (Extended K)} {value : ℕ → K} {cs : List (Corner K)}
    (h : ∀ c ∈ cs, nth samples c.place = finite (value c.place)) :
    weightedSum samples cs = finite (cs.map fun c ↦ c.weight * value c.place).sum := by
  have hadd : ∀ (start : K), ((weighted cs).map fun c ↦
      finite c.weight * nth samples c.place).foldl (· + ·) (finite start) =
      finite (start + (cs.map fun c ↦ c.weight * value c.place).sum) := by
    induction cs with
    | nil => exact fun start ↦ by rw [List.map_nil, List.sum_nil, add_zero]; rfl
    | cons c cs ih =>
        intro start
        have hcs := ih fun d hd ↦ h d (List.mem_cons_of_mem c hd)
        by_cases hzero : c.weight = 0
        · rw [weighted_cons_of_eq hzero, hcs, List.map_cons, List.sum_cons, hzero, zero_mul,
            zero_add]
        · rw [weighted_cons_of_ne hzero, List.map_cons, List.foldl_cons, h c List.mem_cons_self,
            List.map_cons, List.sum_cons, ← add_assoc, ← hcs]
          rfl
  rw [← zero_add (List.sum _), ← hadd]
  rfl

/-- What an interpolant over axes of numbers is at every point. -/
structure Interpolates (g : Multilinear (Extended K)) (axes : List (Array K)) : Prop where
  axes_eq : g.axes = finiteAxes axes
  rank : 1 ≤ axes.length ∧ axes.length ≤ 4
  usable : List.Forall₂ Usable axes g.samples.shape
  /-- Without a number in the closed range of its axis for each coordinate there is no value. -/
  outside : ∀ point, point.length = axes.length →
    (¬ ∃ v, InBox axes v ∧ point = v.map finite) → g.eval point = g.fill
  /-- In the box there is a value, and the cell that is found for it contains the point. -/
  found : ∀ v, InBox axes v → ∃ cells, ContainAll axes v cells ∧
    ((g.axes.zip (v.map finite)).mapM fun p ↦ cell? p.1 p.2) =
      some (cells.map (Prod.map id finite))
  /-- The value is a mean of the samples at the corners of any cell that contains the point. -/
  mean : ∀ v cells, ContainAll axes v cells →
    IsMean (corners g.samples.shape cells) 1 g.samples.data.size ∧
      (∀ c ∈ corners g.samples.shape cells,
        ∃ index, IsCorner cells index ∧ c.place = offset g.samples.shape index) ∧
      g.eval (v.map finite) = weightedSum g.samples.data (corners g.samples.shape cells)
  /-- Samples that are numbers are interpolated along one axis after another. -/
  interpolated : ∀ v cells, ContainAll axes v cells → ∀ f : List ℕ → K,
    (∀ index, IsCorner cells index → g.samples.get? index = some (finite (f index))) →
    g.eval (v.map finite) = finite (nested cells f)
  /-- The value at a node is its sample, whatever this is. -/
  sample : ∀ index, List.Forall₂ (· < ·) index g.samples.shape →
    g.samples.get? index = some (g.eval ((node axes index).map finite))
  /-- Samples of a function that is affine in every coordinate give back the function. -/
  affine : ∀ F : List K → K, MultiAffine axes.length F →
    (∀ index, List.Forall₂ (· < ·) index g.samples.shape →
      g.samples.get? index = some (finite (F (node axes index)))) →
    ∀ v, InBox axes v → g.eval (v.map finite) = finite (F v)

section Ordered

variable [IsStrictOrderedRing K] {g : Multilinear (Extended K)} {axes : List (Array K)}
  (hg : g.axes = finiteAxes axes) (haxes : List.Forall₂ Usable axes g.samples.shape)
include hg haxes

/-- In a cell with numbers at its corners the value is interpolated along the axes in turn. -/
theorem eval_eq_nested {v : List K} {cells : List (ℕ × K)} (h : ContainAll axes v cells)
    {f : List ℕ → K}
    (hf : ∀ index, IsCorner cells index → g.samples.get? index = some (finite (f index))) :
    g.eval (v.map finite) = finite (nested cells f) := by
  have hinside := h.inside haxes
  have hnth : ∀ index, IsCorner cells index →
      nth g.samples.data (offset g.samples.shape index) = finite (f index) := by
    intro index hindex
    have hsample := hf index hindex
    rw [get?_eq_nth _ (hindex.lt hinside)] at hsample
    exact Option.some.inj hsample
  let value := fun place ↦ (nth g.samples.data place).number
  have hnumber : ∀ c ∈ corners g.samples.shape cells,
      nth g.samples.data c.place = finite (value c.place) := by
    intro c hc
    obtain ⟨d, hd, index, hindex, hplace⟩ := exists_isCorner_of_mem hinside.length_eq hc
    obtain rfl := List.mem_singleton.mp hd
    rw [Nat.zero_add] at hplace
    show nth g.samples.data c.place = finite (nth g.samples.data c.place).number
    rw [hplace, hnth index hindex]
    rfl
  have hcongr : nested cells (fun index ↦ value (0 + offset g.samples.shape index)) =
      nested cells f := by
    refine nested_congr_of_isCorner fun index hindex ↦ ?_
    show (nth g.samples.data (0 + offset g.samples.shape index)).number = f index
    rw [Nat.zero_add, hnth index hindex]
    rfl
  rw [eval_eq_weightedSum hg haxes h, weightedSum_finite hnumber]
  unfold corners
  rw [sum_cornersFrom _ hinside.length_eq, ← hcongr]
  simp [Exact.literal_one]

/-- The value at a node is the sample there. -/
theorem eval_node_finite {index : List ℕ}
    (hindex : List.Forall₂ (· < ·) index g.samples.shape) :
    g.samples.get? index = some (g.eval ((node axes index).map finite)) := by
  obtain ⟨cells, hcells, hnode⟩ := exists_cells_node haxes hindex
  have hlength := hnode.length_eq.trans hindex.length_eq
  have hone : weighted ([⟨1, 0⟩] : List (Corner K)) = [⟨1, 0⟩] :=
    weighted_cons_of_ne one_ne_zero []
  have hcorner : weighted (corners g.samples.shape cells) =
      [⟨1, offset g.samples.shape index⟩] := by
    unfold corners
    rw [weighted_cornersFrom_of_atNode hnode hlength, Exact.literal_one, hone]
    simp
  have hstart : ∀ x : Extended K, finite 0 + finite 1 * x = x := by
    intro x
    rw [show finite 1 * x = x from one_mul x]
    cases x with
    | finite v => exact congrArg finite (zero_add v)
    | beyond s => rfl
  rw [get?_eq_nth _ hindex, eval_of_cells_finite hg haxes hcells]
  unfold weightedSum
  rw [hcorner]
  exact congrArg some (hstart _).symm

end Ordered

/-- Every interpolant that is built has the value of an interpolation at every point. -/
theorem ofSamples_interpolates [IsStrictOrderedRing K] {axes : List (Array (Extended K))}
    {samples : ShapedArray (Extended K)} {fill : Extended K} {g : Multilinear (Extended K)}
    (h : ofSamples axes samples fill = .ok g) :
    g = ⟨axes, samples, fill⟩ ∧ ∃ numbers, g.Interpolates numbers := by
  obtain ⟨numbers, rfl, hne, hcount, haxes, rfl⟩ := ofSamples_extended_eq_ok_iff.mp h
  have hg : (⟨finiteAxes numbers, samples, fill⟩ : Multilinear (Extended K)).axes =
      finiteAxes numbers := rfl
  refine ⟨rfl, numbers, hg, ⟨List.length_pos_iff.mpr hne, hcount⟩, haxes, ?outside, ?found,
    ?mean, ?interpolated, ?sample, ?affine⟩
  case outside =>
    intro point hlength hnot
    refine eval_of_not_holds fun ⟨cells, hcells⟩ ↦ hnot ?_
    exact exists_inBox_of_cells hlength hcells
  case found =>
    intro v hv
    obtain ⟨cells, hcells, hcontain⟩ := exists_containAll haxes hv
    exact ⟨cells, hcontain, cells_finite haxes hcells⟩
  case mean =>
    intro v cells hcontain
    have hinside := hcontain.inside haxes
    refine ⟨samples.size_eq ▸ isMean_corners hinside, fun c hc ↦ ?_,
      eval_eq_weightedSum hg haxes hcontain⟩
    obtain ⟨d, hd, index, hindex, hplace⟩ := exists_isCorner_of_mem hinside.length_eq hc
    obtain rfl := List.mem_singleton.mp hd
    exact ⟨index, hindex, hplace.trans (Nat.zero_add _)⟩
  case interpolated => exact fun v cells hcontain f hf ↦ eval_eq_nested hg haxes hcontain hf
  case sample => exact fun index hindex ↦ eval_node_finite hg haxes hindex
  case affine =>
    intro F hF hsamples v hv
    obtain ⟨cells, -, hcontain⟩ := exists_containAll haxes hv
    have hinside := hcontain.inside haxes
    have hvalue := eval_eq_nested hg haxes hcontain (f := fun index ↦ F (node numbers index))
      fun index hindex ↦ hsamples index (hindex.lt hinside)
    rw [hvalue]
    exact congrArg finite (nested_of_multiAffine hcontain [] (by simpa using hF))

/-- Six samples, one of them infinite, on two axes, the first one with unequal steps. -/
def sixSamples : ShapedArray (Extended ℚ) :=
  ⟨[3, 2], #[finite 1, finite 7, finite 3, finite 11, finite 7, beyond 1], rfl⟩

/-- The interpolant of six samples has the value of an interpolation at every point. -/
theorem ofSamples_sixSamples_interpolates :
    ofSamples (finiteAxes [#[0, 1, 3], #[0, 2]]) sixSamples (beyond 0) =
        .ok ⟨finiteAxes [#[0, 1, 3], #[0, 2]], sixSamples, beyond 0⟩ ∧
      ∃ numbers, Interpolates ⟨finiteAxes [#[0, 1, 3], #[0, 2]], sixSamples, beyond 0⟩ numbers := by
  have hfirst : Usable (#[0, 1, 3] : Array ℚ) 3 :=
    ⟨by decide, rfl, (Exact.increasing_iff _).mp (by decide +kernel)⟩
  have hsecond : Usable (#[0, 2] : Array ℚ) 2 := usable_pair (by norm_num)
  have hok : ofSamples (finiteAxes [#[0, 1, 3], #[0, 2]]) sixSamples (beyond 0) =
      .ok ⟨finiteAxes [#[0, 1, 3], #[0, 2]], sixSamples, beyond 0⟩ :=
    ofSamples_extended_eq_ok_iff.mpr ⟨_, rfl, List.cons_ne_nil _ _, by decide,
      .cons hfirst (.cons hsecond .nil), rfl⟩
  exact ⟨hok, (ofSamples_interpolates hok).2⟩

end Multilinear

end PlasmaField
