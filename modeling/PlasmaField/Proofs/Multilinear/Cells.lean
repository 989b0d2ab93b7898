import Mathlib
import PlasmaField.Proofs.Multilinear.Nested

/-!
# Cells that contain a point

A point on the face between two cells lies in both. The corners of a cell that have a weight there
are corners of the other cell, too, with the same weights, `exists_cells_of_containAll`, and at a
node one corner of weight one is left, `weighted_cornersFrom_of_atNode`. A function that is affine
in every coordinate is recovered from its values at the corners of any cell that contains the point,
`nested_of_multiAffine`.
-/

namespace PlasmaField.Multilinear

open Scalar (nth)
open ShapedArray (volume offset)
open scoped Exact

variable {K : Type} [Field K] [LinearOrder K] [FloorRing K]

/-- A cell of an axis contains a coordinate, which divides it at the cell's inner place. -/
structure Contains (axis : Array K) (v : K) (cell : ℕ × K) : Prop where
  index : cell.1 + 1 < axis.size
  left : nth axis cell.1 ≤ v
  right : v ≤ nth axis (cell.1 + 1)
  place : v = (1 - cell.2) * nth axis cell.1 + cell.2 * nth axis (cell.1 + 1)

/-- The cells, one along every axis, contain a point. -/
inductive ContainAll : List (Array K) → List K → List (ℕ × K) → Prop
  | nil : ContainAll [] [] []
  | cons {axis axes v point cell cells} : Contains axis v cell → ContainAll axes point cells →
      ContainAll (axis :: axes) (v :: point) (cell :: cells)

/-- Every coordinate lies between the ends of its axis. -/
def InBox (axes : List (Array K)) (point : List K) : Prop :=
  List.Forall₂ (fun axis v ↦ nth axis 0 ≤ v ∧ v ≤ nth axis (axis.size - 1)) axes point

/-- A point has one coordinate per axis. -/
theorem ContainAll.length_eq {axes : List (Array K)} {point : List K} {cells : List (ℕ × K)}
    (h : ContainAll axes point cells) : point.length = axes.length := by
  induction h with
  | nil => rfl
  | cons _ _ ih => exact congrArg (· + 1) ih

/-- The corners that have a weight. -/
def weighted (cs : List (Corner K)) : List (Corner K) :=
  cs.filter (·.weight ≠ 0)

/-! ## Corners with a weight -/

/-- The places of the corners are those of their indices, from the places of given corners on. -/
theorem exists_isCorner_of_mem {cells : List (ℕ × K)} {shape : List ℕ}
    (hlength : cells.length = shape.length) {cs : List (Corner K)} {c : Corner K}
    (hc : c ∈ cornersFrom cs cells shape) :
    ∃ d ∈ cs, ∃ index, IsCorner cells index ∧ c.place = d.place + offset shape index := by
  induction cells generalizing cs shape with
  | nil =>
      obtain rfl : shape = [] := List.eq_nil_of_length_eq_zero hlength.symm
      exact ⟨c, hc, [], .nil, rfl⟩
  | cons cell cells ih =>
      obtain ⟨n, shape, rfl⟩ := List.exists_cons_of_length_eq_add_one hlength.symm
      obtain ⟨d, hd, index, hindex, hplace⟩ := ih (Nat.succ.inj hlength) hc
      rcases List.mem_append.mp hd with hd | hd
      · obtain ⟨e, he, rfl⟩ := List.mem_map.mp hd
        exact ⟨e, he, cell.1 :: index, .cons (.inl rfl) hindex, hplace.trans (Nat.add_assoc ..)⟩
      · obtain ⟨e, he, rfl⟩ := List.mem_map.mp hd
        exact ⟨e, he, (cell.1 + 1) :: index, .cons (.inr rfl) hindex,
          hplace.trans (Nat.add_assoc ..)⟩

omit [FloorRing K] in
/-- The corners with a weight of two lists in a row are those of each. -/
theorem weighted_append (cs ds : List (Corner K)) :
    weighted (cs ++ ds) = weighted cs ++ weighted ds :=
  List.filter_append ..

omit [FloorRing K] in
/-- A corner of weight zero is left out. -/
theorem weighted_cons_of_eq {c : Corner K} (h : c.weight = 0) (cs : List (Corner K)) :
    weighted (c :: cs) = weighted cs :=
  List.filter_cons_of_neg (by simpa using h)

omit [FloorRing K] in
/-- A corner of any other weight stays. -/
theorem weighted_cons_of_ne {c : Corner K} (h : c.weight ≠ 0) (cs : List (Corner K)) :
    weighted (c :: cs) = c :: weighted cs :=
  List.filter_cons_of_pos (by simpa using h)

omit [FloorRing K] in
/-- Moving corners keeps those that have a weight. -/
theorem weighted_map_move (cs : List (Corner K)) (move : ℕ → ℕ) :
    weighted (cs.map fun c ↦ ⟨c.weight, move c.place⟩) =
      (weighted cs).map fun c ↦ ⟨c.weight, move c.place⟩ :=
  List.filter_map

omit [FloorRing K] in
/-- Corners of weight zero have no weight. -/
theorem weighted_map_zero (cs : List (Corner K)) (move : ℕ → ℕ) :
    weighted (cs.map fun c ↦ (⟨0, move c.place⟩ : Corner K)) = [] := by
  simp [weighted]

omit [FloorRing K] in
/-- Corners without a weight have none when their weights are scaled. -/
theorem weighted_map_scale (cs : List (Corner K)) (s : K) (move : ℕ → ℕ) :
    weighted (cs.map fun c ↦ ⟨c.weight * s, move c.place⟩) =
      weighted ((weighted cs).map fun c ↦ ⟨c.weight * s, move c.place⟩) := by
  unfold weighted
  rw [List.filter_map, List.filter_map, List.filter_filter]
  refine congrArg (List.map _) (List.filter_congr fun c _ ↦ ?_)
  by_cases hzero : c.weight = 0 <;> simp [hzero]

/-- Corners without a weight leave none behind when they are split. -/
theorem weighted_splitAlong (cs : List (Corner K)) (i : ℕ) (t : K) (stride : ℕ) :
    weighted (splitAlong cs i t stride) = weighted (splitAlong (weighted cs) i t stride) := by
  unfold splitAlong
  rw [weighted_append, weighted_append, weighted_map_scale cs _ fun place ↦ place + i * stride,
    weighted_map_scale cs _ fun place ↦ place + (i + 1) * stride]

/-- The corners that have a weight after a split come from corners that have one. -/
theorem weighted_cornersFrom_congr (cells : List (ℕ × K)) (shape : List ℕ) {cs ds : List (Corner K)}
    (h : weighted cs = weighted ds) :
    weighted (cornersFrom cs cells shape) = weighted (cornersFrom ds cells shape) := by
  induction cells generalizing cs ds shape with
  | nil => exact h
  | cons cell cells ih =>
      cases shape with
      | nil => exact h
      | cons n shape =>
          refine ih shape ?_
          rw [weighted_splitAlong, h, ← weighted_splitAlong]

/-- Where a cell is split at a node of the axis, only the corners at that node have a weight. -/
theorem weighted_splitAlong_of_atNode {cell : ℕ × K} {k : ℕ} (h : AtNode cell k)
    (cs : List (Corner K)) (stride : ℕ) : weighted (splitAlong cs cell.1 cell.2 stride) =
      (weighted cs).map fun c ↦ ⟨c.weight, c.place + k * stride⟩ := by
  unfold splitAlong
  rw [weighted_append]
  rcases h with rfl | ⟨j, rfl, rfl⟩
  · simp only [Exact.literal_one, sub_zero, mul_one, mul_zero]
    rw [weighted_map_zero cs (· + (k + 1) * stride), weighted_map_move cs (· + k * stride),
      List.append_nil]
  · simp only [Exact.literal_one, sub_self, mul_one, mul_zero]
    rw [weighted_map_zero cs (· + j * stride), weighted_map_move cs (· + (j + 1) * stride),
      List.nil_append]

/-- At a node the corners that have a weight are the given ones, moved by the place of the node. -/
theorem weighted_cornersFrom_of_atNode {cells : List (ℕ × K)} {index : List ℕ}
    (h : List.Forall₂ AtNode cells index) {shape : List ℕ} (hlength : cells.length = shape.length)
    (cs : List (Corner K)) : weighted (cornersFrom cs cells shape) =
      (weighted cs).map fun c ↦ ⟨c.weight, c.place + offset shape index⟩ := by
  induction h generalizing cs shape with
  | nil =>
      obtain rfl : shape = [] := List.eq_nil_of_length_eq_zero hlength.symm
      exact (List.map_id _).symm
  | cons hcell _ ih =>
      obtain ⟨n, shape, rfl⟩ := List.exists_cons_of_length_eq_add_one hlength.symm
      rw [cornersFrom, ih (Nat.succ.inj hlength), weighted_splitAlong_of_atNode hcell, List.map_map]
      refine List.map_congr_left fun c _ ↦ ?_
      simp [offset, Nat.add_assoc]

/-! ## All cells that contain a point -/

section Ordered

variable [IsStrictOrderedRing K]

/-- The inner place of a coordinate in a cell that contains it. -/
theorem Contains.eq_div {axis : Array K} {n : ℕ} (haxis : Usable axis n) {v : K} {cell : ℕ × K}
    (h : Contains axis v cell) :
    cell = (cell.1, (v - nth axis cell.1) / (nth axis (cell.1 + 1) - nth axis cell.1)) := by
  have hgap : nth axis (cell.1 + 1) - nth axis cell.1 ≠ 0 :=
    (sub_pos.mpr (haxis.increasing _ h.index)).ne'
  refine Prod.ext rfl ((eq_div_iff hgap).mpr ?_)
  linear_combination -h.place

/-- A cell that contains a coordinate is one of the axis. -/
theorem Contains.inside {axis : Array K} {n : ℕ} (haxis : Usable axis n) {v : K} {cell : ℕ × K}
    (h : Contains axis v cell) : Inside cell n := by
  have hgap := sub_pos.mpr (haxis.increasing _ h.index)
  refine ⟨haxis.size ▸ h.index, ?_, ?_⟩
  · rw [h.eq_div haxis]
    exact div_nonneg (sub_nonneg.mpr h.left) hgap.le
  · rw [h.eq_div haxis]
    exact (div_le_one hgap).mpr (sub_le_sub_right h.right _)

/-- The cells that contain a point are cells of the axes. -/
theorem ContainAll.inside {axes : List (Array K)} {shape : List ℕ}
    (haxes : List.Forall₂ Usable axes shape) {point : List K} {cells : List (ℕ × K)}
    (h : ContainAll axes point cells) : List.Forall₂ Inside cells shape := by
  induction h generalizing shape with
  | nil =>
      cases haxes
      exact .nil
  | cons hcell _ ih =>
      cases haxes with
      | cons haxis haxes => exact .cons (hcell.inside haxis) (ih haxes)

/-- The cell that is found for a coordinate between the ends of the axis contains it. -/
theorem exists_contains {axis : Array K} {n : ℕ} (haxis : Usable axis n) {v : K}
    (hfirst : nth axis 0 ≤ v) (hlast : v ≤ nth axis (axis.size - 1)) :
    ∃ cell, cell? axis v = some cell ∧ Contains axis v cell := by
  obtain ⟨hi, hleft, hright⟩ := Spline.mem_interval haxis.two_le hfirst hlast
  have hgap := (sub_pos.mpr (haxis.increasing _ hi)).ne'
  refine ⟨_, if_pos (Exact.within_iff.mpr ⟨hfirst, hlast⟩), hi, hleft, hright, ?_⟩
  dsimp only
  field_simp
  ring

/-- The cells that are found for a point of the box contain it. -/
theorem exists_containAll {axes : List (Array K)} {shape : List ℕ}
    (haxes : List.Forall₂ Usable axes shape) {point : List K} (h : InBox axes point) :
    ∃ cells, ((axes.zip point).mapM fun p ↦ cell? p.1 p.2) = some cells ∧
      ContainAll axes point cells := by
  induction haxes generalizing point with
  | nil =>
      cases h
      exact ⟨[], rfl, .nil⟩
  | cons haxis _ ih =>
      cases h with
      | cons hv hpoint =>
          obtain ⟨cell, hcell, hcontains⟩ := exists_contains haxis hv.1 hv.2
          obtain ⟨cells, hcells, hall⟩ := ih hpoint
          refine ⟨cell :: cells, ?_, .cons hcontains hall⟩
          rw [List.zip_cons_cons, List.mapM_cons, hcell, hcells]
          rfl

/-- A cell that contains a coordinate leaves the same corners with a weight as the cell that is
found for it. -/
theorem Contains.exists_cell? {axis : Array K} {n : ℕ} (haxis : Usable axis n) {v : K}
    {cell : ℕ × K} (h : Contains axis v cell) : ∃ found, cell? axis v = some found ∧
      ∀ cs stride, weighted (splitAlong cs found.1 found.2 stride) =
        weighted (splitAlong cs cell.1 cell.2 stride) := by
  have hincreasing := haxis.increasing
  have hfirst : nth axis 0 ≤ v :=
    (hincreasing.le (Nat.zero_le _) (Nat.lt_of_succ_lt h.index)).trans h.left
  have hlast : v ≤ nth axis (axis.size - 1) :=
    h.right.trans (hincreasing.le (by have := h.index; omega) (by have := h.index; omega))
  refine ⟨_, if_pos (Exact.within_iff.mpr ⟨hfirst, hlast⟩), fun cs stride ↦ ?_⟩
  rw [h.eq_div haxis]
  refine Spline.apply_interval hincreasing (fun i v ↦ weighted (splitAlong cs i
    ((v - nth axis i) / (nth axis (i + 1) - nth axis i)) stride)) (fun i hi ↦ ?_)
    h.index h.left h.right
  -- the entry between two cells is the right end of one and the left end of the other
  have hgap := (sub_pos.mpr (hincreasing i (by omega))).ne'
  have hright : AtNode (i, (nth axis (i + 1) - nth axis i) / (nth axis (i + 1) - nth axis i))
      (i + 1) := .inr ⟨i, by rw [div_self hgap], rfl⟩
  have hleft : AtNode (i + 1, (nth axis (i + 1) - nth axis (i + 1)) /
      (nth axis (i + 2) - nth axis (i + 1))) (i + 1) := .inl (by rw [sub_self, zero_div])
  exact (weighted_splitAlong_of_atNode hright cs stride).trans
    (weighted_splitAlong_of_atNode hleft cs stride).symm

/-- Cells that contain a point leave the same corners with a weight as those that are found. -/
theorem exists_cells_of_containAll {axes : List (Array K)} {shape : List ℕ}
    (haxes : List.Forall₂ Usable axes shape) {point : List K} {cells : List (ℕ × K)}
    (h : ContainAll axes point cells) :
    ∃ found, ((axes.zip point).mapM fun p ↦ cell? p.1 p.2) = some found ∧
      ∀ cs, weighted (cornersFrom cs found shape) = weighted (cornersFrom cs cells shape) := by
  induction h generalizing shape with
  | nil => exact ⟨[], rfl, fun _ ↦ by cases haxes; rfl⟩
  | cons hcell _ ih =>
      cases haxes with
      | cons haxis haxes =>
          obtain ⟨found, hfound, hsplit⟩ := hcell.exists_cell? haxis
          obtain ⟨rest, hrest, hcorners⟩ := ih haxes
          refine ⟨found :: rest, ?_, fun cs ↦ ?_⟩
          · rw [List.zip_cons_cons, List.mapM_cons, hfound, hrest]
            rfl
          · exact (hcorners _).trans (weighted_cornersFrom_congr _ _ (hsplit cs _))

omit [FloorRing K] [IsStrictOrderedRing K] in
/-- Corners without a weight add nothing to a weighted sum. -/
theorem sum_weighted (cs : List (Corner K)) (value : ℕ → K) :
    ((weighted cs).map fun c ↦ c.weight * value c.place).sum =
      (cs.map fun c ↦ c.weight * value c.place).sum := by
  induction cs with
  | nil => rfl
  | cons c cs ih =>
      rw [List.map_cons, List.sum_cons, ← ih]
      by_cases hzero : c.weight = 0
      · rw [weighted_cons_of_eq hzero, hzero, zero_mul, zero_add]
      · rw [weighted_cons_of_ne hzero, List.map_cons, List.sum_cons]

/-- The value at a point is interpolated along the axes of any cell that contains the point. -/
theorem eval_of_containAll {g : Multilinear K} (hg : List.Forall₂ Usable g.axes g.samples.shape)
    {point : List K} {cells : List (ℕ × K)} (h : ContainAll g.axes point cells) :
    g.eval point =
      nested cells fun index ↦ nth g.samples.data (offset g.samples.shape index) := by
  obtain ⟨found, hfound, hcorners⟩ := exists_cells_of_containAll hg h
  have hlength := (inside_of_cells hg h.length_eq hfound).length_eq
  have hsum : ∀ cells : List (ℕ × K), cells.length = g.samples.shape.length →
      nested cells (fun index ↦ nth g.samples.data (offset g.samples.shape index)) =
        ((weighted (cornersFrom [⟨1, 0⟩] cells g.samples.shape)).map fun c ↦
          c.weight * nth g.samples.data c.place).sum := by
    intro cells hcount
    rw [sum_weighted _ (nth g.samples.data), sum_cornersFrom _ hcount]
    simp
  rw [eval_of_cells hfound hlength, hsum _ hlength, hcorners, hsum _ (h.inside hg).length_eq]

end Ordered

/-! ## Functions that are affine in every coordinate -/

/-- A function of points with the given number of coordinates is affine in each of them. -/
def MultiAffine (n : ℕ) (F : List K → K) : Prop :=
  ∀ before after a b t, before.length + 1 + after.length = n →
    F (before ++ ((1 - t) * a + t * b) :: after) =
      (1 - t) * F (before ++ a :: after) + t * F (before ++ b :: after)

/-- The values of an affine function at the corners of a cell give back its value at a point of
the cell, whatever coordinates come before. -/
theorem nested_of_multiAffine {F : List K → K} {axes : List (Array K)} {point : List K}
    {cells : List (ℕ × K)} (h : ContainAll axes point cells) (before : List K)
    (hF : MultiAffine (before.length + axes.length) F) :
    nested cells (fun index ↦ F (before ++ node axes index)) = F (before ++ point) := by
  induction h generalizing before with
  | nil => rfl
  | @cons axis axes v point cell cells hcell hall ih =>
      have hside : ∀ i, nested cells (fun index ↦ F (before ++ nth axis i :: node axes index)) =
          F (before ++ nth axis i :: point) := by
        intro i
        have := ih (before ++ [nth axis i]) (by
          simpa [add_assoc, add_comm, add_left_comm] using hF)
        simpa using this
      have hcount : before.length + 1 + point.length = before.length + (axis :: axes).length := by
        rw [List.length_cons, hall.length_eq]
        ring
      calc nested (cell :: cells) (fun index ↦ F (before ++ node (axis :: axes) index)) =
            (1 - cell.2) * F (before ++ nth axis cell.1 :: point) +
              cell.2 * F (before ++ nth axis (cell.1 + 1) :: point) := by
            rw [← hside, ← hside]
            rfl
        _ = F (before ++ v :: point) := by
            rw [hcell.place, hF before point _ _ _ hcount]

end PlasmaField.Multilinear
