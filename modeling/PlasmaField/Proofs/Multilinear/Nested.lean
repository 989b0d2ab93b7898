import Mathlib
import PlasmaField.Proofs.Multilinear
import PlasmaField.Proofs.Spline.Smooth

/-!
# Interpolation along one axis after another

The sum over the corners of a cell is linear interpolation along the axes in turn, `eval_of_cells`.
At a node of the grid this is the sample of the node, `eval_node`. Along the last axis the value is
a polygon through its values at the nodes of that axis, and therefore continuous,
`continuousOn_eval_last`.
-/

namespace PlasmaField.Multilinear

open Scalar (nth)
open ShapedArray (volume offset)
open scoped Exact

variable {K : Type} [Field K] [LinearOrder K] [FloorRing K]

/-- Interpolates a function of the indices linearly along one axis after another. -/
def nested : List (ℕ × K) → (List ℕ → K) → K
  | [], f => f []
  | (i, t) :: cells, f =>
    (1 - t) * nested cells (fun index ↦ f (i :: index)) +
      t * nested cells fun index ↦ f ((i + 1) :: index)

omit [LinearOrder K] [FloorRing K] in
/-- The last axis may be interpolated after all others. -/
theorem nested_append (cells : List (ℕ × K)) (i : ℕ) (t : K) (f : List ℕ → K) :
    nested (cells ++ [(i, t)]) f = (1 - t) * nested cells (fun index ↦ f (index ++ [i])) +
      t * nested cells fun index ↦ f (index ++ [i + 1]) := by
  induction cells generalizing f with
  | nil => rfl
  | cons cell cells ih =>
      rw [List.cons_append, nested, ih, ih, nested, nested]
      simp only [List.cons_append]
      ring

/-- The indices of the corners of a cell: along every axis the cell's number or the one after it. -/
def IsCorner (cells : List (ℕ × K)) (index : List ℕ) : Prop :=
  List.Forall₂ (fun cell i ↦ i = cell.1 ∨ i = cell.1 + 1) cells index

omit [FloorRing K] in
/-- The indices of corners are indices of the grid. -/
theorem IsCorner.lt {cells : List (ℕ × K)} {shape index : List ℕ}
    (hcells : List.Forall₂ Inside cells shape) (h : IsCorner cells index) :
    List.Forall₂ (· < ·) index shape := by
  induction hcells generalizing index with
  | nil =>
      cases h
      exact .nil
  | cons hcell _ ih =>
      cases h with
      | cons hi hindex =>
          obtain ⟨hlast, -⟩ := hcell
          exact .cons (by omega) (ih hindex)

omit [FloorRing K] [LinearOrder K] in
/-- Interpolation only reads the function at the corners of the cell. -/
theorem nested_congr_of_isCorner {cells : List (ℕ × K)} {f g : List ℕ → K}
    (h : ∀ index, IsCorner cells index → f index = g index) : nested cells f = nested cells g := by
  induction cells generalizing f g with
  | nil => exact h [] .nil
  | cons cell cells ih =>
      rw [nested, nested, ih fun index hindex ↦ h _ (.cons (.inl rfl) hindex),
        ih fun index hindex ↦ h _ (.cons (.inr rfl) hindex)]

omit [FloorRing K] in
/-- Interpolation only reads the function at indices of the grid. -/
theorem nested_congr {cells : List (ℕ × K)} {shape : List ℕ}
    (hcells : List.Forall₂ Inside cells shape) {f g : List ℕ → K}
    (h : ∀ index, List.Forall₂ (· < ·) index shape → f index = g index) :
    nested cells f = nested cells g :=
  nested_congr_of_isCorner fun index hindex ↦ h index (hindex.lt hcells)

/-- The corners that arise from given ones add up to the interpolated samples from the places of
these on. -/
theorem sum_cornersFrom (cs : List (Corner K)) {cells : List (ℕ × K)} {shape : List ℕ}
    (hlength : cells.length = shape.length) (value : ℕ → K) :
    ((cornersFrom cs cells shape).map fun c ↦ c.weight * value c.place).sum =
      (cs.map fun c ↦
        c.weight * nested cells fun index ↦ value (c.place + offset shape index)).sum := by
  induction cells generalizing cs shape with
  | nil =>
      obtain rfl : shape = [] := List.eq_nil_of_length_eq_zero hlength.symm
      rfl
  | cons cell cells ih =>
      obtain ⟨i, t⟩ := cell
      obtain ⟨n, shape, rfl⟩ := List.exists_cons_of_length_eq_add_one hlength.symm
      have hsum := ih (splitAlong cs i t (volume shape)) (Nat.succ.inj hlength)
      rw [cornersFrom, hsum]
      unfold splitAlong
      simp only [Exact.literal_one, List.map_append, List.map_map, List.sum_append,
        ← List.sum_map_add, Function.comp_def]
      refine congrArg List.sum (List.map_congr_left fun c _ ↦ ?_)
      simp only [nested, offset, Nat.add_assoc]
      ring

/-- The value at a point of the grid is interpolated along the axes in turn. -/
theorem eval_of_cells {g : Multilinear K} {point : List K} {cells : List (ℕ × K)}
    (hcells : g.cellsAt? point = some cells) (hlength : cells.length = g.samples.shape.length) :
    g.eval point =
      nested cells fun index ↦ nth g.samples.data (offset g.samples.shape index) := by
  unfold cellsAt? at hcells
  unfold eval corners
  rw [hcells]
  simp only [Exact.literal_zero, Exact.literal_one]
  rw [foldl_corners (fun c ↦ nth g.samples.data c.place), zero_add,
    sum_cornersFrom _ hlength fun place ↦ nth g.samples.data place]
  simp

/-- Outside the grid the value is the fill value. -/
theorem eval_of_none {g : Multilinear K} {point : List K} (h : g.cellsAt? point = none) :
    g.eval point = g.fill := by
  unfold cellsAt? at h
  unfold eval
  rw [h]

/-- A point with one more coordinate has the cells of the point and one along the last axis. -/
theorem cellsAt?_append {g : Multilinear K} {axes : List (Array K)} {axis : Array K}
    (haxes : g.axes = axes ++ [axis]) {point : List K} (hlength : point.length = axes.length)
    (v : K) : g.cellsAt? (point ++ [v]) =
      ((axes.zip point).mapM fun p ↦ cell? p.1 p.2).bind fun cells ↦
        (cell? axis v).map fun cell ↦ cells ++ [cell] := by
  unfold cellsAt?
  rw [haxes, List.zip_append hlength.symm, List.mapM_append]
  cases (axes.zip point).mapM fun p ↦ cell? p.1 p.2 with
  | none => rfl
  | some cells => cases hcell : cell? axis v <;> simp [hcell]

/-! ## Nodes -/

/-- The cell and the place within it are those of the node with the given number. -/
def AtNode (cell : ℕ × K) (i : ℕ) : Prop :=
  cell = (i, 0) ∨ ∃ j, cell = (j, 1) ∧ i = j + 1

omit [LinearOrder K] [FloorRing K] in
/-- At a node the interpolated function has its value. -/
theorem nested_of_atNode {cells : List (ℕ × K)} {index : List ℕ}
    (h : List.Forall₂ AtNode cells index) (f : List ℕ → K) : nested cells f = f index := by
  induction h generalizing f with
  | nil => rfl
  | cons hcell _ ih =>
      rcases hcell with rfl | ⟨j, rfl, rfl⟩
      · rw [nested, ih, ih]
        ring
      · rw [nested, ih, ih]
        ring

omit [LinearOrder K] [FloorRing K] in
/-- At a node of the last axis only the other axes are left to interpolate. -/
theorem nested_append_of_atNode {cell : ℕ × K} {k : ℕ} (h : AtNode cell k)
    (cells : List (ℕ × K)) (f : List ℕ → K) :
    nested (cells ++ [cell]) f = nested cells fun index ↦ f (index ++ [k]) := by
  rcases h with rfl | ⟨j, rfl, rfl⟩
  · rw [nested_append]
    ring
  · rw [nested_append]
    ring

section Ordered

variable [IsStrictOrderedRing K]

/-- The entries of an axis are nodes. -/
theorem exists_cell?_node {axis : Array K} {n : ℕ} (h : Usable axis n) {i : ℕ} (hi : i < n) :
    ∃ cell, cell? axis (nth axis i) = some cell ∧ AtNode cell i := by
  obtain ⟨htwo, rfl, hincreasing⟩ := h
  have hfirst : nth axis 0 ≤ nth axis i := hincreasing.le (Nat.zero_le i) hi
  have hlast : nth axis i ≤ nth axis (axis.size - 1) := hincreasing.le (by omega) (by omega)
  refine ⟨_, if_pos (Exact.within_iff.mpr ⟨hfirst, hlast⟩), ?_⟩
  by_cases hnext : i + 1 < axis.size
  · have hinterval : Spline.interval axis (nth axis i) = i :=
      (Spline.interval_eq_iff hincreasing htwo hfirst i).mpr
        ⟨hnext, le_rfl, .inl (hincreasing i hnext)⟩
    refine .inl ?_
    rw [hinterval, sub_self, zero_div]
  · -- the last entry is the right end of the last cell
    obtain ⟨j, rfl⟩ : ∃ j, i = j + 1 := ⟨i - 1, by omega⟩
    have hinterval : Spline.interval axis (nth axis (j + 1)) = j :=
      (Spline.interval_eq_iff hincreasing htwo hfirst j).mpr
        ⟨hi, (hincreasing j hi).le, .inr (by omega)⟩
    refine .inr ⟨j, ?_, rfl⟩
    rw [hinterval, div_self (sub_pos.mpr (hincreasing j hi)).ne']

/-- The node of a grid with the given indices. -/
def node (axes : List (Array K)) (index : List ℕ) : List K :=
  List.zipWith nth axes index

/-- The cells of a node. -/
theorem exists_cells_node {axes : List (Array K)} {shape : List ℕ}
    (h : List.Forall₂ Usable axes shape) {index : List ℕ}
    (hindex : List.Forall₂ (· < ·) index shape) :
    ∃ cells, ((axes.zip (node axes index)).mapM fun p ↦ cell? p.1 p.2) = some cells ∧
      List.Forall₂ AtNode cells index := by
  induction h generalizing index with
  | nil =>
      cases hindex
      exact ⟨[], rfl, .nil⟩
  | cons haxis _ ih =>
      cases hindex with
      | cons hi hindex =>
          obtain ⟨cell, hcell, hnode⟩ := exists_cell?_node haxis hi
          obtain ⟨cells, hcells, hnodes⟩ := ih hindex
          refine ⟨cell :: cells, ?_, .cons hnode hnodes⟩
          unfold node at hcells ⊢
          rw [List.zipWith_cons_cons, List.zip_cons_cons, List.mapM_cons, hcell, hcells]
          rfl

/-- At a node of the grid the value is the sample there. -/
theorem eval_node {g : Multilinear K} (hg : List.Forall₂ Usable g.axes g.samples.shape)
    {index : List ℕ} (hindex : List.Forall₂ (· < ·) index g.samples.shape) :
    g.eval (node g.axes index) = nth g.samples.data (offset g.samples.shape index) := by
  obtain ⟨cells, hcells, hnodes⟩ := exists_cells_node hg hindex
  have hlength := hnodes.length_eq.trans hindex.length_eq
  rw [eval_of_cells hcells hlength, nested_of_atNode hnodes]

end Ordered

/-! ## Along the last axis -/

/-- The polygon through given values at the entries of an axis, on one cell. -/
noncomputable def sideOn (axis : Array ℝ) (value : ℕ → ℝ) (i : ℕ) (v : ℝ) : ℝ :=
  (1 - (v - nth axis i) / (nth axis (i + 1) - nth axis i)) * value i +
    (v - nth axis i) / (nth axis (i + 1) - nth axis i) * value (i + 1)

/-- A polygon is continuous. -/
theorem continuousOn_sideOn {axis : Array ℝ} {n : ℕ} (h : Usable axis n) (value : ℕ → ℝ) :
    ContinuousOn (fun v ↦ sideOn axis value (Spline.interval axis v) v)
      (Set.Icc (nth axis 0) (nth axis (axis.size - 1))) := by
  have hgap : ∀ i, i + 1 < axis.size → nth axis (i + 1) - nth axis i ≠ 0 :=
    fun i hi ↦ (sub_pos.mpr (h.increasing i hi)).ne'
  -- neighbouring sides meet at the entry between them
  have hmeet : ∀ i, i + 2 < axis.size → sideOn axis value i (nth axis (i + 1)) =
      sideOn axis value (i + 1) (nth axis (i + 1)) := by
    intro i hi
    unfold sideOn
    rw [div_self (hgap i (by omega)), sub_self (nth axis (i + 1)), zero_div]
    ring
  intro v _
  refine CubicSpline.of_knots h.two_le
    (P := fun s ↦ ContinuousWithinAt (fun v ↦ sideOn axis value (Spline.interval axis v) v) s v)
    (fun _ _ ↦ ContinuousWithinAt.union) v (fun _ ↦ continuousWithinAt_of_notMem_closure)
    (fun i hi hv ↦ ?_) h.increasing
  have hcontinuous : Continuous (sideOn axis value i) := by
    unfold sideOn
    fun_prop
  refine hcontinuous.continuousWithinAt.congr (fun w hw ↦ ?_) ?_
  · exact Spline.apply_interval h.increasing (sideOn axis value) hmeet hi hw.1 hw.2
  · exact Spline.apply_interval h.increasing (sideOn axis value) hmeet hi hv.1 hv.2

/-- Along the last axis the value is continuous. -/
theorem continuousOn_eval_last {g : Multilinear ℝ}
    (hg : List.Forall₂ Usable g.axes g.samples.shape) {axes : List (Array ℝ)} {axis : Array ℝ}
    {n : ℕ} (haxes : g.axes = axes ++ [axis]) (haxis : Usable axis n) {point : List ℝ}
    (hlength : point.length = axes.length) :
    ContinuousOn (fun v ↦ g.eval (point ++ [v]))
      (Set.Icc (nth axis 0) (nth axis (axis.size - 1))) := by
  cases hcells : (axes.zip point).mapM fun p ↦ cell? p.1 p.2 with
  | none =>
      refine continuousOn_const.congr fun v _ ↦ eval_of_none ?_
      rw [cellsAt?_append haxes hlength, hcells]
      rfl
  | some cells =>
      let value := fun k ↦ nested cells fun index ↦
        nth g.samples.data (offset g.samples.shape (index ++ [k]))
      refine (continuousOn_sideOn haxis value).congr fun v hv ↦ ?_
      let i := Spline.interval axis v
      let t := (v - nth axis i) / (nth axis (i + 1) - nth axis i)
      have hcell : cell? axis v = some (i, t) := if_pos (Exact.within_iff.mpr hv)
      have hall : g.cellsAt? (point ++ [v]) = some (cells ++ [(i, t)]) := by
        rw [cellsAt?_append haxes hlength, hcells, hcell]
        rfl
      have hpoint : (point ++ [v]).length = g.axes.length := by simp [haxes, hlength]
      have hinside := (inside_of_cells hg hpoint hall).length_eq
      exact (eval_of_cells hall hinside).trans (nested_append _ _ _ _)

/-- Between two entries of the last axis with the same samples there is no difference, wherever
the other coordinates are. -/
theorem eval_last_congr {g : Multilinear ℝ} {axes : List (Array ℝ)} {shape : List ℕ}
    {axis : Array ℝ} {n : ℕ} (haxes : g.axes = axes ++ [axis])
    (hshape : g.samples.shape = shape ++ [n]) (hother : List.Forall₂ Usable axes shape)
    (haxis : Usable axis n) {k k' : ℕ} (hk : k < n) (hk' : k' < n)
    (hsamples : ∀ index, List.Forall₂ (· < ·) index shape →
      nth g.samples.data (offset g.samples.shape (index ++ [k])) =
        nth g.samples.data (offset g.samples.shape (index ++ [k'])))
    {point : List ℝ} (hlength : point.length = axes.length) :
    g.eval (point ++ [nth axis k]) = g.eval (point ++ [nth axis k']) := by
  cases hcells : (axes.zip point).mapM fun p ↦ cell? p.1 p.2 with
  | none =>
      have houtside : ∀ v, g.eval (point ++ [v]) = g.fill := by
        intro v
        refine eval_of_none ?_
        rw [cellsAt?_append haxes hlength, hcells]
        rfl
      rw [houtside, houtside]
  | some cells =>
      have hinside := inside_of_cells hother hlength hcells
      have hnode : ∀ k < n, g.eval (point ++ [nth axis k]) =
          nested cells fun index ↦
            nth g.samples.data (offset g.samples.shape (index ++ [k])) := by
        intro k hk
        obtain ⟨cell, hcell, hatNode⟩ := exists_cell?_node haxis hk
        have hall : g.cellsAt? (point ++ [nth axis k]) = some (cells ++ [cell]) := by
          rw [cellsAt?_append haxes hlength, hcells, hcell]
          rfl
        have hcount : (cells ++ [cell]).length = g.samples.shape.length := by
          simp [hshape, hinside.length_eq]
        rw [eval_of_cells hall hcount, nested_append_of_atNode hatNode]
      rw [hnode k hk, hnode k' hk']
      exact nested_congr hinside hsamples

end PlasmaField.Multilinear
