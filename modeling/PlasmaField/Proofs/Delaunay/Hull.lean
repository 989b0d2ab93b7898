import Mathlib
import PlasmaField.Proofs.Delaunay.EmptyCircle
import PlasmaField.Proofs.Delaunay.Triangulation

/-!
# The hull of the inner vertices

A triangulation with empty circles loses the triangles that touch the outer one. The rest covers the
convex hull of the inner vertices, `exists_within_of_mem_hull`, unless a corner of the outer
triangle comes close enough to lie in a circle through inner vertices that has none of them within
it: then the rim of the rest consists of edges that have all inner vertices on their left. The
triangles of a list of points cover the hull of the points in the same way,
`exists_within_triangulate`.
-/

namespace PlasmaField.Delaunay

open scoped Exact

variable {K : Type} [Field K] [LinearOrder K] [FloorRing K]

/-- The convex hull of the points below `n`. -/
def hull (pos : ℕ → Point K) (n : ℕ) : Set (Point K) :=
  {q | ∃ w : ℕ → K, (∀ i, 0 ≤ w i) ∧ ∑ i ∈ Finset.range n, w i = 1 ∧
    q.x = ∑ i ∈ Finset.range n, w i * (pos i).x ∧ q.y = ∑ i ∈ Finset.range n, w i * (pos i).y}

/-- The corners of the outer triangle lie strictly outside every circle through three of the points
below `n`, not in line, that has none of these points within it. -/
def CornersClear (pos : ℕ → Point K) (outer : Triangle K) (n : ℕ) : Prop :=
  ∀ i < n, ∀ j < n, ∀ k < n, orientation (pos i) (pos j) (pos k) ≠ 0 →
    ∀ o, Equidistant o (pos i) (pos j) (pos k) → EmptyCircle pos n o i →
    ∀ c ∈ outer.corners, distSq o (pos i) < distSq o (pos c)

/-- The triangles that have corners below `n` only. -/
def inner (n : ℕ) (triangles : List (Triangle K)) : List (Triangle K) :=
  triangles.filter fun t ↦ t.corners.all (· < n)

omit [Field K] [LinearOrder K] [FloorRing K] in
/-- A triangle is inner when its corners are. -/
theorem mem_inner {n : ℕ} {triangles : List (Triangle K)} {t : Triangle K} :
    t ∈ inner n triangles ↔ t ∈ triangles ∧ ∀ i ∈ t.corners, i < n := by
  unfold inner
  rw [List.mem_filter]
  simp

/-- The orientation of a mean of points is the mean of the orientations. -/
theorem orientation_eq_sum {pos : ℕ → Point K} {n : ℕ} {q : Point K} {w : ℕ → K}
    (hsum : ∑ i ∈ Finset.range n, w i = 1) (hx : q.x = ∑ i ∈ Finset.range n, w i * (pos i).x)
    (hy : q.y = ∑ i ∈ Finset.range n, w i * (pos i).y) (a b : Point K) :
    orientation a b q = ∑ i ∈ Finset.range n, w i * orientation a b (pos i) := by
  have hterm : ∀ i, w i * orientation a b (pos i) = (b.x - a.x) * (w i * (pos i).y)
      - (b.y - a.y) * (w i * (pos i).x)
      - w i * ((b.x - a.x) * a.y - (b.y - a.y) * a.x) := by
    intro i
    rw [orientation_eq]
    ring
  simp only [hterm, Finset.sum_sub_distrib, ← Finset.mul_sum, ← Finset.sum_mul, hsum, ← hx, ← hy]
  rw [orientation_eq]
  ring

omit [FloorRing K] in
/-- The hull depends on the points below `n` only. -/
theorem hull_congr {pos pos' : ℕ → Point K} {n : ℕ} (h : ∀ i < n, pos i = pos' i) :
    hull pos n = hull pos' n := by
  have hsum : ∀ (w : ℕ → K) (f : Point K → K), ∑ i ∈ Finset.range n, w i * f (pos i) =
      ∑ i ∈ Finset.range n, w i * f (pos' i) := fun w f ↦
    Finset.sum_congr rfl fun i hi ↦ by rw [h i (Finset.mem_range.mp hi)]
  unfold hull
  ext q
  simp only [Set.mem_ofPred_eq, hsum _ Point.x, hsum _ Point.y]

variable [IsStrictOrderedRing K] {pos : ℕ → Point K} {n : ℕ} {outer : Triangle K}
  {triangles : List (Triangle K)}

omit [FloorRing K] in
/-- Means of three of the points are in their hull. -/
theorem mem_hull_of_mean {i j k : ℕ} (hi : i < n) (hj : j < n) (hk : k < n) {u v w : K} (hu : 0 ≤ u)
    (hv : 0 ≤ v) (hw : 0 ≤ w) (hsum : u + v + w = 1) {q : Point K}
    (hx : q.x = u * (pos i).x + v * (pos j).x + w * (pos k).x)
    (hy : q.y = u * (pos i).y + v * (pos j).y + w * (pos k).y) : q ∈ hull pos n := by
  have hterms : ∀ f : ℕ → K, ∑ l ∈ Finset.range n, ((if l = i then u else 0)
      + (if l = j then v else 0) + (if l = k then w else 0)) * f l =
      u * f i + v * f j + w * f k := by
    intro f
    simp only [add_mul, ite_mul, zero_mul, Finset.sum_add_distrib, Finset.sum_ite_eq',
      Finset.mem_range, hi, hj, hk, if_true]
  refine ⟨fun l ↦ (if l = i then u else 0) + (if l = j then v else 0) + (if l = k then w else 0),
    fun l ↦ ?_, ?_, ?_, ?_⟩
  · have hnonneg : ∀ {m : ℕ} {a : K}, 0 ≤ a → 0 ≤ if l = m then a else 0 := fun ha ↦ by
      split
      · exact ha
      · exact le_rfl
    exact add_nonneg (add_nonneg (hnonneg hu) (hnonneg hv)) (hnonneg hw)
  · simpa [hsum] using hterms fun _ ↦ 1
  · rw [hterms fun l ↦ (pos l).x, hx]
  · rw [hterms fun l ↦ (pos l).y, hy]

/-- A half plane that has the points has their hull. -/
theorem orientation_nonneg_of_mem_hull {q : Point K} (hq : q ∈ hull pos n) {a b : Point K}
    (h : ∀ v < n, 0 ≤ orientation a b (pos v)) : 0 ≤ orientation a b q := by
  obtain ⟨w, hw, hsum, hx, hy⟩ := hq
  rw [orientation_eq_sum hsum hx hy]
  exact Finset.sum_nonneg fun i hi ↦ mul_nonneg (hw i) (h i (Finset.mem_range.mp hi))

/-- The corners of the outer triangle are on the outer side of a circle through three of the points
below `n`, if these are not in line and the others are not on its inner side. -/
def CircleClear (pos : ℕ → Point K) (outer : Triangle K) (n i j k : ℕ) : Prop :=
  orientation (pos i) (pos j) (pos k) ≠ 0 →
    (∀ v < n, 0 ≤ circleSide (pos i) (pos j) (pos k) (pos v)) →
    ∀ c ∈ outer.corners, 0 < circleSide (pos i) (pos j) (pos k) (pos c)

/-- Whether the corners are outside one circle can be computed. -/
instance (pos : ℕ → Point K) (outer : Triangle K) (n i j k : ℕ) :
    Decidable (CircleClear pos outer n i j k) :=
  inferInstanceAs (Decidable (_ → _ → ∀ c ∈ outer.corners, _))

/-- Whether the corners are clear is a question about the sides of circles, not about their
centres. -/
theorem cornersClear_iff :
    CornersClear pos outer n ↔ ∀ i < n, ∀ j < n, ∀ k < n, CircleClear pos outer n i j k := by
  constructor
  · intro h i hi j hj k hk hne hempty c hc
    obtain ⟨o, ho⟩ := exists_equidistant hne
    refine (circleSide_pos_iff ho hne).mpr (h i hi j hj k hk hne o ho (fun v hv ↦ ?_) c hc)
    exact (circleSide_nonneg_iff ho hne).mp (hempty v hv)
  · intro h i hi j hj k hk hne o ho hempty c hc
    refine (circleSide_pos_iff ho hne).mp (h i hi j hj k hk hne (fun v hv ↦ ?_) c hc)
    exact (circleSide_nonneg_iff ho hne).mpr (hempty v hv)

/-- Whether the corners are clear can be computed. -/
instance : Decidable (CornersClear pos outer n) :=
  decidable_of_iff _ cornersClear_iff.symm

namespace IsDelaunay

variable (h : IsDelaunay pos outer (fun v ↦ v ∈ outer.corners ∨ v < n) triangles)
  (hclear : CornersClear pos outer n)
include h hclear

/-- An edge between inner vertices, with a triangle that touches the outer one on its right, has no
inner vertex strictly on its right. -/
theorem orientation_nonneg_of_outer {s t : Triangle K} (hs : s ∈ triangles) (ht : t ∈ triangles)
    {i j k c : ℕ} (hi : i < n) (hj : j < n) (hk : Turned s i j k) (hc : Turned t j i c)
    (hcorner : c ∈ outer.corners) {v : ℕ} (hv : v < n) :
    0 ≤ orientation (pos i) (pos j) (pos v) := by
  by_contra hneg
  obtain ⟨-, hsi, hsj, -⟩ := (h.proper s hs).turned hk
  obtain ⟨hccw, htj, hti, htc⟩ := (h.proper t ht).turned hc
  rw [power_eq, sub_eq_zero] at hsi hsj
  have hempty : EmptyCircle pos n s.centre i := by
    intro w hw
    rw [hsi, ← sub_nonneg]
    exact h.empty s hs w (.inr hw)
  obtain ⟨l, hl, hlneg, o, ho, hempty'⟩ :=
    exists_wider (hsi.trans hsj.symm) hempty ⟨v, hv, not_le.mp hneg⟩
  have hfar := hclear i hi j hj l hl hlneg.ne o ho hempty' c hcorner
  have hoi : power o (distSq o (pos i)) (pos i) = 0 := sub_self _
  have hoj : power o (distSq o (pos i)) (pos j) = 0 := sub_eq_zero.mpr ho.1.symm
  have hol : power o (distSq o (pos i)) (pos l) = 0 := sub_eq_zero.mpr (ho.1.trans ho.2).symm
  have hoc : 0 < power o (distSq o (pos i)) (pos c) := sub_pos.mpr hfar
  have htl := h.empty t ht l (.inr hl)
  -- the circle of `t` reaches less far to the right than the empty one, which ends before `c`
  have hpencil := power_sub_power (p := pos l) (pos c) hti htj hoi hoj
  rw [htc, hol, sub_zero, zero_sub, orientation_swap (pos j) (pos i) (pos c)] at hpencil
  nlinarith [mul_nonneg htl hccw.le, mul_neg_of_pos_of_neg hoc hlneg]

/-- There are inner triangles, unless the inner vertices are in line. -/
theorem inner_ne_nil (hin : ∀ v < n, StrictlyWithin pos outer (pos v))
    (hline : ∃ i < n, ∃ j < n, ∃ k < n, orientation (pos i) (pos j) (pos k) ≠ 0) :
    inner n triangles ≠ [] := by
  obtain ⟨i, hi, j, hj, k, hk, hne, o, ⟨hij, hjk⟩, hempty⟩ := exists_empty_circle hline
  have hstrict : StrictlyWithin pos outer (mean (pos i) (pos j) (pos k)) := by
    intro a b hab
    have hi := hin i hi a b hab
    have hj := hin j hj a b hab
    have hk := hin k hk a b hab
    rw [orientation_mean]
    positivity
  obtain ⟨t, ht, hwithin⟩ := h.exists_within hstrict
  obtain ⟨hA, hB, hC⟩ := hwithin.turned (turned_self t)
  have hproper := h.proper t ht
  have hfar := hclear i hi j hj k hk hne o ⟨hij, hjk⟩ hempty
  -- the corners of `t` are not within the empty circle, and the three points not within that of `t`
  have hge : ∀ v ∈ t.corners,
      power t.centre t.radiusSq (pos v) ≤ power o (distSq o (pos i)) (pos v) := by
    intro v hv
    rw [hproper.power_eq_zero hv]
    rcases h.vertices t ht v hv with hv | hv
    · exact (sub_pos.mpr (hfar v hv)).le
    · exact sub_nonneg.mpr (hempty v hv)
  have hle : ∀ v < n, distSq o (pos v) = distSq o (pos i) →
      power o (distSq o (pos i)) (pos v) ≤ power t.centre t.radiusSq (pos v) := by
    intro v hv hsame
    rw [power_eq, hsame, sub_self]
    exact h.empty t ht v (.inr hv)
  obtain ⟨hta, htb, htc⟩ := (turned_self t).mem_corners
  have hsame := power_eq_of_mean hproper.ccw hne hA hB hC (hge _ hta) (hge _ htb) (hge _ htc)
    (hle i hi rfl) (hle j hj hij.symm) (hle k hk (hij.trans hjk).symm)
  refine List.ne_nil_of_mem (mem_inner.mpr ⟨ht, fun c hc ↦ ?_⟩)
  refine (h.vertices t ht c hc).resolve_left fun hcorner ↦ ?_
  have hpos : 0 < power o (distSq o (pos i)) (pos c) := sub_pos.mpr (hfar c hcorner)
  rw [hsame, hproper.power_eq_zero hc] at hpos
  exact hpos.false

/-- The inner triangles cover the hull of the inner vertices. -/
theorem exists_within_of_mem_hull (hin : ∀ v < n, StrictlyWithin pos outer (pos v))
    (hout : ∀ c ∈ outer.corners, n ≤ c)
    (hline : ∃ i < n, ∃ j < n, ∃ k < n, orientation (pos i) (pos j) (pos k) ≠ 0)
    {q : Point K} (hq : q ∈ hull pos n) : ∃ t ∈ inner n triangles, Within pos t q := by
  have hsub : ∀ t ∈ inner n triangles, t ∈ triangles := fun t ht ↦ (mem_inner.mp ht).1
  -- an edge of the rim has a triangle that touches the outer one on its right
  have hnodup : (edgesOf (inner n triangles)).Nodup :=
    h.edges_nodup.sublist (edgesOf_sublist List.filter_sublist)
  obtain ⟨u, -, t, ht, hcover⟩ := h.exists_coverOf_of_rim hsub hnodup
    (h.inner_ne_nil hclear hin hline) (p := q) fun i j hij hji ↦ by
      obtain ⟨s, hs, hsij⟩ := mem_edgesOf.mp hij
      obtain ⟨k, hk⟩ := mem_edges_iff.mp hsij
      obtain ⟨hi, hj, -⟩ := hk.mem_corners
      have hin' := (mem_inner.mp hs).2
      have houter : (i, j) ∉ outer.edges := by
        intro houter
        obtain ⟨l, hl⟩ := mem_edges_iff.mp houter
        exact (hout i hl.mem_corners.1).not_gt (hin' i hi)
      obtain ⟨t, ht, htji⟩ := mem_edgesOf.mp
        (h.exists_twin (mem_edgesOf.mpr ⟨s, hsub s hs, hsij⟩) houter)
      obtain ⟨c, hc⟩ := mem_edges_iff.mp htji
      have hcorner : c ∈ outer.corners := by
        refine (h.vertices t ht c hc.mem_corners.2.2).resolve_right fun hcn ↦ ?_
        refine hji (mem_edgesOf.mpr ⟨t, mem_inner.mpr ⟨ht, fun v hv ↦ ?_⟩, htji⟩)
        rcases hc.mem_corners_iff.mp hv with rfl | rfl | rfl
        · exact hin' _ hj
        · exact hin' _ hi
        · exact hcn
      exact orientation_nonneg_of_mem_hull hq fun v hv ↦
        h.orientation_nonneg_of_outer hclear (hsub s hs) ht (hin' i hi) (hin' j hj) hk hc hcorner hv
  exact ⟨t, ht, (h.proper t (hsub t ht)).within_of_coverOf hcover⟩

end IsDelaunay

section Points

variable {points : Array (Point K)}

/-- The points are not all in line. -/
def Spans (points : Array (Point K)) : Prop :=
  ∃ i < points.size, ∃ j < points.size, ∃ k < points.size,
    orientation (pointAt points i) (pointAt points j) (pointAt points k) ≠ 0

/-- The enclosing triangle is large enough for the points: its corners lie outside every circle
through three of them that has none of them within it. -/
def EnclosureClear (points : Array (Point K)) : Prop :=
  CornersClear (pointAt (enclosed points)) (outerOf points) points.size

/-- Whether points are all in line can be computed. -/
instance (points : Array (Point K)) : Decidable (Spans points) :=
  inferInstanceAs (Decidable (∃ i < points.size, ∃ j < points.size, ∃ k < points.size, _))

/-- Whether the enclosing triangle is large enough can be computed. -/
instance (points : Array (Point K)) : Decidable (EnclosureClear points) :=
  inferInstanceAs (Decidable (CornersClear _ _ _))

omit [IsStrictOrderedRing K] in
/-- Points that are not all in line are at least three. -/
theorem Spans.three_le (h : Spans points) : 3 ≤ points.size := by
  obtain ⟨i, hi, j, hj, k, hk, hne⟩ := h
  have hij : i ≠ j := by
    rintro rfl
    simp [orientation_eq] at hne
  have hjk : j ≠ k := by
    rintro rfl
    exact hne (orientation_right _ _)
  have hik : i ≠ k := by
    rintro rfl
    exact hne (orientation_left _ _)
  omega

omit [IsStrictOrderedRing K] in
/-- The enclosed points are not all in line when the points are not. -/
theorem Spans.enclosed (h : Spans points) : ∃ i < points.size, ∃ j < points.size,
    ∃ k < points.size, orientation (pointAt (enclosed points) i) (pointAt (enclosed points) j)
      (pointAt (enclosed points) k) ≠ 0 := by
  obtain ⟨i, hi, j, hj, k, hk, hne⟩ := h
  refine ⟨i, hi, j, hj, k, hk, ?_⟩
  rwa [pointAt_enclosed hi, pointAt_enclosed hj, pointAt_enclosed hk]

omit [IsStrictOrderedRing K] in
/-- A triangle among the points holds the same targets among the enclosed points. -/
theorem within_enclosed {t : Triangle K} (ht : ∀ i ∈ t.corners, i < points.size) {q : Point K} :
    Within (pointAt (enclosed points)) t q ↔ Within (pointAt points) t q := by
  obtain ⟨hta, htb, htc⟩ := (turned_self t).mem_corners
  rw [within_iff, within_iff, pointAt_enclosed (ht _ hta), pointAt_enclosed (ht _ htb),
    pointAt_enclosed (ht _ htc)]

variable (hspans : Spans points) (hspread : AllSpread points) (hclear : EnclosureClear points)
include hspans hspread hclear

/-- Points that are not all in line have triangles, if the circle of every triangle that occurs is
computed from its corners and the enclosing triangle is large enough. -/
theorem triangulate_ne_nil : triangulate points ≠ [] := by
  rw [triangulate_eq hspans.three_le]
  exact (isDelaunay_stateAfter hspread le_rfl).inner_ne_nil hclear
    (fun v hv ↦ strictlyWithin_outerOf hv) hspans.enclosed

/-- The triangles of points that are not all in line cover the hull of the points, if the circle of
every triangle that occurs is computed from its corners and the enclosing triangle is large
enough. -/
theorem exists_within_triangulate {q : Point K} (hq : q ∈ hull (pointAt points) points.size) :
    ∃ t ∈ triangulate points, Within (pointAt points) t q := by
  have hout : ∀ c ∈ (outerOf points).corners, points.size ≤ c := by
    intro c hc
    have hcorners : (outerOf points).corners =
        [points.size, points.size + 1, points.size + 2] := rfl
    rw [hcorners] at hc
    simp only [List.mem_cons, List.not_mem_nil, or_false] at hc
    omega
  rw [← hull_congr fun i hi ↦ pointAt_enclosed hi] at hq
  obtain ⟨t, ht, hwithin⟩ := (isDelaunay_stateAfter hspread le_rfl).exists_within_of_mem_hull hclear
    (fun v hv ↦ strictlyWithin_outerOf hv) hout hspans.enclosed hq
  refine ⟨t, ?_, (within_enclosed (mem_inner.mp ht).2).mp hwithin⟩
  rw [triangulate_eq hspans.three_le]
  exact ht

end Points

end PlasmaField.Delaunay
