import Mathlib
import PlasmaField.Proofs.Delaunay.Enclosure
import PlasmaField.Proofs.Delaunay.Insertion

/-!
# The triangulation of a list of points

From the enclosing triangle on, every insertion keeps a triangulation with empty circles,
`isDelaunay_stateAfter`, as long as no triangle is so thin that its circle is not computed. The
triangles that are returned are therefore a Delaunay triangulation, `triangulate_isTriangulation`.
Points may repeat.
-/

namespace PlasmaField.Delaunay

open scoped Exact

variable {K : Type} [Field K] [LinearOrder K] [FloorRing K]

/-- The triangles after the first `k` points have been inserted. -/
def stateAfter (points : Array (Point K)) (k : ℕ) : List (Triangle K) :=
  (List.range k).foldl (insert (enclosed points)) [outerOf points]

/-- The next point is inserted into the triangles after the points before it. -/
theorem stateAfter_succ (points : Array (Point K)) (k : ℕ) :
    stateAfter points (k + 1) = insert (enclosed points) (stateAfter points k) k := by
  unfold stateAfter
  rw [List.range_succ, List.foldl_append]
  rfl

/-- The circle of every triangle that occurs is computed from its corners. -/
def AllSpread (points : Array (Point K)) : Prop :=
  ∀ k ≤ points.size, ∀ t ∈ stateAfter points k, Spread (pointAt (enclosed points) t.a)
    (pointAt (enclosed points) t.b) (pointAt (enclosed points) t.c)

/-- Whether corners are spread can be computed. -/
instance (p₀ p₁ p₂ : Point K) : Decidable (Spread p₀ p₁ p₂) :=
  inferInstanceAs (Decidable (_ < _))

/-- Whether all circles are computed from the corners can be computed. -/
instance (points : Array (Point K)) : Decidable (AllSpread points) :=
  inferInstanceAs (Decidable (∀ k ≤ points.size, ∀ t ∈ stateAfter points k, _))

/-- The points strictly between the corners of a triangle. -/
def openTriangle (pos : ℕ → Point K) (t : Triangle K) : Set (Point K) :=
  {q | ∃ u v w : K, 0 < u ∧ 0 < v ∧ 0 < w ∧ u + v + w = 1 ∧
    q.x = u * (pos t.a).x + v * (pos t.b).x + w * (pos t.c).x ∧
    q.y = u * (pos t.a).y + v * (pos t.b).y + w * (pos t.c).y}

/-- The triangles are a Delaunay triangulation among the points: none is degenerate, no point lies
strictly within the circumcircle of one, and no two have an inner point in common. -/
structure IsTriangulation (points : Array (Point K)) (triangles : List (Triangle K)) : Prop where
  corners : ∀ t ∈ triangles, ∀ i ∈ t.corners, i < points.size
  nondegenerate : ∀ t ∈ triangles,
    orientation (pointAt points t.a) (pointAt points t.b) (pointAt points t.c) ≠ 0
  circle : ∀ t ∈ triangles, t.radiusSq = distSq t.centre (pointAt points t.a) ∧
    Equidistant t.centre (pointAt points t.a) (pointAt points t.b) (pointAt points t.c)
  empty : ∀ t ∈ triangles, ∀ o,
    Equidistant o (pointAt points t.a) (pointAt points t.b) (pointAt points t.c) →
    ∀ i < points.size, distSq o (pointAt points t.a) ≤ distSq o (pointAt points i)
  disjoint : triangles.Pairwise fun s t ↦
    Disjoint (openTriangle (pointAt points) s) (openTriangle (pointAt points) t)

/-- The triangles that are returned are those after all insertions that have points as corners. -/
theorem triangulate_eq {points : Array (Point K)} (hn : 3 ≤ points.size) : triangulate points =
    (stateAfter points points.size).filter fun t ↦ t.corners.all (· < points.size) := by
  unfold triangulate
  rw [if_neg (by omega)]
  rfl

/-- A triangle that is returned occurs after all insertions and has points as its corners. -/
theorem mem_triangulate {points : Array (Point K)} {t : Triangle K} (ht : t ∈ triangulate points) :
    t ∈ stateAfter points points.size ∧ ∀ i ∈ t.corners, i < points.size := by
  rcases Nat.lt_or_ge points.size 3 with hn | hn
  · have hnil : triangulate points = [] := if_pos hn
    simp [hnil] at ht
  · rw [triangulate_eq hn, List.mem_filter] at ht
    exact ⟨ht.1, by simpa using ht.2⟩

/-- The triangles that are returned keep their order. -/
theorem triangulate_sublist (points : Array (Point K)) :
    (triangulate points).Sublist (stateAfter points points.size) := by
  rcases Nat.lt_or_ge points.size 3 with hn | hn
  · have hnil : triangulate points = [] := if_pos hn
    rw [hnil]
    exact List.nil_sublist _
  · rw [triangulate_eq hn]
    exact List.filter_sublist

/-- The points between corners among the points are the same for the enclosed points. -/
theorem openTriangle_enclosed {points : Array (Point K)} {t : Triangle K}
    (ht : ∀ i ∈ t.corners, i < points.size) :
    openTriangle (pointAt (enclosed points)) t = openTriangle (pointAt points) t := by
  obtain ⟨hta, htb, htc⟩ := (turned_self t).mem_corners
  unfold openTriangle
  rw [pointAt_enclosed (ht _ hta), pointAt_enclosed (ht _ htb), pointAt_enclosed (ht _ htc)]

section Ordered

variable [IsStrictOrderedRing K] {points : Array (Point K)}

/-- The enclosing triangle alone is a triangulation of its corners. -/
theorem isDelaunay_outer (hspread : AllSpread points) :
    IsDelaunay (pointAt (enclosed points)) (outerOf points) (fun v ↦ v ∈ (outerOf points).corners)
      [outerOf points] := by
  have hccw := outerOf_ccw points
  have hproper : Proper (pointAt (enclosed points)) (outerOf points) :=
    proper_triangleOf (hspread 0 (Nat.zero_le _) (outerOf points) (by simp [stateAfter])) hccw
  have hcorner : ∀ v ∈ (outerOf points).corners,
      v = (outerOf points).a ∨ v = (outerOf points).b ∨ v = (outerOf points).c :=
    fun v ↦ (turned_self _).mem_corners_iff.mp
  refine ⟨hccw, fun t ht ↦ ?_, fun t ht ↦ ?_, fun w hw ↦ by simp, fun t ht v hv ↦ ?_,
    fun v hv ↦ ?_⟩
  · rwa [List.mem_singleton.mp ht]
  · rw [List.mem_singleton.mp ht]
    exact fun v hv ↦ hv
  · rw [List.mem_singleton.mp ht]
    rcases hcorner v hv with rfl | rfl | rfl
    · exact hproper.power_a.ge
    · exact hproper.power_b.ge
    · exact hproper.power_c.ge
  · rw [within_iff]
    rcases hcorner v hv with rfl | rfl | rfl
    · rw [orientation_left, orientation_right, orientation_rotate]
      exact ⟨le_rfl, hccw.le, le_rfl⟩
    · rw [orientation_right, orientation_left, orientation_rotate, orientation_rotate]
      exact ⟨le_rfl, le_rfl, hccw.le⟩
    · rw [orientation_right, orientation_left]
      exact ⟨hccw.le, le_rfl, le_rfl⟩

/-- After any number of insertions the triangles are a triangulation of the enclosing triangle's
corners and the points that have been inserted. -/
theorem isDelaunay_stateAfter (hspread : AllSpread points) {k : ℕ} (hk : k ≤ points.size) :
    IsDelaunay (pointAt (enclosed points)) (outerOf points)
      (fun v ↦ v ∈ (outerOf points).corners ∨ v < k) (stateAfter points k) := by
  induction k with
  | zero =>
      simpa [stateAfter] using isDelaunay_outer hspread
  | succ k ih =>
      have hnext := (ih (by omega)).insert_point (k := k) (strictlyWithin_outerOf (by omega))
        (by rw [← stateAfter_succ]; exact hspread (k + 1) hk)
      rw [stateAfter_succ]
      have hvertex : (fun v ↦ (v ∈ (outerOf points).corners ∨ v < k) ∨ v = k) =
          fun v ↦ v ∈ (outerOf points).corners ∨ v < k + 1 := by
        funext v
        rw [or_assoc, ← Nat.lt_succ_iff_lt_or_eq]
      rwa [hvertex] at hnext

/-- An inner point of a triangle that runs counterclockwise lies strictly within it. -/
theorem strictlyWithin_of_mem_openTriangle {pos : ℕ → Point K} {t : Triangle K} {q : Point K}
    (ht : 0 < orientation (pos t.a) (pos t.b) (pos t.c)) (hq : q ∈ openTriangle pos t) :
    StrictlyWithin pos t q := by
  obtain ⟨u, v, w, hu, hv, hw, hsum, hx, hy⟩ := hq
  have hu' : u = 1 - v - w := by linear_combination hsum
  have hC := mul_pos hw ht
  have hA := mul_pos hu ht
  have hB := mul_pos hv ht
  simp only [orientation_eq] at hA hB hC
  rw [strictlyWithin_iff]
  simp only [orientation_eq]
  rw [hx, hy]
  subst hu'
  refine ⟨hC.trans_eq ?_, hA.trans_eq ?_, hB.trans_eq ?_⟩ <;> ring

/-- A circle with its centre as far from one corner of a triangle as from the others is the
triangle's circle. -/
theorem Proper.distSq_eq {pos : ℕ → Point K} {t : Triangle K} (ht : Proper pos t) {o : Point K}
    (ho : Equidistant o (pos t.a) (pos t.b) (pos t.c)) (p : Point K) :
    distSq o p - distSq o (pos t.a) = power t.centre t.radiusSq p := by
  obtain ⟨hab, hbc⟩ := ho
  have ha : power o (distSq o (pos t.a)) (pos t.a) = 0 := sub_self _
  have hb : power o (distSq o (pos t.a)) (pos t.b) = 0 := sub_eq_zero.mpr hab.symm
  have hc : power o (distSq o (pos t.a)) (pos t.c) = 0 := sub_eq_zero.mpr (hab.trans hbc).symm
  have hpencil := power_sub_power (p := p) (pos t.c) ha hb ht.power_a ht.power_b
  rw [hc, ht.power_c, sub_self, zero_mul] at hpencil
  exact sub_eq_zero.mp ((mul_eq_zero.mp hpencil).resolve_right ht.ccw.ne')

/-- A triangle that is returned runs counterclockwise and has its circle through its corners. -/
theorem proper_of_mem_triangulate (hspread : AllSpread points) {t : Triangle K}
    (ht : t ∈ triangulate points) : Proper (pointAt points) t := by
  obtain ⟨hstate, hcorners⟩ := mem_triangulate ht
  obtain ⟨hccw, ha, hb, hc⟩ := (isDelaunay_stateAfter hspread le_rfl).proper t hstate
  obtain ⟨hta, htb, htc⟩ := (turned_self t).mem_corners
  rw [pointAt_enclosed (hcorners _ hta)] at hccw ha
  rw [pointAt_enclosed (hcorners _ htb)] at hccw hb
  rw [pointAt_enclosed (hcorners _ htc)] at hccw hc
  exact ⟨hccw, ha, hb, hc⟩

/-- The triangles that are returned are a Delaunay triangulation among the points, if the circle of
every triangle that occurs is computed from its corners. -/
theorem triangulate_isTriangulation (points : Array (Point K)) (hspread : AllSpread points) :
    IsTriangulation points (triangulate points) := by
  have hdelaunay := isDelaunay_stateAfter hspread le_rfl
  have hproper : ∀ t ∈ triangulate points, Proper (pointAt points) t := fun t ht ↦
    proper_of_mem_triangulate hspread ht
  refine ⟨fun t ht ↦ (mem_triangulate ht).2, fun t ht ↦ (hproper t ht).ccw.ne', fun t ht ↦ ?_,
    fun t ht o ho i hi ↦ ?_, ?_⟩
  · obtain ⟨-, ha, hb, hc⟩ := hproper t ht
    rw [power_eq, sub_eq_zero] at ha hb hc
    exact ⟨ha.symm, ha.trans hb.symm, hb.trans hc.symm⟩
  · rw [← sub_nonneg, (hproper t ht).distSq_eq ho, ← pointAt_enclosed hi]
    exact hdelaunay.empty t (mem_triangulate ht).1 i (.inr hi)
  · refine (hdelaunay.pairwise_cover.sublist (triangulate_sublist points)).imp_of_mem
      fun {s t} hs ht hst ↦ Set.disjoint_left.mpr fun q hqs hqt ↦ ?_
    have hcover : ∀ {r}, r ∈ triangulate points → q ∈ openTriangle (pointAt points) r →
        coverOf (pointAt (enclosed points)) ⟨1, 0⟩ q r = 1 := by
      intro r hr hq
      obtain ⟨hstate, hcorners⟩ := mem_triangulate hr
      have hccw := (hdelaunay.proper r hstate).ccw
      rw [← openTriangle_enclosed hcorners] at hq
      exact (strictlyWithin_of_mem_openTriangle hccw hq).coverOf_eq_one hccw (.inl one_ne_zero)
    exact hst _ _ ⟨hcover hs hqs, hcover ht hqt⟩

/-- Five points, two of which are the same and one of which lies within a triangle of others. -/
theorem triangulate_five_isTriangulation :
    IsTriangulation #[(⟨0, 0⟩ : Point ℚ), ⟨4, 0⟩, ⟨1, 3⟩, ⟨2, 1⟩, ⟨4, 0⟩]
      (triangulate #[⟨0, 0⟩, ⟨4, 0⟩, ⟨1, 3⟩, ⟨2, 1⟩, ⟨4, 0⟩]) :=
  triangulate_isTriangulation _ (by decide +kernel)

end Ordered

end PlasmaField.Delaunay
