import Mathlib
import PlasmaField.Proofs.Delaunay.Partition
import PlasmaField.Proofs.Delaunay.Cavity

/-!
# Inserting a point

Inserting a point that lies within the outer triangle keeps a triangulation with empty circles,
`IsDelaunay.insert_point`. The argument has three parts. The cavity has all triangles whose circle
holds the point, `kept_unmarked`: the others would have the point on the left of their whole rim, so
one of them would hold it, besides the triangle that the cavity was found from. The point is
strictly to the left of the cavity's rim. And the circle of a triangle that joins the rim to the
point lies, on each side of the rim, within the circle of a triangle that was there before.
-/

namespace PlasmaField.Delaunay

open scoped Exact

variable {K : Type} [Field K] [LinearOrder K] [FloorRing K]

/-- A point is within a circle when its power is negative. -/
theorem inCircle_iff [IsStrictOrderedRing K] (p : Point K) (t : Triangle K) :
    inCircle p t = true ↔ power t.centre t.radiusSq p < 0 := by
  have hiff : power t.centre t.radiusSq p < 0 ↔
      (p.x - t.centre.x) * (p.x - t.centre.x) + (p.y - t.centre.y) * (p.y - t.centre.y)
        < t.radiusSq := by
    rw [power, sub_neg, pow_two, pow_two]
  rw [hiff]
  exact decide_eq_true_iff

/-- A triangle that runs counterclockwise holds the points on no edge's right side. -/
theorem holds_iff [IsStrictOrderedRing K] {points : Array (Point K)} {t : Triangle K}
    (ht : 0 < orientation (pointAt points t.a) (pointAt points t.b) (pointAt points t.c))
    (p : Point K) : holds points t p = true ↔ Within (pointAt points) t p := by
  rw [← orientation_add _ _ _ p] at ht
  rw [within_iff]
  unfold holds
  simp only [Exact.literal_zero, Bool.not_eq_true', Bool.and_eq_false_iff, Bool.or_eq_false_iff,
    decide_eq_false_iff_not, not_lt]
  constructor
  · rintro (⟨⟨hC, hA⟩, hB⟩ | ⟨⟨hC, hA⟩, hB⟩)
    · exact ⟨hC, hA, hB⟩
    · exact absurd ht (by linarith)
  · rintro ⟨hC, hA, hB⟩
    exact .inl ⟨⟨hC, hA⟩, hB⟩

namespace IsDelaunay

variable [IsStrictOrderedRing K] {points : Array (Point K)} {outer : Triangle K}
  {vertex : ℕ → Prop} {triangles hole kept : List (Triangle K)} {p : Point K}
  (h : IsDelaunay (pointAt points) outer vertex triangles)
  (hp : StrictlyWithin (pointAt points) outer p)
include h hp

/-- An edge has the point strictly on its left when the triangle there has the point in its circle
and the triangle on the other side, if there is one, does not. -/
theorem orientation_pos_of_marked {s : Triangle K} (hs : s ∈ triangles)
    (hmarked : inCircle p s = true) {i j : ℕ} (hij : (i, j) ∈ s.edges)
    (hother : ∀ t ∈ triangles, (j, i) ∈ t.edges → inCircle p t = false) :
    0 < orientation (pointAt points i) (pointAt points j) p := by
  by_cases houter : (i, j) ∈ outer.edges
  · exact hp i j houter
  · obtain ⟨t, ht, hji⟩ := mem_edgesOf.mp (h.exists_twin (mem_edgesOf.mpr ⟨s, hs, hij⟩) houter)
    obtain ⟨k, hk⟩ := mem_edges_iff.mp hij
    obtain ⟨l, hl⟩ := mem_edges_iff.mp hji
    refine h.orientation_pos_of_twins hs ht hk hl ((inCircle_iff p s).mp hmarked) ?_
    by_contra hneg
    have hunmarked := hother t ht hji
    simp [(inCircle_iff p t).mpr (not_le.mp hneg)] at hunmarked

variable (hcavity : IsCavity points p triangles hole kept)
include hcavity

omit hp in
/-- No triangle of the cavity holds a point that a triangle outside holds. -/
theorem not_coverOf_hole_and_kept {s t : Triangle K} (hs : s ∈ hole) (ht : t ∈ kept)
    (u q : Point K) :
    ¬(coverOf (pointAt points) u q s = 1 ∧ coverOf (pointAt points) u q t = 1) := by
  have happend := (hcavity.perm.pairwise_iff
    (fun {s t} hst u q hts ↦ hst u q hts.symm)).mpr h.pairwise_cover
  exact (List.pairwise_append.mp happend).2.2 s hs t ht u q

/-- If triangles outside the cavity have the point in their circle and no edge in common with the
cavity, then one of them holds the point. -/
theorem exists_coverOf_of_marked (hne : ∃ t ∈ kept, inCircle p t = true)
    (hclosed : ∀ t ∈ hole, ∀ u ∈ kept, inCircle p u = true → adjacent t u = false) :
    ∃ u : Point K, (u.x ≠ 0 ∨ u.y ≠ 0) ∧
      ∃ t ∈ kept, coverOf (pointAt points) u p t = 1 := by
  set part := kept.filter (inCircle p) with hpart
  have hsub : ∀ t ∈ part, t ∈ triangles := fun t ht ↦
    hcavity.mem_of_kept (List.mem_filter.mp ht).1
  have hnodup : (edgesOf part).Nodup := by
    have hsublist : part.Sublist (hole ++ kept) :=
      List.filter_sublist.trans (List.sublist_append_right _ _)
    exact ((edgesOf_perm hcavity.perm).nodup_iff.mpr h.edges_nodup).sublist
      (edgesOf_sublist hsublist)
  obtain ⟨t₀, ht₀, hmarked₀⟩ := hne
  obtain ⟨u, hu, t, ht, hcover⟩ := h.exists_coverOf_of_rim hsub hnodup
    (List.ne_nil_of_mem (List.mem_filter.mpr ⟨ht₀, hmarked₀⟩)) fun i j hij hji ↦ by
      obtain ⟨s, hs, hsij⟩ := mem_edgesOf.mp hij
      obtain ⟨hsKept, hsMarked⟩ := List.mem_filter.mp hs
      refine (h.orientation_pos_of_marked hp (hsub s hs) hsMarked hsij fun t ht htji ↦ ?_).le
      by_contra hmarked
      rcases hcavity.hole_or_kept ht with htHole | htKept
      · have hadjacent := hclosed t htHole s hsKept hsMarked
        simp [adjacent_of_mem htji hsij] at hadjacent
      · exact hji (mem_edgesOf.mpr ⟨t, List.mem_filter.mpr ⟨htKept, by simpa using hmarked⟩, htji⟩)
  exact ⟨u, hu, t, (List.mem_filter.mp ht).1, hcover⟩

/-- A cavity around a triangle that holds the point has a triangle that is counted for it, by a ray
in any direction. -/
theorem exists_coverOf_hole {start : Triangle K} (hstart : start ∈ hole)
    (hwithin : Within (pointAt points) start p)
    (hne : ∀ t ∈ triangles, ∀ i ∈ t.corners, p ≠ pointAt points i)
    (hclosed : ∀ t ∈ hole, ∀ u ∈ kept, inCircle p u = true → adjacent t u = false)
    {u : Point K} (hu : u.x ≠ 0 ∨ u.y ≠ 0) : ∃ t ∈ hole, coverOf (pointAt points) u p t = 1 := by
  have hstartMem : start ∈ triangles := hcavity.mem_of_hole hstart
  have hproper := h.proper start hstartMem
  rcases hproper.strictlyWithin_or_edge hwithin (hne start hstartMem) with
    hstrict | ⟨i, j, k, hk, hedge, hA, hB⟩
  · exact ⟨start, hstart, hstrict.coverOf_eq_one hproper.ccw hu⟩
  · -- on an edge the ray decides which of the two triangles there is counted
    have hij : (i, j) ∈ start.edges := mem_edges_iff.mpr ⟨k, hk⟩
    obtain ⟨t, ht, hji⟩ := mem_edgesOf.mp (h.exists_twin (mem_edgesOf.mpr ⟨start, hstartMem, hij⟩)
      fun houter ↦ (hp i j houter).ne' hedge)
    obtain ⟨l, hl⟩ := mem_edges_iff.mp hji
    have hproper' := h.proper t ht
    rcases cover_of_edge_pair (hproper.turned hk).1 (hproper'.turned hl).1 hu hA hB hedge with
      hone | hone
    · exact ⟨start, hstart, (hk.coverOf_eq u p).trans hone⟩
    · have hone : coverOf (pointAt points) u p t = 1 := (hl.coverOf_eq u p).trans hone
      rcases hcavity.hole_or_kept ht with htHole | htKept
      · exact ⟨t, htHole, hone⟩
      · -- the triangle across the edge holds the point, so the cavity has it
        have hneg := hproper'.power_neg (hproper'.within_of_coverOf hone) (hne t ht)
        have hadjacent := hclosed start hstart t htKept ((inCircle_iff p t).mpr hneg)
        simp [adjacent_of_mem hij hji] at hadjacent

/-- The triangles that are kept do not have the point in their circle. -/
theorem kept_unmarked : ∀ t ∈ kept, inCircle p t = false := by
  by_contra hnot
  obtain ⟨t₀, ht₀, hmarked₀⟩ : ∃ t ∈ kept, inCircle p t = true := by
    simpa using hnot
  -- the point is not a vertex, because no vertex lies within a circle
  have hne : ∀ t ∈ triangles, ∀ i ∈ t.corners, p ≠ pointAt points i := by
    rintro t ht i hi rfl
    have hempty := h.empty t₀ (hcavity.mem_of_kept ht₀) i (h.vertices t ht i hi)
    exact hempty.not_gt ((inCircle_iff _ _).mp hmarked₀)
  obtain ⟨start, hstart, hholds, hclosed⟩ :=
    hcavity.closed.resolve_left fun hall ↦ by simp [hall t₀ ht₀] at hmarked₀
  have hwithin := (holds_iff
    (h.proper start (hcavity.mem_of_hole hstart)).ccw p).mp hholds
  obtain ⟨u, hu, t, ht, hcover⟩ := h.exists_coverOf_of_marked hp hcavity ⟨t₀, ht₀, hmarked₀⟩ hclosed
  obtain ⟨s, hs, hcover'⟩ := h.exists_coverOf_hole hp hcavity hstart hwithin hne hclosed hu
  exact h.not_coverOf_hole_and_kept hcavity hs ht u p ⟨hcover', hcover⟩

omit hp in
/-- The edges of the cavity are different, and no loops. -/
theorem edges_hole : (edgesOf hole).Nodup ∧ ∀ e ∈ edgesOf hole, e.1 ≠ e.2 := by
  refine ⟨((edgesOf_perm hcavity.perm).nodup_iff.mpr h.edges_nodup).sublist
    (edgesOf_sublist (List.sublist_append_left _ _)),
    h.part_edges_ne fun t ht ↦ hcavity.mem_of_hole ht⟩

/-- An edge of the cavity's rim leads around the point. Its triangle in the cavity has the point in
its circle, and beyond it there is either the outside of the outer triangle or a triangle that does
not have the point in its circle. -/
theorem rim_cases {i j : ℕ} (hij : (i, j) ∈ rim hole) :
    0 < orientation (pointAt points i) (pointAt points j) p ∧
      (∃ s ∈ triangles, power s.centre s.radiusSq p < 0 ∧ ∃ k, Turned s i j k) ∧
      ((i, j) ∈ outer.edges ∨
        ∃ t ∈ triangles, 0 ≤ power t.centre t.radiusSq p ∧ ∃ l, Turned t j i l) := by
  obtain ⟨hnodup, hloop⟩ := h.edges_hole hcavity
  obtain ⟨hij, hji⟩ := (mem_rim hnodup hloop).mp hij
  obtain ⟨s, hs, hsij⟩ := mem_edgesOf.mp hij
  have hmarked := hcavity.marked s hs
  have hother : ∀ t ∈ triangles, (j, i) ∈ t.edges → inCircle p t = false := by
    intro t ht htji
    refine h.kept_unmarked hp hcavity t ((hcavity.hole_or_kept ht).resolve_left ?_)
    exact fun htHole ↦ hji (mem_edgesOf.mpr ⟨t, htHole, htji⟩)
  refine ⟨h.orientation_pos_of_marked hp (hcavity.mem_of_hole hs) hmarked hsij hother,
    ⟨s, hcavity.mem_of_hole hs, (inCircle_iff p s).mp hmarked, mem_edges_iff.mp hsij⟩, ?_⟩
  by_cases houter : (i, j) ∈ outer.edges
  · exact .inl houter
  · obtain ⟨t, ht, htji⟩ := mem_edgesOf.mp
      (h.exists_twin (mem_edgesOf.mpr ⟨s, hcavity.mem_of_hole hs, hsij⟩) houter)
    refine .inr ⟨t, ht, not_lt.mp fun hneg ↦ ?_, mem_edges_iff.mp htji⟩
    have hunmarked := hother t ht htji
    simp [(inCircle_iff p t).mpr hneg] at hunmarked

/-- The circle of a triangle that joins an edge of the rim to the point has no vertex within it. To
the left of the edge it lies within the circle of the triangle that was there, and to the right
within that of the triangle beyond. -/
theorem power_nonneg_of_rim {i j : ℕ} (hij : (i, j) ∈ rim hole) {o : Point K} {r : K}
    (hi : power o r (pointAt points i) = 0) (hj : power o r (pointAt points j) = 0)
    (hpower : power o r p = 0) {v : ℕ} (hv : vertex v) : 0 ≤ power o r (pointAt points v) := by
  obtain ⟨hpos, ⟨s, hs, hsp, k, hk⟩, hbeyond⟩ := h.rim_cases hp hcavity hij
  rcases le_or_gt 0 (orientation (pointAt points i) (pointAt points j) (pointAt points v)) with
    hleft | hright
  · obtain ⟨-, hsi, hsj, -⟩ := (h.proper s hs).turned hk
    refine (h.empty s hs v hv).trans (power_le_power hi hj hsi hsj hpower hpos ?_)
    exact mul_nonneg (neg_nonneg.mpr hsp.le) hleft
  · rcases hbeyond with houter | ⟨t, ht, htp, l, hl⟩
    · exact absurd (h.within v hv i j houter) hright.not_ge
    · obtain ⟨-, htj, hti, -⟩ := (h.proper t ht).turned hl
      refine (h.empty t ht v hv).trans (power_le_power hi hj hti htj hpower hpos ?_)
      exact mul_nonneg_of_nonpos_of_nonpos (neg_nonpos.mpr htp) hright.le

end IsDelaunay

/-- A triangle that is made from spread corners has its circle through them. -/
theorem proper_triangleOf [IsStrictOrderedRing K] {points : Array (Point K)} {i j k : ℕ}
    (hspread : Spread (pointAt points i) (pointAt points j) (pointAt points k))
    (hccw : 0 < orientation (pointAt points i) (pointAt points j) (pointAt points k)) :
    Proper (pointAt points) (triangleOf points i j k) := by
  obtain ⟨hij, hjk⟩ := equidistant_centreOf hspread
  have hradius : (triangleOf points i j k).radiusSq =
      distSq (triangleOf points i j k).centre (pointAt points i) := by
    unfold distSq
    rw [pow_two, pow_two]
    rfl
  refine ⟨hccw, ?_, ?_, ?_⟩
  all_goals rw [power_eq, hradius, sub_eq_zero]
  · rfl
  · exact hij.symm
  · exact (hij.trans hjk).symm

/-- Inserting a point that lies within the outer triangle keeps a triangulation with empty circles,
and makes the point a vertex. -/
theorem IsDelaunay.insert_point [IsStrictOrderedRing K] {points : Array (Point K)}
    {outer : Triangle K} {vertex : ℕ → Prop} {triangles : List (Triangle K)} {k : ℕ}
    (h : IsDelaunay (pointAt points) outer vertex triangles)
    (hp : StrictlyWithin (pointAt points) outer (pointAt points k))
    (hspread : ∀ t ∈ insert points triangles k,
      Spread (pointAt points t.a) (pointAt points t.b) (pointAt points t.c)) :
    IsDelaunay (pointAt points) outer (fun v ↦ vertex v ∨ v = k) (insert points triangles k) := by
  obtain ⟨hole, kept, hcavity, hinsert⟩ := exists_isCavity points triangles k
  have hunmarked := h.kept_unmarked hp hcavity
  rw [hinsert] at hspread ⊢
  have hfan : ∀ e ∈ rim hole, Proper (pointAt points) (triangleOf points e.1 e.2 k) := by
    intro e he
    have hedge := hspread (triangleOf points e.1 e.2 k)
      (List.mem_append_right _ (List.mem_map.mpr ⟨e, he, rfl⟩))
    exact proper_triangleOf hedge (h.rim_cases hp hcavity he).1
  refine ⟨h.outer_ccw, fun t ht ↦ ?_, fun t ht v hv ↦ ?_, fun w hw ↦ ?_, fun t ht v hv ↦ ?_,
    fun v hv ↦ ?_⟩
  · rcases List.mem_append.mp ht with ht | ht
    · exact h.proper t (hcavity.mem_of_kept ht)
    · obtain ⟨e, he, rfl⟩ := List.mem_map.mp ht
      exact hfan e he
  · rcases List.mem_append.mp ht with ht | ht
    · exact .inl (h.vertices t (hcavity.mem_of_kept ht) v hv)
    · obtain ⟨e, he, rfl⟩ := List.mem_map.mp ht
      obtain ⟨-, ⟨s, hs, -, l, hl⟩, -⟩ := h.rim_cases hp hcavity he
      obtain ⟨hi, hj, -⟩ := hl.mem_corners
      have hv : v = e.1 ∨ v = e.2 ∨ v = k := by
        simpa [Triangle.corners, triangleOf] using hv
      rcases hv with rfl | rfl | rfl
      · exact .inl (h.vertices s hs _ hi)
      · exact .inl (h.vertices s hs _ hj)
      · exact .inr rfl
  · -- the fan over the rim has the boundary that the cavity had
    obtain ⟨hnodup, hloop⟩ := h.edges_hole hcavity
    rw [List.map_append, List.sum_append,
      sum_boundary_fan hnodup hloop hw k fun e ↦ ⟨rfl, rfl, rfl⟩, add_comm, ← List.sum_append,
      ← List.map_append, (hcavity.perm.map _).sum_eq, h.fills w hw]
  · rcases List.mem_append.mp ht with ht | ht
    · rcases hv with hv | hv
      · exact h.empty t (hcavity.mem_of_kept ht) v hv
      · rw [hv]
        by_contra hneg
        have hfalse := hunmarked t ht
        simp [(inCircle_iff _ t).mpr (not_le.mp hneg)] at hfalse
    · obtain ⟨e, he, rfl⟩ := List.mem_map.mp ht
      obtain ⟨-, ha, hb, hc⟩ := hfan e he
      rcases hv with hv | rfl
      · exact h.power_nonneg_of_rim hp hcavity he ha hb hc hv
      · exact hc.ge
  · rcases hv with hv | rfl
    · exact h.within v hv
    · exact fun i j hij ↦ (hp i j hij).le

end PlasmaField.Delaunay
