import Mathlib
import PlasmaField.Proofs.Delaunay.Cover
import PlasmaField.Proofs.Delaunay.Rim

/-!
# Triangulations with empty circles

`IsDelaunay` says of a list of triangles that it fills an outer triangle without overlap and that no
vertex lies within a circle. That the triangles fill the outer one is said by their edges: every
quantity that changes its sign with the direction of an edge has the same sum over the triangles as
over the outer one. Applied to crossings of rays this counts the triangles around a point,
`sum_cover`; applied to a single edge it finds the triangle on the other side, `exists_twin`.
-/

namespace PlasmaField.Delaunay

open scoped Exact

variable {K : Type} [Field K] [LinearOrder K] [FloorRing K] {pos : ℕ → Point K}

/-- A triangle runs counterclockwise and its circle passes through its corners. -/
structure Proper (pos : ℕ → Point K) (t : Triangle K) : Prop where
  ccw : 0 < orientation (pos t.a) (pos t.b) (pos t.c)
  power_a : power t.centre t.radiusSq (pos t.a) = 0
  power_b : power t.centre t.radiusSq (pos t.b) = 0
  power_c : power t.centre t.radiusSq (pos t.c) = 0

/-- The number of times that a triangle holds `q`, by the ray in the direction `u`. -/
def coverOf (pos : ℕ → Point K) (u q : Point K) (t : Triangle K) : ℤ :=
  cover u q (pos t.a) (pos t.b) (pos t.c)

/-- The number of times that a triangle holds a point is a sum over its edges. -/
theorem coverOf_eq_boundary (pos : ℕ → Point K) (u q : Point K) :
    coverOf pos u q = boundary fun i j ↦ edgeCover u q (pos i) (pos j) :=
  rfl

/-- The circle passes through every corner. -/
theorem Proper.power_eq_zero {t : Triangle K} (ht : Proper pos t) {i : ℕ} (hi : i ∈ t.corners) :
    power t.centre t.radiusSq (pos i) = 0 := by
  rcases (turned_self t).mem_corners_iff.mp hi with rfl | rfl | rfl
  · exact ht.power_a
  · exact ht.power_b
  · exact ht.power_c

/-- A triangle that runs counterclockwise does so from every corner on, with its circle through the
corners that are met. -/
theorem Proper.turned {t : Triangle K} (ht : Proper pos t) {i j k : ℕ} (h : Turned t i j k) :
    0 < orientation (pos i) (pos j) (pos k) ∧ power t.centre t.radiusSq (pos i) = 0 ∧
      power t.centre t.radiusSq (pos j) = 0 ∧ power t.centre t.radiusSq (pos k) = 0 := by
  obtain ⟨hccw, ha, hb, hc⟩ := ht
  rcases h with ⟨rfl, rfl, rfl⟩ | ⟨rfl, rfl, rfl⟩ | ⟨rfl, rfl, rfl⟩
  · exact ⟨hccw, ha, hb, hc⟩
  · exact ⟨by rwa [orientation_rotate], hb, hc, ha⟩
  · exact ⟨by rwa [orientation_rotate, orientation_rotate], hc, ha, hb⟩

/-- The number of times that a triangle holds a point, from any corner on. -/
theorem Turned.coverOf_eq {t : Triangle K} {i j k : ℕ} (h : Turned t i j k) (u q : Point K) :
    coverOf pos u q t = cover u q (pos i) (pos j) (pos k) := by
  rw [coverOf_eq_boundary, h.sum_eq]
  rfl

/-- The point lies on no edge's right side. -/
def Within (pos : ℕ → Point K) (t : Triangle K) (p : Point K) : Prop :=
  ∀ i j, (i, j) ∈ t.edges → 0 ≤ orientation (pos i) (pos j) p

/-- The point lies strictly to the left of every edge. -/
def StrictlyWithin (pos : ℕ → Point K) (t : Triangle K) (p : Point K) : Prop :=
  ∀ i j, (i, j) ∈ t.edges → 0 < orientation (pos i) (pos j) p

/-- The three edges of a triangle that a point is to the left of. -/
theorem within_iff {t : Triangle K} {p : Point K} : Within pos t p ↔
    0 ≤ orientation (pos t.a) (pos t.b) p ∧ 0 ≤ orientation (pos t.b) (pos t.c) p ∧
      0 ≤ orientation (pos t.c) (pos t.a) p := by
  simp [Within, Triangle.edges, or_imp, forall_and]

/-- The three edges of a triangle that a point is strictly to the left of. -/
theorem strictlyWithin_iff {t : Triangle K} {p : Point K} : StrictlyWithin pos t p ↔
    0 < orientation (pos t.a) (pos t.b) p ∧ 0 < orientation (pos t.b) (pos t.c) p ∧
      0 < orientation (pos t.c) (pos t.a) p := by
  simp [StrictlyWithin, Triangle.edges, or_imp, forall_and]

/-- The orientations of a point that is held, from any corner on. -/
theorem Within.turned {t : Triangle K} {p : Point K} (h : Within pos t p) {i j k : ℕ}
    (hturned : Turned t i j k) : 0 ≤ orientation (pos j) (pos k) p ∧
      0 ≤ orientation (pos k) (pos i) p ∧ 0 ≤ orientation (pos i) (pos j) p :=
  ⟨h j k (mem_edges_iff.mpr ⟨i, hturned.rotate⟩),
    h k i (mem_edges_iff.mpr ⟨j, hturned.rotate.rotate⟩), h i j (mem_edges_iff.mpr ⟨k, hturned⟩)⟩

section Ordered

variable [IsStrictOrderedRing K] {t : Triangle K} {p : Point K}

/-- A triangle that is counted for a point holds it. -/
theorem Proper.within_of_coverOf (ht : Proper pos t) {u : Point K} (h : coverOf pos u p t = 1) :
    Within pos t p := by
  rcases cover_cases (u := u) (q := p) ht.ccw with h₀ | ⟨-, hA, hB, hC⟩
  · exact absurd (h₀.symm.trans h) zero_ne_one
  · exact within_iff.mpr ⟨hC, hA, hB⟩

/-- A triangle is counted for the points within it. -/
theorem StrictlyWithin.coverOf_eq_one (hp : StrictlyWithin pos t p)
    (ht : 0 < orientation (pos t.a) (pos t.b) (pos t.c)) {u : Point K} (hu : u.x ≠ 0 ∨ u.y ≠ 0) :
    coverOf pos u p t = 1 := by
  obtain ⟨hC, hA, hB⟩ := strictlyWithin_iff.mp hp
  exact cover_inside ht hu hA hB hC

/-- A point of a triangle that is not a corner lies within its circle. -/
theorem Proper.power_neg (ht : Proper pos t) (hp : Within pos t p)
    (hne : ∀ i ∈ t.corners, p ≠ pos i) : power t.centre t.radiusSq p < 0 := by
  obtain ⟨hA, hB, hC⟩ := hp.turned (turned_self t)
  obtain ⟨ha, hb, hc⟩ := (turned_self t).mem_corners
  exact Delaunay.power_neg ht.ccw ht.power_a ht.power_b ht.power_c hA hB hC (hne _ ha) (hne _ hb)
    (hne _ hc)

omit [IsStrictOrderedRing K] in
/-- A point of a triangle that is not a corner lies within it or on an edge between its ends. -/
theorem Proper.strictlyWithin_or_edge (ht : Proper pos t) (hp : Within pos t p)
    (hne : ∀ i ∈ t.corners, p ≠ pos i) : StrictlyWithin pos t p ∨
      ∃ i j k, Turned t i j k ∧ orientation (pos i) (pos j) p = 0 ∧
        0 < orientation (pos j) (pos k) p ∧ 0 < orientation (pos k) (pos i) p := by
  by_cases hedge : ∃ i j, (i, j) ∈ t.edges ∧ orientation (pos i) (pos j) p = 0
  · right
    obtain ⟨i, j, hij, hzero⟩ := hedge
    obtain ⟨k, hturned⟩ := mem_edges_iff.mp hij
    obtain ⟨hi, hj, -⟩ := hturned.mem_corners
    have hccw := (ht.turned hturned).1
    obtain ⟨hA, hB, -⟩ := hp.turned hturned
    refine ⟨i, j, k, hturned, hzero, hA.lt_of_ne fun h₀ ↦ ?_, hB.lt_of_ne fun h₀ ↦ ?_⟩
    · exact hne j hj (eq_of_orientation_eq_zero (by rwa [orientation_rotate]) hzero h₀.symm)
    · exact hne i hi (eq_of_orientation_eq_zero hccw h₀.symm hzero)
  · left
    intro i j hij
    exact (hp i j hij).lt_of_ne fun h₀ ↦ hedge ⟨i, j, hij, h₀.symm⟩

end Ordered

/-- The triangles fill the outer triangle, have vertices as their corners, and no vertex lies within
a circle. -/
structure IsDelaunay (pos : ℕ → Point K) (outer : Triangle K) (vertex : ℕ → Prop)
    (triangles : List (Triangle K)) : Prop where
  outer_ccw : 0 < orientation (pos outer.a) (pos outer.b) (pos outer.c)
  proper : ∀ t ∈ triangles, Proper pos t
  vertices : ∀ t ∈ triangles, ∀ i ∈ t.corners, vertex i
  fills : ∀ w : ℕ → ℕ → ℤ, Alternating w → (triangles.map (boundary w)).sum = boundary w outer
  empty : ∀ t ∈ triangles, ∀ i, vertex i → 0 ≤ power t.centre t.radiusSq (pos i)
  within : ∀ i, vertex i → Within pos outer (pos i)

namespace IsDelaunay

variable [IsStrictOrderedRing K] {outer : Triangle K} {vertex : ℕ → Prop}
  {triangles : List (Triangle K)} (h : IsDelaunay pos outer vertex triangles)
include h

/-- The triangles hold a point as often as the outer triangle does. -/
theorem sum_cover (u q : Point K) :
    (triangles.map (coverOf pos u q)).sum = coverOf pos u q outer := by
  rw [coverOf_eq_boundary]
  exact h.fills _ fun i j ↦ edgeCover_swap u q (pos i) (pos j)

/-- A triangle holds a point once or not at all. -/
theorem coverOf_cases {t : Triangle K} (ht : t ∈ triangles) (u q : Point K) :
    coverOf pos u q t = 0 ∨ coverOf pos u q t = 1 := by
  rcases cover_cases (u := u) (q := q) (h.proper t ht).ccw with h₀ | h₁
  · exact .inl h₀
  · exact .inr h₁.1

/-- No two triangles hold the same point. -/
theorem pairwise_cover : triangles.Pairwise fun s t ↦ ∀ u q,
    ¬(coverOf pos u q s = 1 ∧ coverOf pos u q t = 1) := by
  rw [List.pairwise_iff_forall_sublist]
  rintro s t hst u q ⟨hs, ht⟩
  have hle : ([s, t].map (coverOf pos u q)).sum ≤ (triangles.map (coverOf pos u q)).sum := by
    refine (hst.map _).sum_le_sum fun n hn ↦ ?_
    obtain ⟨r, hr, rfl⟩ := List.mem_map.mp hn
    rcases h.coverOf_cases hr u q with h₀ | h₁ <;> omega
  have houter : coverOf pos u q outer ≤ 1 := by
    rcases cover_cases (u := u) (q := q) h.outer_ccw with h₀ | h₁
    · exact h₀.le.trans zero_le_one
    · exact h₁.1.le
  rw [h.sum_cover] at hle
  simp [hs, ht] at hle
  omega

omit [IsStrictOrderedRing K] in
/-- The corners of a triangle differ, and so do the ends of its edges. -/
theorem ne_of_turned {t : Triangle K} (ht : t ∈ triangles) {i j k : ℕ} (hturned : Turned t i j k) :
    i ≠ j ∧ j ≠ k ∧ k ≠ i := by
  obtain ⟨hij, hjk, hki⟩ := ne_of_orientation_pos ((h.proper t ht).turned hturned).1
  exact ⟨fun e ↦ hij (e ▸ rfl), fun e ↦ hjk (e ▸ rfl), fun e ↦ hki (e ▸ rfl)⟩

omit [IsStrictOrderedRing K] in
/-- No edge is a loop. -/
theorem edges_ne {e : ℕ × ℕ} (he : e ∈ edgesOf triangles) : e.1 ≠ e.2 := by
  obtain ⟨t, ht, he⟩ := mem_edgesOf.mp he
  obtain ⟨k, hturned⟩ := mem_edges_iff.mp he
  exact (h.ne_of_turned ht hturned).1

/-- No directed edge occurs twice: halfway along it both triangles would hold the point. -/
theorem edges_nodup : (edgesOf triangles).Nodup := by
  refine List.nodup_flatMap.mpr ⟨fun t ht ↦ ?_, ?_⟩
  · obtain ⟨hab, hbc, hca⟩ := h.ne_of_turned ht (turned_self t)
    simp [Triangle.edges, hab, hbc, hca.symm]
  · refine h.pairwise_cover.imp_of_mem fun {s t} hs ht hst ↦ ?_
    rintro ⟨i, j⟩ hes het
    obtain ⟨k, hk⟩ := mem_edges_iff.mp hes
    obtain ⟨l, hl⟩ := mem_edges_iff.mp het
    refine hst (leftward (pos i) (pos j)) (midpoint (pos i) (pos j)) ⟨?_, ?_⟩
    · rw [hk.coverOf_eq]
      exact cover_midpoint ((h.proper s hs).turned hk).1
    · rw [hl.coverOf_eq]
      exact cover_midpoint ((h.proper t ht).turned hl).1

omit [IsStrictOrderedRing K] in
/-- Every edge that is not one of the outer triangle has a triangle on its other side. -/
theorem exists_twin {i j : ℕ} (he : (i, j) ∈ edgesOf triangles) (houter : (i, j) ∉ outer.edges) :
    (j, i) ∈ edgesOf triangles := by
  have hfills := h.fills _ (alternating_indicator (i, j))
  have hsum : boundary (indicator (i, j)) outer =
      (outer.edges.count (i, j) : ℤ) - outer.edges.count (j, i) := by
    have hlist := sum_boundary (indicator (i, j)) [outer]
    rw [sum_indicator] at hlist
    simpa [edgesOf] using hlist
  rw [sum_boundary, sum_indicator, hsum, List.count_eq_zero.mpr houter] at hfills
  have hpos : 0 < (edgesOf triangles).count (i, j) := List.count_pos_iff.mpr he
  refine List.count_pos_iff.mp ?_
  simp only [Prod.swap] at hfills
  omega

/-- A point within the outer triangle is held by a triangle. -/
theorem exists_within {p : Point K} (hp : StrictlyWithin pos outer p) :
    ∃ t ∈ triangles, Within pos t p := by
  have hu : ((⟨1, 0⟩ : Point K).x ≠ 0 ∨ (⟨1, 0⟩ : Point K).y ≠ 0) := .inl one_ne_zero
  have hsum := h.sum_cover ⟨1, 0⟩ p
  rw [hp.coverOf_eq_one h.outer_ccw hu] at hsum
  obtain ⟨n, hn, hne⟩ := List.exists_mem_ne_zero_of_sum_ne_zero (hsum ▸ one_ne_zero)
  obtain ⟨t, ht, rfl⟩ := List.mem_map.mp hn
  exact ⟨t, ht, (h.proper t ht).within_of_coverOf ((h.coverOf_cases ht _ _).resolve_left hne)⟩

/-- An edge with a triangle on each side has a point on its left when the triangle on the left has
the point within its circle and the other one does not. -/
theorem orientation_pos_of_twins {s t : Triangle K} (hs : s ∈ triangles) (ht : t ∈ triangles)
    {i j k l : ℕ} (hi : Turned s i j k) (hj : Turned t j i l) {p : Point K}
    (hps : power s.centre s.radiusSq p < 0) (hpt : 0 ≤ power t.centre t.radiusSq p) :
    0 < orientation (pos i) (pos j) p := by
  obtain ⟨-, hsi, hsj, -⟩ := (h.proper s hs).turned hi
  obtain ⟨hright, htj, hti, htl⟩ := (h.proper t ht).turned hj
  have hempty := h.empty s hs l (h.vertices t ht l hj.mem_corners.2.2)
  have hpencil := power_sub_power (p := p) (pos l) hsi hsj hti htj
  rw [htl, sub_zero, orientation_swap] at hpencil
  have hpos : 0 < power s.centre s.radiusSq (pos l) * orientation (pos i) (pos j) p := by
    rw [← hpencil]
    exact mul_pos_of_neg_of_neg (by linarith) (by linarith)
  exact (pos_iff_pos_of_mul_pos hpos).mp (hempty.lt_of_ne fun h₀ ↦ by simp [← h₀] at hpos)

section Part

variable {part : List (Triangle K)} (hsub : ∀ t ∈ part, t ∈ triangles)
  (hnodup : (edgesOf part).Nodup)
include hsub

omit [IsStrictOrderedRing K] in
/-- No edge of some of the triangles is a loop. -/
theorem part_edges_ne : ∀ e ∈ edgesOf part, e.1 ≠ e.2 := by
  intro e he
  obtain ⟨t, ht, het⟩ := mem_edgesOf.mp he
  exact h.edges_ne (mem_edgesOf.mpr ⟨t, hsub t ht, het⟩)

include hnodup

/-- The rim of some triangles is not in line with a point: the areas that its edges span with the
point add up to that of the triangles. -/
theorem exists_rim_orientation_ne (hne : part ≠ []) (p : Point K) :
    ∃ e ∈ rim part, orientation (pos e.1) (pos e.2) p ≠ 0 := by
  have halternating : Alternating fun i j ↦ orientation (pos i) (pos j) p := fun i j ↦
    orientation_swap (pos i) (pos j) p
  have hsum := rim_sum hnodup (h.part_edges_ne hsub) halternating
  rw [← sum_boundary fun i j ↦ orientation (pos i) (pos j) p] at hsum
  have hpos : 0 < (part.map (boundary fun i j ↦ orientation (pos i) (pos j) p)).sum := by
    refine List.sum_pos _ (fun x hx ↦ ?_) (by simpa using hne)
    obtain ⟨t, ht, rfl⟩ := List.mem_map.mp hx
    refine (h.proper t (hsub t ht)).ccw.trans_eq ?_
    rw [← orientation_add _ _ _ p]
    unfold boundary
    ring
  rw [← hsum] at hpos
  obtain ⟨x, hx, hzero⟩ := List.exists_mem_ne_zero_of_sum_ne_zero hpos.ne'
  obtain ⟨e, he, rfl⟩ := List.mem_map.mp hx
  exact ⟨e, he, hzero⟩

/-- If the point is not to the right of the rim of some triangles, then one of them holds it: the
ray toward an edge of the rim crosses the rim from right to left only. -/
theorem exists_coverOf_of_rim (hne : part ≠ []) {p : Point K}
    (hrim : ∀ i j, (i, j) ∈ edgesOf part → (j, i) ∉ edgesOf part →
      0 ≤ orientation (pos i) (pos j) p) :
    ∃ u : Point K, (u.x ≠ 0 ∨ u.y ≠ 0) ∧ ∃ t ∈ part, coverOf pos u p t = 1 := by
  have hloop := h.part_edges_ne hsub
  have hseen : ∀ e ∈ rim part, 0 ≤ orientation (pos e.1) (pos e.2) p := by
    intro e he
    obtain ⟨he, hswap⟩ := (mem_rim hnodup hloop).mp he
    exact hrim e.1 e.2 he hswap
  obtain ⟨e, he, hzero⟩ := h.exists_rim_orientation_ne hsub hnodup hne p
  have hpos : 0 < orientation (pos e.1) (pos e.2) p := (hseen e he).lt_of_ne hzero.symm
  refine ⟨toward p (pos e.1) (pos e.2), toward_ne_zero hpos, ?_⟩
  have hsum : (part.map (coverOf pos (toward p (pos e.1) (pos e.2)) p)).sum =
      ((rim part).map fun f ↦
        edgeCover (toward p (pos e.1) (pos e.2)) p (pos f.1) (pos f.2)).sum := by
    rw [coverOf_eq_boundary, sum_boundary,
      rim_sum hnodup hloop fun i j ↦ edgeCover_swap _ p (pos i) (pos j)]
  have hnonneg : ∀ n ∈ (rim part).map fun f ↦
      edgeCover (toward p (pos e.1) (pos e.2)) p (pos f.1) (pos f.2), 0 ≤ n := by
    intro n hn
    obtain ⟨f, hf, rfl⟩ := List.mem_map.mp hn
    exact crossing_nonneg _ _ (hseen f hf)
  have hle := List.single_le_sum hnonneg _ (List.mem_map_of_mem he)
  rw [← hsum, edgeCover_toward hpos] at hle
  obtain ⟨n, hn, hzero⟩ := List.exists_mem_ne_zero_of_sum_ne_zero (zero_lt_one.trans_le hle).ne'
  obtain ⟨t, ht, rfl⟩ := List.mem_map.mp hn
  exact ⟨t, ht, (h.coverOf_cases (hsub t ht) _ _).resolve_left hzero⟩

end Part

end IsDelaunay

end PlasmaField.Delaunay
