import Mathlib
import PlasmaField.Proofs.Delaunay.Images
import PlasmaField.Proofs.Delaunay.Triangulation

/-!
# Changes of the unit and the origin

A change of the length unit and of the origin multiplies every circumcircle test and every
containment test by a positive number, and so keeps their answers. It does not keep the two tests
that compare with absolute numbers: the one for corners that are nearly in line, whose bound is
relative to their distances from the origin and to one, and the one for the least extent. Where
these answer alike for both sets of points the triangulations have the same corners, in the same
order, `triangulate_similar`. A small right triangle, and one far from the origin, lose their
triangle, `triangulate_rightTriangle`.
-/

namespace PlasmaField

open scoped Exact

/-- A change of the length unit and of the origin. -/
structure Similarity (K : Type) [Field K] [LinearOrder K] where
  scale : K
  shift : Point K
  scale_pos : 0 < scale

namespace Similarity

variable {K : Type} [Field K] [LinearOrder K] [FloorRing K] (σ : Similarity K)

/-- The image of a point. -/
def point (p : Point K) : Point K :=
  ⟨σ.scale * p.x + σ.shift.x, σ.scale * p.y + σ.shift.y⟩

/-- The triangle with the same corners whose circumcircle is the image of the circle. -/
def triangle (t : Triangle K) : Triangle K :=
  ⟨t.a, t.b, t.c, σ.point t.centre, σ.scale ^ 2 * t.radiusSq⟩

end Similarity

namespace Delaunay

variable {K : Type} [Field K] [LinearOrder K] [FloorRing K] (σ : Similarity K)

/-! ## Tests that are kept -/

/-- The image of a point of an array. -/
theorem pointAt_similar {points : Array (Point K)} {i : ℕ} (hi : i < points.size) :
    pointAt (points.map σ.point) i = σ.point (pointAt points i) := by
  simp [pointAt, Array.getD_eq_getD_getElem?, hi]

/-- Areas are multiplied by the square of the scale. -/
theorem orientation_similar (a b p : Point K) :
    orientation (σ.point a) (σ.point b) (σ.point p) = σ.scale ^ 2 * orientation a b p := by
  simp only [orientation_eq, Similarity.point]
  ring

section Ordered

variable [IsStrictOrderedRing K]

/-- The image of a circle holds the images of the points that the circle holds. -/
theorem inCircle_similar (p : Point K) (t : Triangle K) :
    inCircle (σ.point p) (σ.triangle t) = inCircle p t := by
  have hpower : power (σ.triangle t).centre (σ.triangle t).radiusSq (σ.point p) =
      σ.scale ^ 2 * power t.centre t.radiusSq p := by
    simp only [power, Similarity.triangle, Similarity.point]
    ring
  rw [Bool.eq_iff_iff, inCircle_iff, inCircle_iff, hpower]
  exact smul_neg_iff_of_pos_left (pow_pos σ.scale_pos 2)

/-- The image of a triangle holds the images of the points that the triangle holds. -/
theorem holds_similar {points : Array (Point K)} {t : Triangle K}
    (ht : ∀ i ∈ t.corners, i < points.size) (p : Point K) :
    holds (points.map σ.point) (σ.triangle t) (σ.point p) = holds points t p := by
  obtain ⟨hta, htb, htc⟩ := (turned_self t).mem_corners
  have hneg : ∀ d : K, σ.scale ^ 2 * d < 0 ↔ d < 0 := fun d ↦
    smul_neg_iff_of_pos_left (pow_pos σ.scale_pos 2)
  have hpos : ∀ d : K, 0 < σ.scale ^ 2 * d ↔ 0 < d := fun d ↦
    mul_pos_iff_of_pos_left (pow_pos σ.scale_pos 2)
  unfold holds Similarity.triangle
  simp only [pointAt_similar σ (ht _ hta), pointAt_similar σ (ht _ htb),
    pointAt_similar σ (ht _ htc), orientation_similar, Exact.literal_zero, hneg, hpos]

/-- The image of the computed centre, if the test for corners that are nearly in line answers
alike. -/
theorem centreOf_similar {p₀ p₁ p₂ : Point K}
    (h : Spread p₀ p₁ p₂ ↔ Spread (σ.point p₀) (σ.point p₁) (σ.point p₂)) :
    centreOf (σ.point p₀) (σ.point p₁) (σ.point p₂) = σ.point (centreOf p₀ p₁ p₂) := by
  by_cases hspread : Spread p₀ p₁ p₂
  · have hne := hspread.orientation_ne
    have hscale := σ.scale_pos.ne'
    rw [centreOf_of_spread (h.mp hspread), centreOf_of_spread hspread, orientation_similar]
    unfold Similarity.point
    congr 1
    · field_simp
      rw [orientation_eq]
      ring
    · field_simp
      rw [orientation_eq]
      ring
  · rw [centreOf_of_not_spread (mt h.mpr hspread), centreOf_of_not_spread hspread]
    unfold Similarity.point
    congr 1
    · ring
    · ring

/-- The image of a triangle of points. -/
theorem triangleOf_similar {points : Array (Point K)} {i j k : ℕ} (hi : i < points.size)
    (hj : j < points.size) (hk : k < points.size)
    (h : Spread (pointAt points i) (pointAt points j) (pointAt points k) ↔
      Spread (σ.point (pointAt points i)) (σ.point (pointAt points j))
        (σ.point (pointAt points k))) :
    triangleOf (points.map σ.point) i j k = σ.triangle (triangleOf points i j k) := by
  unfold triangleOf
  simp only [pointAt_similar σ hi, pointAt_similar σ hj, pointAt_similar σ hk,
    centreOf_similar σ h]
  unfold Similarity.triangle Similarity.point
  congr 1
  ring

/-- Insertion into images of triangles meets the same edges and answers. -/
theorem keepsTests_similar {points : Array (Point K)} {triangles : List (Triangle K)}
    (htriangles : ∀ t ∈ triangles, ∀ i ∈ t.corners, i < points.size) {k : ℕ}
    (hk : k < points.size) :
    KeepsTests points (points.map σ.point) σ.triangle triangles k where
  edges_eq _ := rfl
  inCircle_eq t _ := by rw [pointAt_similar σ hk, inCircle_similar]
  holds_eq t ht := by rw [pointAt_similar σ hk, holds_similar σ (htriangles t ht)]

/-! ## The enclosing triangle -/

/-- The bounding box of images. -/
theorem boundingBox_similar {points : List (Point K)} (h : points ≠ []) :
    boundingBox (points.map σ.point) =
      ⟨σ.scale * (boundingBox points).x₀ + σ.shift.x, σ.scale * (boundingBox points).x₁ + σ.shift.x,
        σ.scale * (boundingBox points).y₀ + σ.shift.y,
        σ.scale * (boundingBox points).y₁ + σ.shift.y⟩ := by
  have hbox := isBoundingBox_boundingBox h
  have hmono : ∀ {u v : K} (w : K), u ≤ v → σ.scale * u + w ≤ σ.scale * v + w := by
    intro u v w huv
    have hscale := σ.scale_pos
    gcongr
  have hmem : ∀ {p}, p ∈ points → σ.point p ∈ points.map σ.point := List.mem_map_of_mem
  refine (isBoundingBox_boundingBox (List.map_eq_nil_iff.not.mpr h)).eq ⟨?_, ?_, ?_, ?_, ?_, ?_⟩
  · obtain ⟨p, hp, hx⟩ := hbox.left
    exact ⟨σ.point p, hmem hp, by rw [← hx]; rfl⟩
  · obtain ⟨p, hp, hx⟩ := hbox.right
    exact ⟨σ.point p, hmem hp, by rw [← hx]; rfl⟩
  · obtain ⟨p, hp, hy⟩ := hbox.bottom
    exact ⟨σ.point p, hmem hp, by rw [← hy]; rfl⟩
  · obtain ⟨p, hp, hy⟩ := hbox.top
    exact ⟨σ.point p, hmem hp, by rw [← hy]; rfl⟩
  · intro q hq
    obtain ⟨p, hp, rfl⟩ := List.mem_map.mp hq
    obtain ⟨hleft, hright⟩ := hbox.mem_x p hp
    exact ⟨hmono _ hleft, hmono _ hright⟩
  · intro q hq
    obtain ⟨p, hp, rfl⟩ := List.mem_map.mp hq
    obtain ⟨hbottom, htop⟩ := hbox.mem_y p hp
    exact ⟨hmono _ hbottom, hmono _ htop⟩

/-- The larger side of the bounding box of images, before it is compared with the least extent. -/
theorem extentOf_similar {points : Array (Point K)} (h : points ≠ #[]) :
    extentOf (points.map σ.point) = max (σ.scale *
      max ((boundingBox points.toList).x₁ - (boundingBox points.toList).x₀)
        ((boundingBox points.toList).y₁ - (boundingBox points.toList).y₀)) Scalar.tiny := by
  have hne : points.toList ≠ [] := Array.toList_eq_nil_iff.not.mpr h
  unfold extentOf
  rw [Array.toList_map, boundingBox_similar σ hne, mul_max_of_nonneg _ _ σ.scale_pos.le]
  ring_nf

/-- No points have the least extent. -/
theorem extentOf_empty : extentOf (#[] : Array (Point K)) = Scalar.tiny := by
  have hinfinity : (Scalar.infinity : K) = 0 := by
    unfold Scalar.infinity
    rw [Exact.literal_one, Exact.literal_zero, div_zero]
  have hbox : boundingBox ([] : List (Point K)) = ⟨0, 0, 0, 0⟩ := by
    show (⟨Scalar.infinity, -Scalar.infinity, Scalar.infinity, -Scalar.infinity⟩ : Box K) = _
    rw [hinfinity, neg_zero]
  unfold extentOf
  rw [hbox]
  simp [Exact.tiny_pos.le]

/-- The extent is multiplied by the scale when it is above the least extent for both. -/
theorem extentOf_similar_of_lt {points : Array (Point K)} (h : Scalar.tiny < extentOf points)
    (h' : Scalar.tiny < extentOf (points.map σ.point)) :
    extentOf (points.map σ.point) = σ.scale * extentOf points := by
  have hne : points ≠ #[] := by
    rintro rfl
    exact h.ne' extentOf_empty
  rw [extentOf_similar σ hne] at h' ⊢
  unfold extentOf at h ⊢
  rw [lt_max_iff, or_iff_left (lt_irrefl _)] at h h'
  rw [max_eq_left h'.le, max_eq_left h.le]

/-- The image of the enclosing triangle, if the extent is multiplied by the scale. -/
theorem enclosed_similar {points : Array (Point K)} (h : points ≠ #[])
    (hextent : extentOf (points.map σ.point) = σ.scale * extentOf points) :
    enclosed (points.map σ.point) = (enclosed points).map σ.point := by
  have hne : points.toList ≠ [] := Array.toList_eq_nil_iff.not.mpr h
  have hmiddle : middleOf (points.map σ.point) = σ.point (middleOf points) := by
    unfold middleOf
    rw [Array.toList_map, boundingBox_similar σ hne]
    unfold Similarity.point
    congr 1
    · ring
    · ring
  have houter : outerCorners (points.map σ.point) = (outerCorners points).map σ.point := by
    unfold outerCorners
    rw [hmiddle, hextent]
    unfold Similarity.point
    simp only [List.map_toArray, List.map_cons, List.map_nil]
    ring_nf
  rw [enclosed_eq, enclosed_eq, houter, Array.map_append]

/-! ## The least extent -/

/-- With the least extent the enclosing triangle is nearly in line. -/
theorem tiny_lt_extentOf {points : Array (Point K)} (h : AllSpread points) :
    Scalar.tiny < extentOf points := by
  have hspread := h 0 (Nat.zero_le _) (outerOf points) List.mem_cons_self
  obtain ⟨ha, hb, hc⟩ := pointAt_outerOf points
  have harea : orientation (pointAt (enclosed points) (outerOf points).a)
      (pointAt (enclosed points) (outerOf points).b)
      (pointAt (enclosed points) (outerOf points).c) = 40000 * extentOf points ^ 2 := by
    rw [ha, hb, hc, orientation_eq]
    ring
  have hbound := hspread.epsilon_lt
  rw [harea, abs_of_nonneg (by positivity)] at hbound
  by_contra hnot
  have hleast : extentOf points = Scalar.tiny := le_antisymm (not_lt.mp hnot) (le_max_right _ _)
  have hpos := Exact.epsilon_pos (K := K)
  have hsmall := Exact.epsilon_le (K := K)
  have hsquare : extentOf points ^ 2 ≤ Scalar.epsilon ^ 2 := by
    rw [hleast]
    exact pow_le_pow_left₀ Exact.tiny_pos.le Exact.tiny_le_epsilon 2
  nlinarith

/-! ## The run -/

/-- The test for corners that are nearly in line answers alike for a triangle and its image. -/
def SpreadAlike (points : Array (Point K)) (t : Triangle K) : Prop :=
  Spread (pointAt points t.a) (pointAt points t.b) (pointAt points t.c) ↔
    Spread (σ.point (pointAt points t.a)) (σ.point (pointAt points t.b))
      (σ.point (pointAt points t.c))

omit [FloorRing K] [LinearOrder K] [Field K] [IsStrictOrderedRing K] in
/-- The ends of edges are corners. -/
theorem ends_lt_of_mem_edgesOf {triangles : List (Triangle K)} {n : ℕ}
    (h : ∀ t ∈ triangles, ∀ i ∈ t.corners, i < n) {e : ℕ × ℕ} (he : e ∈ edgesOf triangles) :
    e.1 < n ∧ e.2 < n := by
  obtain ⟨t, ht, hedge⟩ := mem_edgesOf.mp he
  obtain ⟨k, hk⟩ := mem_edges_iff.mp hedge
  obtain ⟨hi, hj, -⟩ := hk.mem_corners
  exact ⟨h t ht _ hi, h t ht _ hj⟩

omit [IsStrictOrderedRing K] in
/-- The triangles that occur have points or corners of the large triangle as their corners. -/
theorem corners_lt_of_mem_stateAfter {points : Array (Point K)} {k : ℕ} (hk : k ≤ points.size)
    {t : Triangle K} (ht : t ∈ stateAfter points k) :
    ∀ i ∈ t.corners, i < (enclosed points).size := by
  rw [size_enclosed]
  induction k generalizing t with
  | zero =>
      obtain rfl := List.mem_singleton.mp ht
      intro i hi
      have hcorner := (turned_self (outerOf points)).mem_corners_iff.mp hi
      simp only [outerOf, triangleOf] at hcorner
      omega
  | succ k ih =>
      obtain ⟨hole, kept, hcavity, hinsert⟩ :=
        exists_isCavity (enclosed points) (stateAfter points k) k
      rw [stateAfter_succ, hinsert] at ht
      rcases List.mem_append.mp ht with ht | ht
      · exact ih (by omega) (hcavity.mem_of_kept ht)
      · obtain ⟨e, he, rfl⟩ := List.mem_map.mp ht
        have hends := ends_lt_of_mem_edgesOf (fun s hs ↦ ih (by omega) (hcavity.mem_of_hole hs))
          (List.mem_filter.mp he).1
        intro i hi
        have hcorner := (turned_self (triangleOf (enclosed points) e.1 e.2 k)).mem_corners_iff.mp hi
        simp only [triangleOf] at hcorner
        omega

section Run

variable {points : Array (Point K)} (hne : points ≠ #[])
  (hextent : extentOf (points.map σ.point) = σ.scale * extentOf points)
include hne hextent

/-- The next insertion into images keeps the images of the same triangles and joins the same
edges. -/
theorem exists_next {k : ℕ} (hk : k < points.size)
    (hstate : stateAfter (points.map σ.point) k = (stateAfter points k).map σ.triangle) :
    ∃ (kept : List (Triangle K)) (edges : List (ℕ × ℕ)), (∀ t ∈ kept, t ∈ stateAfter points k) ∧
      (∀ e ∈ edges, e.1 < (enclosed points).size ∧ e.2 < (enclosed points).size) ∧
      stateAfter points (k + 1) =
        kept ++ edges.map (fun e ↦ triangleOf (enclosed points) e.1 e.2 k) ∧
      stateAfter (points.map σ.point) (k + 1) = kept.map σ.triangle ++
        edges.map fun e ↦ triangleOf ((enclosed points).map σ.point) e.1 e.2 k := by
  have hcorners : ∀ t ∈ stateAfter points k, ∀ i ∈ t.corners, i < (enclosed points).size :=
    fun t ht ↦ corners_lt_of_mem_stateAfter hk.le ht
  obtain ⟨kept, edges, hkept, hedges, hinsert, himages⟩ :=
    (keepsTests_similar σ hcorners (lt_size_enclosed hk)).exists_insert
  refine ⟨kept, edges, hkept, fun e he ↦ ends_lt_of_mem_edgesOf hcorners (hedges e he), ?_, ?_⟩
  · rw [stateAfter_succ, hinsert]
  · rw [stateAfter_succ, hstate, enclosed_similar σ hne hextent, himages]

/-- The enclosing triangle of images is the image of the enclosing triangle. -/
theorem outerOf_similar (hspread : SpreadAlike σ (enclosed points) (outerOf points)) :
    outerOf (points.map σ.point) = σ.triangle (outerOf points) := by
  unfold outerOf
  rw [enclosed_similar σ hne hextent, Array.size_map]
  refine triangleOf_similar σ ?_ ?_ ?_ hspread
  all_goals
    rw [size_enclosed]
    omega

/-- The triangles after insertions of images are the images of the triangles. -/
theorem stateAfter_similar {k : ℕ} (hk : k ≤ points.size)
    (hspread : ∀ j ≤ k, ∀ t ∈ stateAfter points j, SpreadAlike σ (enclosed points) t) :
    stateAfter (points.map σ.point) k = (stateAfter points k).map σ.triangle := by
  induction k with
  | zero =>
      have houter := hspread 0 le_rfl (outerOf points) List.mem_cons_self
      exact congrArg (fun t ↦ [t]) (outerOf_similar σ hne hextent houter)
  | succ k ih =>
      have hstate := ih (by omega) fun j hj ↦ hspread j (by omega)
      obtain ⟨kept, edges, -, hedges, hnext, himages⟩ := exists_next σ hne hextent hk hstate
      rw [himages, hnext, List.map_append, List.map_map]
      refine congrArg (kept.map σ.triangle ++ ·) (List.map_congr_left fun e he ↦ ?_)
      obtain ⟨hi, hj⟩ := hedges e he
      refine triangleOf_similar σ hi hj (lt_size_enclosed hk) (hspread (k + 1) le_rfl
        (triangleOf (enclosed points) e.1 e.2 k) ?_)
      rw [hnext]
      exact List.mem_append_right _ (List.mem_map.mpr ⟨e, he, rfl⟩)

section AllSpread

variable (h : AllSpread points) (h' : AllSpread (points.map σ.point))
include h h'

/-- The test for corners that are nearly in line answers alike for a triangle if one with the same
corners occurs for the images. -/
theorem spreadAlike_of_corners {k : ℕ} (hk : k ≤ points.size) {t t' : Triangle K}
    (ht : t ∈ stateAfter points k) (ht' : t' ∈ stateAfter (points.map σ.point) k)
    (hcorners : t'.corners = t.corners) : SpreadAlike σ (enclosed points) t := by
  obtain ⟨ha, hb, hc⟩ : t'.a = t.a ∧ t'.b = t.b ∧ t'.c = t.c := by
    simpa [Triangle.corners] using hcorners
  obtain ⟨hta, htb, htc⟩ := (turned_self t).mem_corners
  have hlt := corners_lt_of_mem_stateAfter hk ht
  have hspread := h' k (by simpa using hk) t' ht'
  rw [enclosed_similar σ hne hextent, ha, hb, hc, pointAt_similar σ (hlt _ hta),
    pointAt_similar σ (hlt _ htb), pointAt_similar σ (hlt _ htc)] at hspread
  exact iff_of_true (h k hk t ht) hspread

/-- When all circles are computed from the corners, for the points and for their images, the test
for corners that are nearly in line answers alike. -/
theorem spreadAlike_of_allSpread {k : ℕ} (hk : k ≤ points.size) :
    ∀ t ∈ stateAfter points k, SpreadAlike σ (enclosed points) t := by
  induction k using Nat.strong_induction_on with
  | _ k ih =>
    intro t ht
    cases k with
    | zero =>
        obtain rfl := List.mem_singleton.mp ht
        have houter : outerOf (points.map σ.point) ∈ stateAfter (points.map σ.point) 0 :=
          List.mem_cons_self
        refine spreadAlike_of_corners σ hne hextent h h' hk ht houter ?_
        simp [outerOf, triangleOf, Triangle.corners]
    | succ k =>
        have hstate := stateAfter_similar σ hne hextent (k := k) (by omega) fun j hj ↦
          ih j (by omega) (by omega)
        obtain ⟨kept, edges, hkept, -, hnext, himages⟩ := exists_next σ hne hextent hk hstate
        have hmem := ht
        rw [hnext] at hmem
        rcases List.mem_append.mp hmem with hmem | hmem
        · exact ih k (by omega) (by omega) t (hkept t hmem)
        · obtain ⟨e, he, rfl⟩ := List.mem_map.mp hmem
          have hfan : triangleOf ((enclosed points).map σ.point) e.1 e.2 k ∈
              stateAfter (points.map σ.point) (k + 1) := by
            rw [himages]
            exact List.mem_append_right _ (List.mem_map.mpr ⟨e, he, rfl⟩)
          exact spreadAlike_of_corners σ hne hextent h h' hk ht hfan rfl

end AllSpread

end Run

/-- Corners that are spread remain so when they are magnified about the origin. -/
theorem Spread.magnified (hscale : 1 ≤ σ.scale) (hshift : σ.shift = ⟨0, 0⟩) {p₀ p₁ p₂ : Point K}
    (h : Spread p₀ p₁ p₂) : Spread (σ.point p₀) (σ.point p₁) (σ.point p₂) := by
  have hsquare : 1 ≤ σ.scale ^ 2 := one_le_pow₀ hscale
  rw [spread_iff] at h ⊢
  rw [orientation_similar, abs_mul, abs_of_nonneg (sq_nonneg σ.scale)]
  set sum := p₀.x ^ 2 + p₀.y ^ 2 + (p₁.x ^ 2 + p₁.y ^ 2) + (p₂.x ^ 2 + p₂.y ^ 2) with hsum
  have hpoint : ∀ p : Point K, σ.point p = ⟨σ.scale * p.x, σ.scale * p.y⟩ := by
    intro p
    unfold Similarity.point
    rw [hshift]
    simp
  have himage : (σ.point p₀).x ^ 2 + (σ.point p₀).y ^ 2 + ((σ.point p₁).x ^ 2 + (σ.point p₁).y ^ 2)
      + ((σ.point p₂).x ^ 2 + (σ.point p₂).y ^ 2) = σ.scale ^ 2 * sum := by
    simp only [hpoint, hsum]
    ring
  rw [himage]
  calc Scalar.epsilon * max (σ.scale ^ 2 * sum) 1 ≤ Scalar.epsilon * (σ.scale ^ 2 * max sum 1) := by
        refine mul_le_mul_of_nonneg_left ?_ Exact.epsilon_pos.le
        rw [mul_max_of_nonneg _ _ (sq_nonneg σ.scale), mul_one]
        exact max_le_max le_rfl hsquare
    _ = σ.scale ^ 2 * (Scalar.epsilon * max sum 1) := by ring
    _ < σ.scale ^ 2 * (2 * |orientation p₀ p₁ p₂|) :=
        mul_lt_mul_of_pos_left h (pow_pos σ.scale_pos 2)
    _ = 2 * (σ.scale ^ 2 * |orientation p₀ p₁ p₂|) := by ring

/-- The tests that compare with absolute numbers answer alike for points and their images. -/
structure KeepsBounds (points : Array (Point K)) : Prop where
  extent : extentOf (points.map σ.point) = σ.scale * extentOf points
  spread : ∀ k ≤ points.size, ∀ t ∈ stateAfter points k, SpreadAlike σ (enclosed points) t

/-- The triangulation of images has the same corners in the same order if the tests that compare
with absolute numbers answer alike. They do if all circles are computed from the corners, before and
after the change, or before a magnification about the origin. -/
theorem triangulate_similar (points : Array (Point K)) :
    (KeepsBounds σ points → (triangulate (points.map σ.point)).map Triangle.corners =
      (triangulate points).map Triangle.corners) ∧
    (AllSpread points → AllSpread (points.map σ.point) → KeepsBounds σ points) ∧
    (AllSpread points → 1 ≤ σ.scale → σ.shift = ⟨0, 0⟩ → KeepsBounds σ points) := by
  have hnonempty : AllSpread points → points ≠ #[] := by
    rintro h rfl
    exact (tiny_lt_extentOf h).ne' extentOf_empty
  refine ⟨?agree, ?spread, ?magnified⟩
  case agree =>
    intro h
    rcases Nat.lt_or_ge points.size 3 with hn | hn
    · rw [show triangulate points = [] from if_pos hn,
        show triangulate (points.map σ.point) = [] from if_pos (by simpa using hn)]
    · have hne : points ≠ #[] := by
        rintro rfl
        cases hn
      have hstate := stateAfter_similar σ hne h.extent le_rfl h.spread
      rw [triangulate_eq hn, triangulate_eq (by simpa using hn), Array.size_map, hstate,
        filter_images fun _ _ ↦ rfl, List.map_map]
      rfl
  case spread =>
    intro h h'
    have hextent := extentOf_similar_of_lt σ (tiny_lt_extentOf h) (tiny_lt_extentOf h')
    exact ⟨hextent, fun k hk ↦ spreadAlike_of_allSpread σ (hnonempty h) hextent h h' hk⟩
  case magnified =>
    intro h hscale hshift
    have htiny := tiny_lt_extentOf h
    have htiny' : Scalar.tiny < extentOf (points.map σ.point) := by
      rw [extentOf_similar σ (hnonempty h)]
      have hside := htiny
      unfold extentOf at hside
      rw [lt_max_iff, or_iff_left (lt_irrefl _)] at hside
      refine lt_max_of_lt_left (hside.trans_le ?_)
      exact le_mul_of_one_le_left (Exact.tiny_pos.trans hside).le hscale
    refine ⟨extentOf_similar_of_lt σ htiny htiny', fun k hk t ht ↦ iff_of_true (h k hk t ht) ?_⟩
    exact (h k hk t ht).magnified σ hscale hshift

end Ordered

/-- Five points, twice as large and from another origin, have the same triangles. -/
theorem triangulate_five_similar :
    let points : Array (Point ℚ) := #[⟨0, 0⟩, ⟨4, 0⟩, ⟨1, 3⟩, ⟨2, 1⟩, ⟨4, 4⟩]
    let σ : Similarity ℚ := ⟨2, ⟨1, -3⟩, by norm_num⟩
    AllSpread points ∧ AllSpread (points.map σ.point) ∧
      (triangulate (points.map σ.point)).map Triangle.corners =
        (triangulate points).map Triangle.corners := by
  intro points σ
  have hspread : AllSpread points := by decide +kernel
  have himages : AllSpread (points.map σ.point) := by decide +kernel
  obtain ⟨hagree, hkeeps, -⟩ := triangulate_similar σ points
  exact ⟨hspread, himages, hagree (hkeeps hspread himages)⟩

/-- A right triangle with legs of length one at the origin. -/
def rightTriangle : Array (Point ℚ) :=
  #[⟨0, 0⟩, ⟨1, 0⟩, ⟨0, 1⟩]

/-- The right triangle is found at the origin, but not when it is small or far away. -/
theorem triangulate_rightTriangle :
    let small : Similarity ℚ := ⟨1 / 2 ^ 35, ⟨0, 0⟩, by norm_num⟩
    let far : Similarity ℚ := ⟨1, ⟨2 ^ 40, 2 ^ 40⟩, by norm_num⟩
    (triangulate rightTriangle).map Triangle.corners = [[0, 1, 2]] ∧
      (triangulate (rightTriangle.map small.point)).map Triangle.corners = [] ∧
      (triangulate (rightTriangle.map far.point)).map Triangle.corners = [] := by
  refine ⟨?_, ?_, ?_⟩ <;> decide +kernel

end Delaunay

end PlasmaField
