import Mathlib
import PlasmaField.Proofs.Boundary.Winding
import PlasmaField.Proofs.Orientation.Extended

/-!
# What a polygon contains

A polygon is built from vertices of numbers, but may be asked about any point. Around points of
numbers it winds as in exact arithmetic, `contains_map_finite`, and points with an infinite or
undefined coordinate are not contained, `contains_of_not_finite`. `Encloses` says how the answers
depend on the vertices: only on the closed curve through them, and nothing on this curve or outside
its box is contained. Every polygon that is built is of this kind, `encloses_of_ofVertices`.
-/

namespace PlasmaField

open Extended (finite beyond)
open Scalar (nth)
open scoped Exact

namespace Boundary

/-- The points of two arrays of one shape are told one by one whether they lie outside. -/
theorem outside_eq_ok {α : Type} [Scalar α] (b : Boundary α) {x z : ShapedArray α}
    (h : x.shape = z.shape) : ∃ outside, b.outside x z = .ok outside ∧ outside.shape = x.shape ∧
      ∀ index, outside.get? index =
        Option.map₂ (fun u v ↦ !b.contains u v) (x.get? index) (z.get? index) := by
  refine ⟨_, dif_pos h, rfl, fun index ↦ ?_⟩
  unfold ShapedArray.get?
  rw [ShapedArray.shape_zipWith, ← h]
  split
  · show (x.data.zipWith _ z.data)[_]? = _
    rw [Array.getElem?_zipWith]
    cases x.data[ShapedArray.offset x.shape index]? <;>
      cases z.data[ShapedArray.offset x.shape index]? <;> rfl
  · rfl

end Boundary

namespace Polygon

variable {K : Type} [Field K] [LinearOrder K] [FloorRing K]

/-! ## Points of numbers -/

/-- Edges pass points of numbers as in exact arithmetic. -/
theorem crossing_map_finite (s e p : Point K) :
    crossing (s.map finite) (e.map finite) (p.map finite) = crossing s e p := by
  unfold crossing
  rw [Orientation.turn_map_finite]
  rfl

/-- The ring through points of numbers. -/
theorem close_map_finite (vs : List (Point K)) :
    close (vs.map (Point.map finite)) = (close vs).map (Point.map finite) := by
  unfold close
  rw [List.head?_map, List.getLast?_map]
  cases vs.head? with
  | none => rfl
  | some first =>
      cases vs.getLast? with
      | none => rfl
      | some last =>
          have hsame : (first.map finite).samePlace (last.map finite) = first.samePlace last := rfl
          simp only [Option.map_some, hsame]
          split
          · rfl
          · rw [List.map_append, List.map_singleton]

/-- A ring through points of numbers contains the same points of numbers. -/
theorem contains_map_finite (ring : List (Point K)) (p : Point K) :
    (⟨ring.map (Point.map finite)⟩ : Polygon (Extended K)).contains (p.map finite) =
      (⟨ring⟩ : Polygon K).contains p := by
  have hwinding : ∀ edges : List (Point K × Point K), winding? (p.map finite)
      (edges.map (Prod.map (Point.map finite) (Point.map finite))) = winding? p edges := by
    intro edges
    induction edges with
    | nil => rfl
    | cons edge edges ih =>
        obtain ⟨s, e⟩ := edge
        simp only [List.map_cons, Prod.map_apply, winding?, crossing_map_finite, ih]
  have hedges : (⟨ring.map (Point.map finite)⟩ : Polygon (Extended K)).edges =
      (⟨ring⟩ : Polygon K).edges.map (Prod.map (Point.map finite) (Point.map finite)) := by
    unfold edges
    rw [← List.map_tail, List.zip_map]
  unfold contains
  rw [hedges, hwinding]

/-- What is no number lies between no numbers. -/
theorem between_beyond (t : SignType) (a b : K) :
    between (beyond t) (finite a) (finite b) = false := by
  unfold between
  split <;> cases t <;> rfl

/-- An edge between points of numbers passes no point whose height is no number. -/
theorem crossing_of_beyond_height (s e : Point K) (x : Extended K) (t : SignType) :
    crossing (s.map finite) (e.map finite) ⟨x, beyond t⟩ = .winds 0 := by
  unfold crossing
  dsimp only
  by_cases ht : t = 1
  · subst ht
    have habove : (s.map finite).y ≤ beyond 1 := rfl
    have hbelow : ¬ beyond 1 ≤ (e.map finite).y := fun h ↦ nomatch h
    rw [if_pos habove, if_neg hbelow]
  · have hs : ¬ (s.map finite).y ≤ beyond t := ht
    have he : ¬ (e.map finite).y ≤ beyond t := ht
    rw [if_neg hs, if_neg he]

/-- An edge between points of numbers passes no point whose radius is no number. Where the edge is
level with such a point no side can be told, and the point is not on it. -/
theorem crossing_of_beyond_radius [IsStrictOrderedRing K] (s e : Point K) (t : SignType) (y : K) :
    crossing (s.map finite) (e.map finite) ⟨beyond t, finite y⟩ = .winds 0 := by
  have hbetween : between (beyond t) (s.map finite).x (e.map finite).x = false :=
    between_beyond t s.x e.x
  unfold crossing
  by_cases hs : s.y ≤ y
  · by_cases he : y ≤ e.y
    · rw [Orientation.turn_of_beyond t (.inl ⟨hs, he⟩), hbetween]
      simp
    · have hs' : (s.map finite).y ≤ finite y := hs
      have he' : ¬ finite y ≤ (e.map finite).y := he
      dsimp only
      rw [if_pos hs', if_neg he']
  · have hs' : ¬ (s.map finite).y ≤ finite y := hs
    by_cases he : e.y ≤ y
    · rw [Orientation.turn_of_beyond t (.inr ⟨he, not_le.mp hs⟩), hbetween]
      simp [hs']
    · have he' : ¬ (e.map finite).y ≤ finite y := he
      dsimp only
      rw [if_neg hs', if_neg he']

/-- An edge between points of numbers passes no other point. -/
theorem crossing_of_not_finite [IsStrictOrderedRing K] (s e : Point K) {p : Point (Extended K)}
    (hp : ∀ q : Point K, p ≠ q.map finite) :
    crossing (s.map finite) (e.map finite) p = .winds 0 := by
  obtain ⟨x, y⟩ := p
  cases y with
  | beyond t => exact crossing_of_beyond_height s e x t
  | finite y =>
      cases x with
      | beyond t => exact crossing_of_beyond_radius s e t y
      | finite x => exact absurd rfl (hp ⟨x, y⟩)

/-- A ring through points of numbers contains no other points. -/
theorem contains_of_not_finite [IsStrictOrderedRing K] (ring : List (Point K))
    {p : Point (Extended K)} (hp : ∀ q : Point K, p ≠ q.map finite) :
    (⟨ring.map (Point.map finite)⟩ : Polygon (Extended K)).contains p = false := by
  rw [Bool.eq_false_iff, Ne, contains_iff]
  rintro ⟨-, hsum⟩
  refine hsum (List.sum_eq_zero fun n hn ↦ ?_)
  obtain ⟨edge, hedge, rfl⟩ := List.mem_map.mp hn
  unfold edges at hedge
  rw [← List.map_tail, List.zip_map] at hedge
  obtain ⟨⟨s, e⟩, -, rfl⟩ := List.mem_map.mp hedge
  unfold turns
  rw [Prod.map_apply, crossing_of_not_finite s e hp]

/-! ## The curve through the vertices -/

section Vertices

variable {α : Type}

/-- The members of an array from number `n` on, followed by those before. -/
def rotated (xs : Array α) (n : ℕ) : Array α :=
  (xs.toList.rotate n).toArray

/-- Rotating commutes with what is done to every member. -/
theorem rotated_map {β : Type} (f : α → β) (xs : Array α) (n : ℕ) :
    rotated (xs.map f) n = (rotated xs n).map f := by
  simp [rotated, List.map_rotate]

/-- The vertices pair up coordinates. -/
theorem vertices_eq_zipWith [Scalar α] (xs ys : Array α) :
    vertices xs ys = List.zipWith Point.mk xs.toList ys.toList := by
  unfold vertices
  rw [List.map_zip_eq_zipWith]
  rfl

/-- There is a vertex for every pair of coordinates. -/
theorem length_vertices [Scalar α] {xs ys : Array α} (h : xs.size = ys.size) :
    (vertices xs ys).length = xs.size := by
  simp [vertices, h]

/-- A vertex has the coordinates with its number. -/
theorem getElem?_vertices [Scalar α] {xs ys : Array α} (h : xs.size = ys.size) {i : ℕ}
    (hi : i < xs.size) : (vertices xs ys)[i]? = some ⟨nth xs i, nth ys i⟩ := by
  have hi' : i < ys.size := h ▸ hi
  simp [vertices, nth, hi, hi']

/-- Vertices with rotated coordinates are rotated. -/
theorem vertices_rotated [Scalar α] {xs ys : Array α} (h : xs.size = ys.size) (n : ℕ) :
    vertices (rotated xs n) (rotated ys n) = (vertices xs ys).rotate n := by
  rw [vertices_eq_zipWith, vertices_eq_zipWith,
    List.zipWith_rotate_distrib _ _ _ _ (by simpa using h)]
  rfl

/-- Vertices with reversed coordinates are reversed. -/
theorem vertices_reverse [Scalar α] {xs ys : Array α} (h : xs.size = ys.size) :
    vertices xs.reverse ys.reverse = (vertices xs ys).reverse := by
  rw [vertices_eq_zipWith, vertices_eq_zipWith, List.reverse_zipWith (by simpa using h),
    Array.toList_reverse, Array.toList_reverse]

/-- A further pair of coordinates makes a further vertex. -/
theorem vertices_push [Scalar α] {xs ys : Array α} (h : xs.size = ys.size) (x y : α) :
    vertices (xs.push x) (ys.push y) = vertices xs ys ++ [⟨x, y⟩] := by
  rw [vertices_eq_zipWith, vertices_eq_zipWith, Array.toList_push, Array.toList_push,
    List.zipWith_append (by simpa using h)]
  rfl

end Vertices

/-- The vertices with coordinates that are numbers. -/
theorem vertices_map_finite (xs ys : Array K) :
    vertices (xs.map finite) (ys.map finite) = (vertices xs ys).map (Point.map finite) := by
  rw [vertices_eq_zipWith, vertices_eq_zipWith, Array.toList_map, Array.toList_map,
    List.map_zipWith, List.zipWith_map]
  rfl

omit [Field K] [LinearOrder K] [FloorRing K] in
/-- Different points of numbers are different points. -/
theorem map_finite_injective : Function.Injective (Point.map (finite : K → Extended K)) := by
  rintro ⟨x, y⟩ ⟨x', y'⟩ h
  cases h
  rfl

/-- The polygon contains just the points of numbers that the closed curve through vertices winds
around. -/
def WindsAlong (polygon : Polygon (Extended K)) (vs : List (Point K)) : Prop :=
  ∀ p, polygon.contains p = true ↔ ∃ q, p = Point.map finite q ∧ Around q (cyclicEdges vs)

/-- A point of numbers on an edge of the curve is not contained. -/
theorem WindsAlong.not_contains {polygon : Polygon (Extended K)} {vs : List (Point K)}
    (h : polygon.WindsAlong vs) {q : Point K} {edge : Point K × Point K}
    (hedge : edge ∈ cyclicEdges vs) (hq : OnEdge q edge) :
    polygon.contains (q.map finite) = false := by
  rw [Bool.eq_false_iff, Ne, h]
  rintro ⟨r, heq, haround⟩
  obtain rfl : q = r := map_finite_injective heq
  exact haround.1 edge hedge hq

/-- The curve winds around the same points if another vertex comes first. -/
theorem around_vertices_rotated {xs ys : Array K} (h : xs.size = ys.size) (n : ℕ) {q : Point K} :
    Around q (cyclicEdges (vertices (rotated xs n) (rotated ys n))) ↔
      Around q (cyclicEdges (vertices xs ys)) := by
  rw [vertices_rotated h, cyclicEdges_rotate]
  exact around_perm (List.rotate_perm _ _)

variable [IsStrictOrderedRing K]

/-- The curve winds around the same points if the vertices are reversed. -/
theorem around_vertices_reverse {xs ys : Array K} (h : xs.size = ys.size) {q : Point K} :
    Around q (cyclicEdges (vertices xs.reverse ys.reverse)) ↔
      Around q (cyclicEdges (vertices xs ys)) := by
  rw [vertices_reverse h, around_perm (cyclicEdges_reverse _), around_map_swap]

/-- The curve winds around the same points if the first vertex is repeated at the end. -/
theorem around_vertices_push {xs ys : Array K} (h : xs.size = ys.size) (hpos : 0 < xs.size)
    {q : Point K} :
    Around q (cyclicEdges (vertices (xs.push (nth xs 0)) (ys.push (nth ys 0)))) ↔
      Around q (cyclicEdges (vertices xs ys)) := by
  obtain ⟨v, rest, hvertices⟩ :=
    List.exists_cons_of_length_pos (hpos.trans_eq (length_vertices h).symm)
  have hfirst := getElem?_vertices h hpos
  rw [vertices_push h]
  rw [hvertices] at hfirst ⊢
  obtain rfl : v = _ := Option.some.inj hfirst
  rw [cyclicEdges_concat_head, around_concat_self (exists_edge_from List.mem_cons_self)]

/-- A polygon is built from three or more pairs of numbers. -/
theorem exists_ofVertices {xs ys : Array K} (hsize : xs.size = ys.size) (hthree : 3 ≤ xs.size) :
    ∃ polygon, ofVertices (xs.map finite) (ys.map finite) = .ok polygon ∧
      polygon.WindsAlong (vertices xs ys) := by
  have hfinite : ∀ zs : Array K, (zs.map finite).all Scalar.isFinite = true :=
    fun zs ↦ Extended.all_isFinite_iff.mpr ⟨zs, rfl⟩
  refine ⟨_, ofVertices_eq_ok_iff.mpr ⟨by simpa using hsize, by simpa using hthree, hfinite xs,
    hfinite ys, rfl⟩, fun p ↦ ?_⟩
  have hlength : 2 ≤ (vertices xs ys).length := by
    rw [length_vertices hsize]
    omega
  rw [vertices_map_finite, close_map_finite]
  by_cases hp : ∃ q : Point K, p = q.map finite
  · obtain ⟨q, rfl⟩ := hp
    rw [contains_map_finite, contains_close_iff hlength]
    refine ⟨fun h ↦ ⟨q, rfl, h⟩, fun ⟨r, heq, h⟩ ↦ ?_⟩
    rwa [map_finite_injective heq]
  · push Not at hp
    rw [contains_of_not_finite _ hp]
    exact iff_of_false Bool.false_ne_true fun ⟨q, hq, _⟩ ↦ hp q hq

/-- A polygon that is built has three or more pairs of numbers as its vertices. -/
theorem exists_of_ofVertices {xs ys : Array (Extended K)} {polygon : Polygon (Extended K)}
    (h : ofVertices xs ys = .ok polygon) : ∃ as bs : Array K, xs = as.map finite ∧
      ys = bs.map finite ∧ as.size = bs.size ∧ 3 ≤ as.size ∧
        polygon.WindsAlong (vertices as bs) := by
  obtain ⟨hsize, hthree, hx, hy, -⟩ := ofVertices_eq_ok_iff.mp h
  obtain ⟨as, rfl⟩ := Extended.all_isFinite_iff.mp hx
  obtain ⟨bs, rfl⟩ := Extended.all_isFinite_iff.mp hy
  rw [Array.size_map] at hsize hthree
  rw [Array.size_map] at hsize
  obtain ⟨other, hother, hwinds⟩ := exists_ofVertices hsize hthree
  obtain rfl : polygon = other := Except.ok.inj (h.symm.trans hother)
  exact ⟨as, bs, rfl, rfl, hsize, hthree, hwinds⟩

/-- A polygon contains the same points as one whose curve winds around the same ones. -/
theorem WindsAlong.exists_alike {polygon : Polygon (Extended K)} {vs : List (Point K)}
    (h : polygon.WindsAlong vs) {xs ys : Array K} (hsize : xs.size = ys.size)
    (hthree : 3 ≤ xs.size)
    (hcurves : ∀ q, Around q (cyclicEdges (vertices xs ys)) ↔ Around q (cyclicEdges vs)) :
    ∃ other, ofVertices (xs.map finite) (ys.map finite) = .ok other ∧
      ∀ p, other.contains p = polygon.contains p := by
  obtain ⟨other, hother, hwinds⟩ := exists_ofVertices hsize hthree
  refine ⟨other, hother, fun p ↦ ?_⟩
  rw [Bool.eq_iff_iff, h p, hwinds p]
  simp only [hcurves]

/-! ## What is enclosed -/

/-- A scalar is between members of an array. -/
def InRange (xs : Array (Extended K)) (v : Extended K) : Prop :=
  (∃ i < xs.size, nth xs i ≤ v) ∧ ∃ i < xs.size, v ≤ nth xs i

/-- The polygon with the given vertex coordinates depends on the closed curve through them only: it
contains the same points if another vertex comes first, if the vertices are reversed, and if the
first one is repeated at the end. No vertex, no point of an edge, the one from the last vertex to
the first included, and no point outside the box of the vertices is contained. -/
structure Encloses (xs ys : Array (Extended K)) (polygon : Polygon (Extended K)) : Prop where
  rotated : ∀ n, ∃ other, ofVertices (rotated xs n) (rotated ys n) = .ok other ∧
    ∀ p, other.contains p = polygon.contains p
  reversed : ∃ other, ofVertices xs.reverse ys.reverse = .ok other ∧
    ∀ p, other.contains p = polygon.contains p
  closed : ∃ other, ofVertices (xs.push (nth xs 0)) (ys.push (nth ys 0)) = .ok other ∧
    ∀ p, other.contains p = polygon.contains p
  vertex : ∀ i < xs.size, polygon.contains ⟨nth xs i, nth ys i⟩ = false
  edge : ∀ i < xs.size, ∀ t : K, 0 ≤ t → t ≤ 1 → polygon.contains
    ⟨finite (1 - t) * nth xs i + finite t * nth xs ((i + 1) % xs.size),
      finite (1 - t) * nth ys i + finite t * nth ys ((i + 1) % ys.size)⟩ = false
  box : ∀ p, polygon.contains p = true → InRange xs p.x ∧ InRange ys p.y

omit [IsStrictOrderedRing K] in
/-- The edge from a vertex to the next one. -/
theorem mem_cyclicEdges_vertices {xs ys : Array K} (h : xs.size = ys.size) {i : ℕ}
    (hi : i < xs.size) :
    ((⟨nth xs i, nth ys i⟩, ⟨nth xs ((i + 1) % xs.size), nth ys ((i + 1) % xs.size)⟩) :
      Point K × Point K) ∈ cyclicEdges (vertices xs ys) := by
  refine List.mem_of_getElem? (i := i) (List.getElem?_zip_eq_some.mpr
    ⟨getElem?_vertices h hi, ?_⟩)
  have hlength := length_vertices h
  rw [List.getElem?_rotate (hi.trans_eq hlength.symm), hlength]
  exact getElem?_vertices h (Nat.mod_lt _ (Nat.zero_lt_of_lt hi))

omit [IsStrictOrderedRing K] in
/-- The vertices span the ranges of their coordinates. -/
theorem inRange_of_inBox {xs ys : Array K} (h : xs.size = ys.size) {q : Point K}
    (hq : InBox q (vertices xs ys)) :
    InRange (xs.map finite) (finite q.x) ∧ InRange (ys.map finite) (finite q.y) := by
  have hnumber : ∀ P : Point K → Prop, (∃ v ∈ vertices xs ys, P v) →
      ∃ i < xs.size, P ⟨nth xs i, nth ys i⟩ := by
    rintro P ⟨v, hv, hP⟩
    obtain ⟨i, hget⟩ := List.mem_iff_getElem?.mp hv
    have hi : i < xs.size := length_vertices h ▸ (List.getElem?_eq_some_iff.mp hget).1
    rw [getElem?_vertices h hi] at hget
    exact ⟨i, hi, Option.some.inj hget ▸ hP⟩
  unfold InRange
  simp only [Array.size_map, Extended.nth_map_finite, ← h]
  exact ⟨⟨hnumber _ hq.1, hnumber _ hq.2.1⟩, hnumber _ hq.2.2.1, hnumber _ hq.2.2.2⟩

/-- What a polygon that is built encloses, and that every domain tells points outside it one by
one. -/
theorem encloses_of_ofVertices {xs ys : Array (Extended K)} {polygon : Polygon (Extended K)}
    (h : ofVertices xs ys = .ok polygon) : Encloses xs ys polygon ∧
      ∀ (b : Boundary (Extended K)) (x z : ShapedArray (Extended K)), x.shape = z.shape →
        ∃ outside, b.outside x z = .ok outside ∧ outside.shape = x.shape ∧ ∀ index,
          outside.get? index =
            Option.map₂ (fun u v ↦ !b.contains u v) (x.get? index) (z.get? index) := by
  refine ⟨?_, fun b x z hshape ↦ b.outside_eq_ok hshape⟩
  obtain ⟨as, bs, rfl, rfl, hsize, hthree, hwinds⟩ := exists_of_ofVertices h
  constructor
  case rotated =>
    intro n
    rw [rotated_map, rotated_map]
    exact hwinds.exists_alike (by simpa [Polygon.rotated] using hsize)
      (by simpa [Polygon.rotated] using hthree) fun _ ↦ around_vertices_rotated hsize n
  case reversed =>
    rw [← Array.map_reverse, ← Array.map_reverse]
    exact hwinds.exists_alike (by simpa using hsize) (by simpa using hthree)
      fun _ ↦ around_vertices_reverse hsize
  case closed =>
    rw [Extended.nth_map_finite, Extended.nth_map_finite, ← Array.map_push, ← Array.map_push]
    exact hwinds.exists_alike (by simpa using hsize) (by simpa using hthree.trans (Nat.le_succ _))
      fun _ ↦ around_vertices_push hsize (Nat.zero_lt_of_lt hthree)
  case vertex =>
    intro i hi
    rw [Array.size_map] at hi
    rw [Extended.nth_map_finite, Extended.nth_map_finite]
    exact hwinds.not_contains (mem_cyclicEdges_vertices hsize hi) (onEdge_start _ _)
  case edge =>
    intro i hi t h₀ h₁
    rw [Array.size_map] at hi
    simp only [Extended.nth_map_finite, Array.size_map, ← hsize]
    let q : Point K := ⟨(1 - t) * nth as i + t * nth as ((i + 1) % as.size),
      (1 - t) * nth bs i + t * nth bs ((i + 1) % as.size)⟩
    exact hwinds.not_contains (q := q) (mem_cyclicEdges_vertices hsize hi) ⟨t, h₀, h₁, rfl, rfl⟩
  case box =>
    intro p hp
    obtain ⟨q, rfl, haround⟩ := (hwinds p).mp hp
    exact inRange_of_inBox hsize (inBox_of_around haround)

/-- An hourglass, whose halves are wound around in opposite directions, encloses both. -/
theorem encloses_hourglass : ∃ polygon : Polygon (Extended ℚ),
    ofVertices #[finite 0, finite 4, finite 4, finite 0] #[finite 0, finite 4, finite 0, finite 4] =
      .ok polygon ∧
    Encloses #[finite 0, finite 4, finite 4, finite 0] #[finite 0, finite 4, finite 0, finite 4]
      polygon ∧
    polygon.contains ⟨finite 1, finite 2⟩ = true ∧
    polygon.contains ⟨finite 3, finite 2⟩ = true := by
  have h : ofVertices #[finite 0, finite 4, finite 4, finite 0]
      #[finite 0, finite 4, finite 0, finite (4 : ℚ)] = .ok ⟨close (vertices _ _)⟩ :=
    ofVertices_eq_ok_iff.mpr ⟨rfl, by decide, by decide +kernel, by decide +kernel, rfl⟩
  exact ⟨_, h, (encloses_of_ofVertices h).1, by decide +kernel, by decide +kernel⟩

end Polygon

end PlasmaField
