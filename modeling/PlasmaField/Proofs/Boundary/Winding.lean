import Mathlib
import PlasmaField.Boundary
import PlasmaField.Proofs.Orientation
import PlasmaField.Proofs.Outcome

/-!
# How a polygon winds around a point

An upward edge includes its start and a downward edge its end, but the turns of an edge are those of
its reverse with the other sign, `turns_swap`, and a point is touched by some edge of a closed ring
just if it lies on one, `exists_touches_iff`. Whether the polygon contains a point is therefore told
by the edges between cyclically successive vertices, `contains_close_iff`, whatever vertex comes
first, in which direction they are listed, and whether the first one is repeated at the end. Around
a point outside the box of the vertices the edges do not wind, `inBox_of_around`.
-/

namespace PlasmaField.Polygon

open Outcome (bind_eq_ok_iff guard_eq_ok_iff)
open scoped Exact

/-! ## Over any scalars -/

section Scalars

variable {α : Type} [Scalar α]

/-- The points with the given coordinates. -/
def vertices (xs ys : Array α) : List (Point α) :=
  (xs.toList.zip ys.toList).map fun p ↦ ⟨p.1, p.2⟩

/-- A ring is left alone if its last vertex repeats the first. -/
theorem close_of_samePlace {v w : Point α} {rest : List (Point α)} (h : v.samePlace w = true) :
    close (v :: rest ++ [w]) = v :: rest ++ [w] := by
  unfold close
  rw [List.cons_append, List.head?_cons, ← List.cons_append, List.getLast?_concat]
  exact if_pos h

/-- Otherwise the first vertex is appended. -/
theorem close_of_not_samePlace {v w : Point α} {rest : List (Point α)}
    (h : ¬ v.samePlace w = true) : close (v :: rest ++ [w]) = v :: rest ++ [w] ++ [v] := by
  unfold close
  rw [List.cons_append, List.head?_cons, ← List.cons_append, List.getLast?_concat]
  exact if_neg h

/-- A polygon is built from three or more vertices with finite coordinates, as many of one kind as
of the other. -/
theorem ofVertices_eq_ok_iff {xs ys : Array α} {polygon : Polygon α} :
    ofVertices xs ys = .ok polygon ↔ xs.size = ys.size ∧ 3 ≤ xs.size ∧
      xs.all Scalar.isFinite = true ∧ ys.all Scalar.isFinite = true ∧
        polygon = ⟨close (vertices xs ys)⟩ := by
  unfold ofVertices
  rw [guard_eq_ok_iff, guard_eq_ok_iff]
  simp only [bne_iff_ne, ne_eq, not_not, not_lt]
  refine and_congr_right fun _ ↦ and_congr_right fun _ ↦ ?_
  cases xs.all Scalar.isFinite with
  | false => exact iff_of_false (fun h ↦ by cases h) (fun h ↦ by cases h.1)
  | true =>
      cases ys.all Scalar.isFinite with
      | false => exact iff_of_false (fun h ↦ by cases h) (fun h ↦ by cases h.2.1)
      | true =>
          refine ⟨fun h ↦ ?_, fun ⟨_, _, h⟩ ↦ h ▸ rfl⟩
          cases h
          exact ⟨rfl, rfl, rfl⟩

/-- What an edge adds to the winding around a point. -/
def turns (p : Point α) (edge : Point α × Point α) : ℤ :=
  match crossing edge.1 edge.2 p with
  | .touches => 0
  | .winds turns => turns

/-- The turns of the edges add up, unless one of them touches the point. -/
theorem winding?_eq_some_iff {p : Point α} {edges : List (Point α × Point α)} {n : ℤ} :
    winding? p edges = some n ↔ (∀ edge ∈ edges, crossing edge.1 edge.2 p ≠ .touches) ∧
      (edges.map (turns p)).sum = n := by
  induction edges generalizing n with
  | nil => simp [winding?]
  | cons edge edges ih =>
      obtain ⟨s, e⟩ := edge
      rw [List.forall_mem_cons, List.map_cons, List.sum_cons]
      unfold winding? turns
      cases crossing s e p with
      | touches => simp
      | winds turned =>
          simp only [Option.map_eq_some_iff, ih]
          constructor
          · rintro ⟨m, ⟨htouch, rfl⟩, rfl⟩
            exact ⟨⟨by simp, htouch⟩, rfl⟩
          · rintro ⟨⟨-, htouch⟩, hsum⟩
            exact ⟨_, ⟨htouch, rfl⟩, hsum⟩

/-- A polygon contains a point when no edge touches it and the turns of the edges do not cancel. -/
theorem contains_iff {polygon : Polygon α} {p : Point α} : polygon.contains p = true ↔
    (∀ edge ∈ polygon.edges, crossing edge.1 edge.2 p ≠ .touches) ∧
      (polygon.edges.map (turns p)).sum ≠ 0 := by
  unfold contains
  cases hwinding : winding? p polygon.edges with
  | none =>
      refine iff_of_false (by simp) fun h ↦ ?_
      rw [winding?_eq_some_iff.mpr ⟨h.1, rfl⟩] at hwinding
      cases hwinding
  | some n =>
      obtain ⟨htouch, rfl⟩ := winding?_eq_some_iff.mp hwinding
      simpa using fun _ ↦ htouch

end Scalars

/-! ## Edges -/

/-- The edges from each vertex to the next one, the first vertex following the last. -/
def cyclicEdges {α : Type} (vs : List (Point α)) : List (Point α × Point α) :=
  vs.zip (vs.rotate 1)

section Cyclic

variable {α : Type}

/-- Rotating the vertices rotates the edges. -/
theorem cyclicEdges_rotate (vs : List (Point α)) (n : ℕ) :
    cyclicEdges (vs.rotate n) = (cyclicEdges vs).rotate n := by
  unfold cyclicEdges List.zip
  rw [List.zipWith_rotate_distrib _ _ _ _ (List.length_rotate vs 1).symm, List.rotate_rotate,
    List.rotate_rotate, Nat.add_comm]

/-- Reversing the vertices turns every edge around. -/
theorem cyclicEdges_reverse (vs : List (Point α)) :
    (cyclicEdges vs.reverse).Perm ((cyclicEdges vs).map Prod.swap) := by
  have hback : (vs.rotate 1).reverse.rotate 1 = vs.reverse := by
    cases vs with
    | nil => rfl
    | cons v rest => simp
  have hreverse : cyclicEdges (vs.rotate 1).reverse = ((cyclicEdges vs).map Prod.swap).reverse := by
    unfold cyclicEdges
    rw [hback, List.zip_swap, List.zip, ← List.reverse_zipWith (List.length_rotate vs 1)]
  rw [← hback, cyclicEdges_rotate, hreverse]
  exact (List.rotate_perm _ _).trans (List.reverse_perm _)

/-- Repeating the first vertex at the end adds an edge without extent. -/
theorem cyclicEdges_concat_head (v : Point α) (rest : List (Point α)) :
    cyclicEdges (v :: rest ++ [v]) = cyclicEdges (v :: rest) ++ [(v, v)] := by
  unfold cyclicEdges
  simp only [List.cons_append, List.rotate_cons_succ, List.rotate_zero]
  rw [← List.cons_append, List.zip_append (by simp)]
  rfl

/-- An edge begins at a vertex. -/
theorem fst_mem_of_mem_cyclicEdges {vs : List (Point α)} {edge : Point α × Point α}
    (h : edge ∈ cyclicEdges vs) : edge.1 ∈ vs :=
  (List.of_mem_zip h).1

/-- An edge ends at a vertex. -/
theorem snd_mem_of_mem_cyclicEdges {vs : List (Point α)} {edge : Point α × Point α}
    (h : edge ∈ cyclicEdges vs) : edge.2 ∈ vs :=
  List.mem_rotate.mp (List.of_mem_zip h).2

/-- The starts of the edges are the vertices. -/
theorem map_fst_cyclicEdges (vs : List (Point α)) : (cyclicEdges vs).map Prod.fst = vs :=
  List.map_fst_zip (List.length_rotate vs 1).ge

/-- The ends of the edges are the vertices from the second one on, and the first. -/
theorem map_snd_cyclicEdges (vs : List (Point α)) :
    (cyclicEdges vs).map Prod.snd = vs.rotate 1 :=
  List.map_snd_zip (List.length_rotate vs 1).le

/-- An edge begins at every vertex. -/
theorem exists_edge_from {vs : List (Point α)} {v : Point α} (h : v ∈ vs) :
    ∃ edge ∈ cyclicEdges vs, edge.1 = v := by
  rw [← map_fst_cyclicEdges vs] at h
  exact List.mem_map.mp h

/-- An edge ends at every vertex. -/
theorem exists_edge_to {vs : List (Point α)} {v : Point α} (h : v ∈ vs) :
    ∃ edge ∈ cyclicEdges vs, edge.2 = v := by
  rw [← List.mem_rotate (n := 1), ← map_snd_cyclicEdges vs] at h
  exact List.mem_map.mp h

/-- What the starts of the edges have cancels with what their ends have. -/
theorem sum_cyclicEdges_sub (vs : List (Point α)) (f : Point α → ℤ) :
    ((cyclicEdges vs).map fun edge ↦ f edge.1 - f edge.2).sum = 0 := by
  have hstarts : (cyclicEdges vs).map (f ∘ Prod.fst) = vs.map f := by
    rw [← List.map_map, map_fst_cyclicEdges]
  have hends : ((cyclicEdges vs).map (f ∘ Prod.snd)).Perm (vs.map f) := by
    rw [← List.map_map, map_snd_cyclicEdges]
    exact (List.rotate_perm vs 1).map f
  have hsum : ((cyclicEdges vs).map fun edge ↦ f edge.1 - f edge.2).sum +
      ((cyclicEdges vs).map (f ∘ Prod.snd)).sum = ((cyclicEdges vs).map (f ∘ Prod.fst)).sum := by
    rw [← List.sum_map_add]
    simp only [Function.comp_def, sub_add_cancel]
  rw [hstarts, hends.sum_eq] at hsum
  exact add_eq_right.mp hsum

/-- The edges of a ring that ends with its first vertex. -/
theorem edges_concat_head (v : Point α) (rest : List (Point α)) :
    (⟨v :: rest ++ [v]⟩ : Polygon α).edges = cyclicEdges (v :: rest) := by
  have hlength : (v :: rest).length = (rest ++ [v]).length := by simp
  have hzip : (v :: rest ++ [v]).zip (rest ++ [v] ++ []) =
      (v :: rest).zip (rest ++ [v]) ++ [v].zip [] := List.zip_append hlength
  rw [List.append_nil, List.zip_nil_right, List.append_nil] at hzip
  unfold cyclicEdges
  rw [List.rotate_cons_succ, List.rotate_zero]
  exact hzip

end Cyclic

/-! ## One edge -/

section Exact

variable {K : Type} [Field K] [LinearOrder K]

/-- Twice the area that the path from `s` over `e` to `p` encloses; positive for a counter-clockwise
turn. -/
def side (s e p : Point K) : K :=
  (s.x - p.x) * (e.y - p.y) - (s.y - p.y) * (e.x - p.x)

omit [LinearOrder K] in
/-- Going along an edge the other way exchanges the sides. -/
theorem side_swap (s e p : Point K) : side e s p = -side s e p := by
  unfold side
  ring

/-- The edge from `s` to `e` passes to the right of the point upward. -/
def Rises (s e p : Point K) : Prop :=
  s.y ≤ p.y ∧ p.y < e.y ∧ 0 < side s e p

/-- Whether an edge rises past a point is decided by comparing coordinates. -/
instance (s e p : Point K) : Decidable (Rises s e p) :=
  inferInstanceAs (Decidable (_ ∧ _ ∧ _))

/-- The point is a mean of the ends of the edge. -/
def OnEdge (p : Point K) (edge : Point K × Point K) : Prop :=
  ∃ t : K, 0 ≤ t ∧ t ≤ 1 ∧ p.x = (1 - t) * edge.1.x + t * edge.2.x ∧
    p.y = (1 - t) * edge.1.y + t * edge.2.y

variable [FloorRing K]

/-- A coordinate lies between two others when it lies between the smaller and the greater one. -/
theorem between_iff {v a b : K} : between v a b = true ↔ min a b ≤ v ∧ v ≤ max a b := by
  unfold between
  split
  next h => simp [min_eq_left h.le, max_eq_right h.le]
  next h => simp [min_eq_right (not_lt.mp h), max_eq_left (not_lt.mp h)]

/-- An edge touches a point that lies in line with its ends and between them, except the start of a
downward edge. -/
theorem crossing_eq_touches_iff {s e p : Point K} : crossing s e p = .touches ↔ side s e p = 0 ∧
    (min s.x e.x ≤ p.x ∧ p.x ≤ max s.x e.x) ∧
      (s.y ≤ p.y ∧ p.y ≤ e.y ∨ e.y ≤ p.y ∧ p.y < s.y) := by
  have hturn : Orientation.turn s e p = .eq ↔ side s e p = 0 := by
    rw [Orientation.turn_eq_cmp, cmp_eq_eq_iff]
    rfl
  unfold crossing
  rw [← hturn, ← between_iff]
  dsimp only
  rcases le_or_gt s.y p.y with hs | hs
  · rw [if_pos hs, or_iff_left fun h ↦ hs.not_gt h.2]
    rcases lt_trichotomy p.y e.y with he | he | he
    · cases Orientation.turn s e p <;> simp [hs, he.le, he.ne']
    · cases Orientation.turn s e p <;> simp [hs, ← he]
    · simp [he.not_ge]
  · rw [if_neg hs.not_ge, or_iff_right fun h ↦ hs.not_ge h.1]
    by_cases he : e.y ≤ p.y
    · cases Orientation.turn s e p <;> simp [hs, he]
    · simp [he]

variable [IsStrictOrderedRing K]

/-- The turns of an edge are those of its upward and downward passages. -/
theorem turns_eq (s e p : Point K) :
    turns p (s, e) = (if Rises s e p then 1 else 0) - (if Rises e s p then 1 else 0) := by
  rcases le_or_gt s.y p.y with hs | hs
  · have hup : Rises s e p ↔ p.y < e.y ∧ Orientation.turn s e p = .gt := by
      rw [Orientation.turn_eq_cmp, cmp_eq_gt_iff]
      exact and_iff_right hs
    rw [if_neg fun h : Rises e s p ↦ hs.not_gt h.2.1, sub_zero]
    simp only [hup]
    unfold turns crossing
    dsimp only
    rw [if_pos hs]
    rcases lt_trichotomy p.y e.y with he | he | he
    · cases Orientation.turn s e p <;> cases between p.x s.x e.x <;> simp [he, he.le, he.ne']
    · cases Orientation.turn s e p <;> cases between p.x s.x e.x <;> simp [he]
    · simp [he.not_ge, he.not_gt]
  · have hdown : Rises e s p ↔ e.y ≤ p.y ∧ Orientation.turn s e p = .lt := by
      unfold Rises
      rw [Orientation.turn_eq_cmp, cmp_eq_lt_iff, side_swap, Left.neg_pos_iff]
      exact and_congr_right fun _ ↦ and_iff_right hs
    rw [if_neg fun h : Rises s e p ↦ hs.not_ge h.1, zero_sub]
    simp only [hdown]
    unfold turns crossing
    dsimp only
    rw [if_neg hs.not_ge]
    by_cases he : e.y ≤ p.y
    · cases Orientation.turn s e p <;> cases between p.x s.x e.x <;> simp [he]
    · simp [he]

/-- Going along an edge the other way changes the sign of its turns. -/
theorem turns_swap (p : Point K) (edge : Point K × Point K) :
    turns p edge.swap = -turns p edge := by
  obtain ⟨s, e⟩ := edge
  show turns p (e, s) = _
  rw [turns_eq, turns_eq, neg_sub]

/-- An edge without extent has no turns. -/
theorem turns_self (p v : Point K) : turns p (v, v) = 0 := by
  rw [turns_eq, sub_self]

omit [FloorRing K] in
/-- The points of an edge are those of the edge the other way round. -/
theorem onEdge_swap {p : Point K} {edge : Point K × Point K} :
    OnEdge p edge.swap ↔ OnEdge p edge := by
  have hturned : ∀ edge : Point K × Point K, OnEdge p edge → OnEdge p edge.swap := by
    rintro edge ⟨t, h₀, h₁, hx, hy⟩
    refine ⟨1 - t, sub_nonneg.mpr h₁, sub_le_self 1 h₀, ?_, ?_⟩
    · rw [hx, sub_sub_cancel, add_comm]
      rfl
    · rw [hy, sub_sub_cancel, add_comm]
      rfl
  exact ⟨fun h ↦ hturned _ h, hturned edge⟩

omit [FloorRing K] in
/-- The ends of an edge are on it. -/
theorem onEdge_start (s e : Point K) : OnEdge s (s, e) :=
  ⟨0, le_rfl, zero_le_one, by simp, by simp⟩

omit [FloorRing K] in
/-- An edge without extent has one point. -/
theorem onEdge_self {p v : Point K} : OnEdge p (v, v) ↔ p = v := by
  constructor
  · rintro ⟨t, -, -, hx, hy⟩
    rcases p with ⟨x, y⟩
    rcases v with ⟨v, w⟩
    rw [Point.mk.injEq]
    constructor
    · simpa [← add_mul] using hx
    · simpa [← add_mul] using hy
  · rintro rfl
    exact onEdge_start _ _

omit [FloorRing K] in
/-- What lies between two coordinates is a mean of them. -/
theorem exists_mean_iff {a b v : K} :
    (∃ t : K, 0 ≤ t ∧ t ≤ 1 ∧ v = (1 - t) * a + t * b) ↔ min a b ≤ v ∧ v ≤ max a b := by
  have hmem : v ∈ segment K a b ↔ min a b ≤ v ∧ v ≤ max a b := by
    rw [segment_eq_uIcc]
    rfl
  rw [← hmem]
  constructor
  · rintro ⟨t, h₀, h₁, rfl⟩
    exact ⟨1 - t, t, sub_nonneg.mpr h₁, h₀, sub_add_cancel 1 t, rfl⟩
  · rintro ⟨u, t, hu, ht, hsum, rfl⟩
    obtain rfl : u = 1 - t := eq_sub_of_add_eq hsum
    exact ⟨t, ht, sub_nonneg.mp hu, rfl⟩

/-- A point that is touched is on the edge. -/
theorem onEdge_of_touches {s e p : Point K} (h : crossing s e p = .touches) :
    OnEdge p (s, e) := by
  obtain ⟨hside, hx, hy⟩ := crossing_eq_touches_iff.mp h
  by_cases hlevel : s.y = e.y
  · obtain ⟨t, h₀, h₁, hx⟩ := exists_mean_iff.mpr hx
    have hp : p.y = s.y := by
      rcases hy with ⟨hs, he⟩ | ⟨he, hs⟩
      · exact le_antisymm (hlevel ▸ he) hs
      · exact absurd (he.trans_lt hs) hlevel.not_gt
    refine ⟨t, h₀, h₁, hx, ?_⟩
    rw [hp, ← hlevel]
    ring
  · have hbetween : min s.y e.y ≤ p.y ∧ p.y ≤ max s.y e.y := by
      rcases hy with ⟨hs, he⟩ | ⟨he, hs⟩
      · exact ⟨(min_le_left _ _).trans hs, he.trans (le_max_right _ _)⟩
      · exact ⟨(min_le_right _ _).trans he, hs.le.trans (le_max_left _ _)⟩
    obtain ⟨t, h₀, h₁, hy⟩ := exists_mean_iff.mpr hbetween
    refine ⟨t, h₀, h₁, mul_left_cancel₀ (sub_ne_zero.mpr hlevel) ?_, hy⟩
    unfold side at hside
    rw [hy] at hside
    linear_combination hside

/-- An edge touches its points, except perhaps its start. -/
theorem touches_or_eq_of_onEdge {s e p : Point K} (h : OnEdge p (s, e)) :
    crossing s e p = .touches ∨ p = s := by
  obtain ⟨t, h₀, h₁, hx, hy⟩ := h
  dsimp only at hx hy
  rcases h₀.eq_or_lt with rfl | hpos
  · rw [sub_zero, one_mul, zero_mul, add_zero] at hx hy
    rcases p with ⟨x, y⟩
    exact .inr (congrArg₂ Point.mk hx hy)
  · have hside : side s e p = 0 := by
      unfold side
      rw [hx, hy]
      ring
    obtain ⟨hlow, hhigh⟩ := exists_mean_iff.mp ⟨t, h₀, h₁, hy⟩
    refine .inl (crossing_eq_touches_iff.mpr
      ⟨hside, exists_mean_iff.mp ⟨t, h₀, h₁, hx⟩, ?_⟩)
    rcases le_or_gt s.y e.y with hup | hdown
    · rw [min_eq_left hup] at hlow
      rw [max_eq_right hup] at hhigh
      exact .inl ⟨hlow, hhigh⟩
    · rw [min_eq_right hdown.le] at hlow
      refine .inr ⟨hlow, ?_⟩
      have hbelow := mul_pos hpos (sub_pos.mpr hdown)
      linarith

omit [IsStrictOrderedRing K] in
/-- An edge touches its end. -/
theorem touches_end (s e : Point K) : crossing s e e = .touches := by
  refine crossing_eq_touches_iff.mpr ⟨?_, ⟨min_le_right _ _, le_max_right _ _⟩, ?_⟩
  · unfold side
    ring
  · exact (le_or_gt s.y e.y).imp (fun h ↦ ⟨h, le_rfl⟩) fun h ↦ ⟨le_rfl, h⟩

/-! ## Closed rings -/

/-- The edges wind around the point, and none of them holds it. -/
def Around (p : Point K) (edges : List (Point K × Point K)) : Prop :=
  (∀ edge ∈ edges, ¬ OnEdge p edge) ∧ (edges.map (turns p)).sum ≠ 0

omit [IsStrictOrderedRing K] in
/-- The order of the edges does not matter. -/
theorem around_perm {p : Point K} {edges edges' : List (Point K × Point K)}
    (h : edges.Perm edges') : Around p edges ↔ Around p edges' := by
  unfold Around
  rw [(h.map (turns p)).sum_eq]
  simp only [h.mem_iff]

/-- Nor does the direction of all of them. -/
theorem around_map_swap {p : Point K} {edges : List (Point K × Point K)} :
    Around p (edges.map Prod.swap) ↔ Around p edges := by
  have hsum : ((edges.map Prod.swap).map (turns p)).sum = -(edges.map (turns p)).sum := by
    induction edges with
    | nil => rfl
    | cons edge edges ih =>
        simp only [List.map_cons, List.sum_cons] at ih ⊢
        rw [ih, turns_swap, neg_add]
  unfold Around
  rw [hsum, neg_ne_zero, List.forall_mem_map]
  simp only [onEdge_swap]

/-- An edge without extent at the start of another one adds nothing. -/
theorem around_concat_self {p v : Point K} {edges : List (Point K × Point K)}
    (h : ∃ edge ∈ edges, edge.1 = v) : Around p (edges ++ [(v, v)]) ↔ Around p edges := by
  obtain ⟨edge, hedge, rfl⟩ := h
  unfold Around
  rw [List.map_append, List.sum_append, List.map_singleton, List.sum_singleton, turns_self,
    add_zero, List.forall_mem_append, List.forall_mem_singleton, onEdge_self]
  refine and_congr_left fun _ ↦ and_iff_left_of_imp fun hall hp ↦ hall edge hedge ?_
  rw [hp]
  exact onEdge_start _ _

/-- Where an edge ends at the start of every edge, a point is touched just if it lies on an edge. -/
theorem exists_touches_iff {p : Point K} {edges : List (Point K × Point K)}
    (hends : ∀ edge ∈ edges, ∃ before ∈ edges, before.2 = edge.1) :
    (∃ edge ∈ edges, crossing edge.1 edge.2 p = .touches) ↔ ∃ edge ∈ edges, OnEdge p edge := by
  constructor
  · rintro ⟨edge, hedge, htouch⟩
    exact ⟨edge, hedge, onEdge_of_touches htouch⟩
  · rintro ⟨edge, hedge, hon⟩
    rcases touches_or_eq_of_onEdge hon with htouch | rfl
    · exact ⟨edge, hedge, htouch⟩
    · -- the start of an edge is touched by the edge before, as its end
      obtain ⟨before, hbefore, hend⟩ := hends edge hedge
      exact ⟨before, hbefore, hend ▸ touches_end _ _⟩

/-- A ring that ends with its first vertex contains what its edges wind around. -/
theorem contains_concat_head_iff {p v : Point K} {rest : List (Point K)} :
    (⟨v :: rest ++ [v]⟩ : Polygon K).contains p = true ↔ Around p (cyclicEdges (v :: rest)) := by
  have hends : ∀ edge ∈ cyclicEdges (v :: rest), ∃ before ∈ cyclicEdges (v :: rest),
      before.2 = edge.1 :=
    fun _ hedge ↦ exists_edge_to (fst_mem_of_mem_cyclicEdges hedge)
  have htouch := exists_touches_iff (p := p) hends
  rw [contains_iff, edges_concat_head]
  unfold Around
  simpa using fun _ ↦ not_congr htouch

omit [IsStrictOrderedRing K] in
/-- Points are at one place when they are equal. -/
theorem samePlace_iff {p q : Point K} : p.samePlace q = true ↔ p = q := by
  obtain ⟨x, y⟩ := p
  obtain ⟨x', y'⟩ := q
  unfold Point.samePlace
  rw [Bool.and_eq_true, beq_iff_eq, beq_iff_eq, Point.mk.injEq]

omit [IsStrictOrderedRing K] in
/-- A closed ring consists of vertices and the first of them, which the given vertices may repeat
already. -/
theorem exists_close_eq {vs : List (Point K)} (h : 2 ≤ vs.length) : ∃ v rest,
    close vs = v :: rest ++ [v] ∧ (vs = v :: rest ∨ vs = v :: rest ++ [v]) := by
  obtain ⟨v, tail, rfl⟩ := List.exists_cons_of_length_pos (Nat.zero_lt_of_lt h)
  have htail : tail ≠ [] := by
    rintro rfl
    simp at h
  obtain ⟨rest, w, rfl⟩ := (List.eq_nil_or_concat tail).resolve_left htail
  rw [List.concat_eq_append]
  by_cases hsame : v.samePlace w = true
  · obtain rfl := samePlace_iff.mp hsame
    exact ⟨v, rest, close_of_samePlace hsame, .inr rfl⟩
  · exact ⟨v, rest ++ [w], close_of_not_samePlace hsame, .inl rfl⟩

/-- A closed polygon contains what the edges between successive vertices wind around. -/
theorem contains_close_iff {vs : List (Point K)} (h : 2 ≤ vs.length) (p : Point K) :
    (⟨close vs⟩ : Polygon K).contains p = true ↔ Around p (cyclicEdges vs) := by
  obtain ⟨v, rest, hclose, rfl | rfl⟩ := exists_close_eq h
  · rw [hclose, contains_concat_head_iff]
  · rw [hclose, contains_concat_head_iff, cyclicEdges_concat_head,
      around_concat_self (exists_edge_from List.mem_cons_self)]

/-- A point lies in the box that the vertices span. -/
def InBox (p : Point K) (vs : List (Point K)) : Prop :=
  (∃ v ∈ vs, v.x ≤ p.x) ∧ (∃ v ∈ vs, p.x ≤ v.x) ∧ (∃ v ∈ vs, v.y ≤ p.y) ∧ ∃ v ∈ vs, p.y ≤ v.y

/-- An edge to the left of the point, above or below it has no turns. -/
theorem turns_eq_zero {s e p : Point K} (h : p.y < s.y ∧ p.y < e.y ∨ s.y < p.y ∧ e.y < p.y ∨
    s.x < p.x ∧ e.x < p.x) : turns p (s, e) = 0 := by
  have hfalse : ∀ a b : Point K, (p.y < a.y ∧ p.y < b.y ∨ a.y < p.y ∧ b.y < p.y ∨
      a.x < p.x ∧ b.x < p.x) → ¬ Rises a b p := by
    rintro a b h ⟨ha, hb, hside⟩
    rcases h with ⟨h, -⟩ | ⟨-, h⟩ | ⟨hax, hbx⟩
    · exact h.not_ge ha
    · exact h.not_gt hb
    · have hfirst := mul_pos (sub_pos.mpr hax) (sub_pos.mpr hb)
      have hsecond := mul_nonneg (sub_nonneg.mpr ha) (sub_pos.mpr hbx).le
      unfold side at hside
      linarith
  rw [turns_eq, if_neg (hfalse s e h), if_neg (hfalse e s (by tauto)), sub_zero]

/-- An edge to the right of the point has the difference of what its ends have alone. -/
theorem turns_eq_of_right {s e p : Point K} (hs : p.x < s.x) (he : p.x < e.x) : turns p (s, e) =
    (if s.y ≤ p.y then 1 else 0) - if e.y ≤ p.y then 1 else 0 := by
  have hrises : ∀ a b : Point K, p.x < a.x → p.x < b.x →
      (Rises a b p ↔ a.y ≤ p.y ∧ ¬ b.y ≤ p.y) := by
    intro a b hax hbx
    rw [not_le]
    refine ⟨fun h ↦ ⟨h.1, h.2.1⟩, fun ⟨ha, hb⟩ ↦ ⟨ha, hb, ?_⟩⟩
    have hfirst := mul_pos (sub_pos.mpr hax) (sub_pos.mpr hb)
    have hsecond := mul_nonneg (sub_nonneg.mpr ha) (sub_pos.mpr hbx).le
    unfold side
    linarith
  rw [turns_eq]
  simp only [hrises s e hs he, hrises e s he hs]
  by_cases hsy : s.y ≤ p.y <;> by_cases hey : e.y ≤ p.y <;> simp [hsy, hey]

/-- Edges do not wind around a point outside the box of their ends. -/
theorem inBox_of_around {p : Point K} {vs : List (Point K)} (h : Around p (cyclicEdges vs)) :
    InBox p vs := by
  have hzero : ∀ P : Point K → Prop, (∀ s e, P s → P e → turns p (s, e) = 0) →
      ∃ v ∈ vs, ¬ P v := by
    intro P hturns
    by_contra! hall
    refine h.2 (List.sum_eq_zero fun n hn ↦ ?_)
    obtain ⟨edge, hedge, rfl⟩ := List.mem_map.mp hn
    exact hturns _ _ (hall _ (fst_mem_of_mem_cyclicEdges hedge))
      (hall _ (snd_mem_of_mem_cyclicEdges hedge))
  refine ⟨?_, ?_, ?_, ?_⟩
  · -- to the left of all vertices, what the starts have cancels with what the ends have
    by_contra! hall
    refine h.2 ((congrArg List.sum (List.map_congr_left fun edge hedge ↦ ?_)).trans
      (sum_cyclicEdges_sub vs fun v ↦ if v.y ≤ p.y then 1 else 0))
    exact turns_eq_of_right (hall _ (fst_mem_of_mem_cyclicEdges hedge))
      (hall _ (snd_mem_of_mem_cyclicEdges hedge))
  · simpa using hzero (·.x < p.x) fun s e hs he ↦ turns_eq_zero (.inr (.inr ⟨hs, he⟩))
  · simpa using hzero (p.y < ·.y) fun s e hs he ↦ turns_eq_zero (.inl ⟨hs, he⟩)
  · simpa using hzero (·.y < p.y) fun s e hs he ↦ turns_eq_zero (.inr (.inl ⟨hs, he⟩))

end Exact

end PlasmaField.Polygon
