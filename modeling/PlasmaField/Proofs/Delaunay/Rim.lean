import Mathlib
import PlasmaField.Delaunay

/-!
# The rim of a set of triangles

A quantity on edges that changes its sign with the direction of the edge can be added over the edges
of many triangles. Edges that two triangles pass in opposite directions cancel, so that only the rim
contributes, `rim_sum`, provided that no directed edge occurs twice.
-/

namespace PlasmaField.Delaunay

variable {α M : Type} [AddCommGroup M]

/-- A quantity on directed edges that changes its sign with the direction. -/
def Alternating (w : ℕ → ℕ → M) : Prop :=
  ∀ i j, w j i = -w i j

/-- The sum of a quantity over the edges of a triangle. -/
def boundary (w : ℕ → ℕ → M) (t : Triangle α) : M :=
  w t.a t.b + w t.b t.c + w t.c t.a

/-- The directed edges of a list of triangles. -/
def edgesOf (triangles : List (Triangle α)) : List (ℕ × ℕ) :=
  triangles.flatMap Triangle.edges

/-- The edges of the triangles are those that a triangle has. -/
theorem mem_edgesOf {triangles : List (Triangle α)} {e : ℕ × ℕ} :
    e ∈ edgesOf triangles ↔ ∃ t ∈ triangles, e ∈ t.edges :=
  List.mem_flatMap

/-- The edges of some of the triangles are some of the edges. -/
theorem edgesOf_sublist {s t : List (Triangle α)} (h : s.Sublist t) :
    (edgesOf s).Sublist (edgesOf t) :=
  h.flatMap Triangle.edges

/-- The order of the triangles only matters to the order of the edges. -/
theorem edgesOf_perm {s t : List (Triangle α)} (h : s.Perm t) : (edgesOf s).Perm (edgesOf t) :=
  h.flatMap_right _

/-- The sum over the triangles is the sum over the edges. -/
theorem sum_boundary (w : ℕ → ℕ → M) (triangles : List (Triangle α)) :
    (triangles.map (boundary w)).sum = ((edgesOf triangles).map fun e ↦ w e.1 e.2).sum := by
  induction triangles with
  | nil => rfl
  | cons t rest ih =>
      have hcons : edgesOf (t :: rest) = t.edges ++ edgesOf rest := rfl
      rw [List.map_cons, List.sum_cons, ih, hcons, List.map_append, List.sum_append]
      simp only [Triangle.edges, boundary, List.map_cons, List.map_nil, List.sum_cons,
        List.sum_nil]
      abel

/-- Two edges have the same ends when they are equal or opposite. -/
theorem undirected_eq_iff (e f : ℕ × ℕ) :
    undirected f = undirected e ↔ f = e ∨ f = e.swap := by
  rcases e with ⟨i, j⟩
  rcases f with ⟨k, l⟩
  simp only [undirected, Prod.mk.injEq, Prod.swap]
  omega

/-- The edges of a list with the ends of a given edge. -/
theorem count_undirected {edges : List (ℕ × ℕ)} {e : ℕ × ℕ} (hne : e ≠ e.swap) :
    (edges.map undirected).count (undirected e) = edges.count e + edges.count e.swap := by
  induction edges with
  | nil => rfl
  | cons f rest ih =>
      rw [List.map_cons, List.count_cons, List.count_cons, List.count_cons, ih]
      have hiff := undirected_eq_iff e f
      by_cases hf : f = e
      · subst hf
        simp [hne]
        omega
      · by_cases hf' : f = e.swap
        · subst hf'
          simp [hiff, hne.symm]
          omega
        · simp [hiff, hf, hf']

/-- The corners of a triangle run around it, from some corner on. -/
def Turned (t : Triangle α) (i j k : ℕ) : Prop :=
  (t.a = i ∧ t.b = j ∧ t.c = k) ∨ (t.b = i ∧ t.c = j ∧ t.a = k) ∨ (t.c = i ∧ t.a = j ∧ t.b = k)

/-- The corners are met in their order. -/
theorem turned_self (t : Triangle α) : Turned t t.a t.b t.c :=
  .inl ⟨rfl, rfl, rfl⟩

/-- The next corner may be met first. -/
theorem Turned.rotate {t : Triangle α} {i j k : ℕ} (h : Turned t i j k) : Turned t j k i := by
  rcases h with ⟨rfl, rfl, rfl⟩ | ⟨rfl, rfl, rfl⟩ | ⟨rfl, rfl, rfl⟩
  · exact .inr (.inl ⟨rfl, rfl, rfl⟩)
  · exact .inr (.inr ⟨rfl, rfl, rfl⟩)
  · exact .inl ⟨rfl, rfl, rfl⟩

/-- The edges of a triangle lead from a corner to the next one. -/
theorem mem_edges_iff {t : Triangle α} {i j : ℕ} :
    (i, j) ∈ t.edges ↔ ∃ k, Turned t i j k := by
  simp only [Triangle.edges, Turned, List.mem_cons, Prod.mk.injEq, List.not_mem_nil, or_false]
  constructor
  · rintro (⟨rfl, rfl⟩ | ⟨rfl, rfl⟩ | ⟨rfl, rfl⟩)
    · exact ⟨t.c, .inl ⟨rfl, rfl, rfl⟩⟩
    · exact ⟨t.a, .inr (.inl ⟨rfl, rfl, rfl⟩)⟩
    · exact ⟨t.b, .inr (.inr ⟨rfl, rfl, rfl⟩)⟩
  · rintro ⟨k, ⟨rfl, rfl, -⟩ | ⟨rfl, rfl, -⟩ | ⟨rfl, rfl, -⟩⟩
    · exact .inl ⟨rfl, rfl⟩
    · exact .inr (.inl ⟨rfl, rfl⟩)
    · exact .inr (.inr ⟨rfl, rfl⟩)

/-- The corners that are met are those of the triangle. -/
theorem Turned.mem_corners_iff {t : Triangle α} {i j k v : ℕ} (h : Turned t i j k) :
    v ∈ t.corners ↔ v = i ∨ v = j ∨ v = k := by
  simp only [Triangle.corners, List.mem_cons, List.not_mem_nil, or_false]
  rcases h with ⟨rfl, rfl, rfl⟩ | ⟨rfl, rfl, rfl⟩ | ⟨rfl, rfl, rfl⟩ <;> tauto

/-- The corners that are met belong to the triangle. -/
theorem Turned.mem_corners {t : Triangle α} {i j k : ℕ} (h : Turned t i j k) :
    i ∈ t.corners ∧ j ∈ t.corners ∧ k ∈ t.corners :=
  ⟨h.mem_corners_iff.mpr (.inl rfl), h.mem_corners_iff.mpr (.inr (.inl rfl)),
    h.mem_corners_iff.mpr (.inr (.inr rfl))⟩

/-- The corners may be met from any one on. -/
theorem Turned.sum_eq {t : Triangle α} {i j k : ℕ} (h : Turned t i j k) (w : ℕ → ℕ → M) :
    boundary w t = w i j + w j k + w k i := by
  rcases h with ⟨rfl, rfl, rfl⟩ | ⟨rfl, rfl, rfl⟩ | ⟨rfl, rfl, rfl⟩
  · rfl
  · unfold boundary
    abel
  · unfold boundary
    abel

/-- Triangles that pass an edge in opposite directions have it in common. -/
theorem adjacent_of_mem {s t : Triangle α} {i j : ℕ} (hs : (i, j) ∈ s.edges)
    (ht : (j, i) ∈ t.edges) : adjacent s t = true := by
  refine List.any_eq_true.mpr ⟨_, hs, List.any_eq_true.mpr ⟨_, ht, beq_iff_eq.mpr ?_⟩⟩
  rw [undirected_eq_iff]
  exact .inr rfl

/-- One edge counts as one, and its opposite as minus one. -/
def indicator (e : ℕ × ℕ) (i j : ℕ) : ℤ :=
  (if (i, j) = e then 1 else 0) - (if (j, i) = e then 1 else 0)

/-- Counting an edge against its opposite changes the sign with the direction. -/
theorem alternating_indicator (e : ℕ × ℕ) : Alternating (indicator e) := by
  intro i j
  unfold indicator
  ring

/-- Counting an edge against its opposite. -/
theorem sum_indicator (e : ℕ × ℕ) (edges : List (ℕ × ℕ)) :
    (edges.map fun f ↦ indicator e f.1 f.2).sum = edges.count e - edges.count e.swap := by
  induction edges with
  | nil => rfl
  | cons f rest ih =>
      have hswap : (f.2, f.1) = e ↔ f = e.swap := by
        rw [← Prod.swap_inj]
        rfl
      rw [List.map_cons, List.sum_cons, ih, List.count_cons, List.count_cons]
      unfold indicator
      simp only [Prod.mk.eta, hswap, beq_iff_eq]
      push_cast
      ring

section Simple

variable {triangles : List (Triangle α)} (hnodup : (edgesOf triangles).Nodup)
  (hloop : ∀ e ∈ edgesOf triangles, e.1 ≠ e.2)
include hnodup hloop

/-- The rim consists of the edges that no triangle passes in the opposite direction. -/
theorem mem_rim {e : ℕ × ℕ} :
    e ∈ rim triangles ↔ e ∈ edgesOf triangles ∧ e.swap ∉ edgesOf triangles := by
  have hrim : rim triangles = (edgesOf triangles).filter fun e ↦
      ((edgesOf triangles).map undirected).count (undirected e) == 1 := rfl
  rw [hrim, List.mem_filter]
  refine and_congr_right fun he ↦ ?_
  have hne : e ≠ e.swap := fun h ↦ hloop e he (congrArg Prod.fst h)
  rw [count_undirected hne, hnodup.count, hnodup.count, if_pos he]
  split <;> simp [*]

/-- Only the rim contributes to the sum over all edges. -/
theorem rim_sum {w : ℕ → ℕ → M} (hw : Alternating w) :
    ((rim triangles).map fun e ↦ w e.1 e.2).sum =
      ((edgesOf triangles).map fun e ↦ w e.1 e.2).sum := by
  have hrim : (rim triangles).Nodup := hnodup.filter _
  have hfinset : (rim triangles).toFinset =
      (edgesOf triangles).toFinset.filter fun e ↦ ¬e.swap ∈ edgesOf triangles := by
    ext e
    rw [List.mem_toFinset, mem_rim hnodup hloop, Finset.mem_filter, List.mem_toFinset]
  rw [← List.sum_toFinset _ hrim, ← List.sum_toFinset _ hnodup, hfinset,
    ← Finset.sum_filter_add_sum_filter_not (edgesOf triangles).toFinset
      (fun e ↦ e.swap ∈ edgesOf triangles), right_eq_add]
  refine Finset.sum_involution (fun e _ ↦ e.swap) ?_ ?_ ?_ ?_
  · intro e _
    rw [Prod.fst_swap, Prod.snd_swap, hw e.1 e.2, add_neg_cancel]
  · intro e he _ hswap
    exact hloop e (List.mem_toFinset.mp (Finset.mem_filter.mp he).1) (congrArg Prod.snd hswap)
  · intro e he
    rw [Finset.mem_filter, List.mem_toFinset] at he ⊢
    exact ⟨he.2, by rw [Prod.swap_swap]; exact he.1⟩
  · intro e _
    exact Prod.swap_swap e

/-- Triangles that join the rim to a point have the same sum as the triangles that they replace. -/
theorem sum_boundary_fan {w : ℕ → ℕ → M} (hw : Alternating w) (k : ℕ)
    {fan : ℕ × ℕ → Triangle α} (hfan : ∀ e, (fan e).a = e.1 ∧ (fan e).b = e.2 ∧ (fan e).c = k) :
    (((rim triangles).map fan).map (boundary w)).sum = (triangles.map (boundary w)).sum := by
  -- the edges at the point cancel, so that they may be counted with the edge opposite to it
  have hjoined : Alternating fun i j ↦ w i j + w j k + w k i := by
    intro i j
    show w j i + w i k + w k j = -(w i j + w j k + w k i)
    rw [hw i j, hw i k, hw j k]
    abel
  have hfanned : boundary w ∘ fan = fun e ↦ w e.1 e.2 + w e.2 k + w k e.1 := by
    funext e
    obtain ⟨ha, hb, hc⟩ := hfan e
    simp [boundary, ha, hb, hc]
  have hsame : boundary (α := α) (fun i j ↦ w i j + w j k + w k i) = boundary w := by
    funext t
    show (w t.a t.b + w t.b k + w k t.a) + (w t.b t.c + w t.c k + w k t.b)
      + (w t.c t.a + w t.a k + w k t.c) = w t.a t.b + w t.b t.c + w t.c t.a
    rw [hw t.a k, hw t.b k, hw t.c k]
    abel
  calc (((rim triangles).map fan).map (boundary w)).sum
      = ((rim triangles).map fun e ↦ w e.1 e.2 + w e.2 k + w k e.1).sum := by
        rw [List.map_map, hfanned]
    _ = ((edgesOf triangles).map fun e ↦ w e.1 e.2 + w e.2 k + w k e.1).sum :=
        rim_sum hnodup hloop hjoined
    _ = (triangles.map (boundary fun i j ↦ w i j + w j k + w k i)).sum :=
        (sum_boundary (fun i j ↦ w i j + w j k + w k i) triangles).symm
    _ = (triangles.map (boundary w)).sum := by rw [hsame]

end Simple

end PlasmaField.Delaunay
