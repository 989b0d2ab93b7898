import Mathlib
import PlasmaField.Proofs.Delaunay.Cavity
import PlasmaField.Proofs.Delaunay.Rim

/-!
# Insertions into images of triangles

An insertion reads of the triangles only their edges and the answers of two tests, whether a circle
and whether a triangle holds the point. Where other triangles with the same edges give the same
answers, the same of them are kept, and the point is joined to the same edges,
`KeepsTests.exists_insert`.
-/

namespace PlasmaField.Delaunay

section Members

variable {β γ : Type} {g : β → γ}

/-- A test that images pass when the members do picks the images of the same members. -/
theorem filter_images {test : β → Bool} {test' : γ → Bool} {l : List β}
    (h : ∀ t ∈ l, test' (g t) = test t) : (l.map g).filter test' = (l.filter test).map g := by
  rw [List.filter_map]
  exact congrArg _ (List.filter_congr h)

/-- What can be reached by a relation does not depend on what the members are called. -/
theorem component_images {related : β → β → Bool} {related' : γ → γ → Bool}
    (h : ∀ s t, related' (g s) (g t) = related s t) (frontier rest : List β) :
    component related' (frontier.map g) (rest.map g) = (component related frontier rest).map g := by
  have hrelatives : ∀ t (l : List β),
      relatives related' (g t) (l.map g) = (relatives related t l).map g := fun t _ ↦
    filter_images fun u _ ↦ h t u
  have hstrangers : ∀ t (l : List β),
      strangers related' (g t) (l.map g) = (strangers related t l).map g := fun _ _ ↦
    filter_images fun u _ ↦ by rw [h]
  induction frontier, rest using component.induct related with
  | case1 rest =>
      rw [List.map_nil, component, component]
      rfl
  | case2 rest t frontier ih =>
      rw [List.map_cons, component, component, hrelatives, hstrangers, ← List.map_append, ih]
      rfl

end Members

section Edges

variable {α β : Type} {g : Triangle α → Triangle β} (hg : ∀ t, (g t).edges = t.edges)
include hg

/-- Triangles with the edges of given ones have the same rim. -/
theorem rim_images (triangles : List (Triangle α)) : rim (triangles.map g) = rim triangles := by
  have hedges : (triangles.map g).flatMap Triangle.edges = triangles.flatMap Triangle.edges := by
    rw [List.flatMap_map]
    exact congrArg (List.flatMap · triangles) (funext hg)
  unfold rim
  rw [hedges]

/-- Triangles with the edges of given ones have edges in common when those have. -/
theorem adjacent_images (s t : Triangle α) : adjacent (g s) (g t) = adjacent s t := by
  unfold adjacent
  rw [hg, hg]

end Edges

variable {α β : Type} [Scalar α] [Scalar β]

/-- Insertion of point `i` meets the same edges and the same answers at the images of triangles. -/
structure KeepsTests (points : Array (Point α)) (points' : Array (Point β))
    (g : Triangle α → Triangle β) (triangles : List (Triangle α)) (i : ℕ) : Prop where
  edges_eq : ∀ t, (g t).edges = t.edges
  inCircle_eq : ∀ t ∈ triangles,
    inCircle (pointAt points' i) (g t) = inCircle (pointAt points i) t
  holds_eq : ∀ t ∈ triangles,
    holds points' (g t) (pointAt points' i) = holds points t (pointAt points i)

namespace KeepsTests

variable {points : Array (Point α)} {points' : Array (Point β)} {g : Triangle α → Triangle β}
  {triangles : List (Triangle α)} {i : ℕ} (h : KeepsTests points points' g triangles i)
include h

/-- The images of the triangles that are removed are removed. -/
theorem cavity_images {numbered : List (Triangle α × ℕ)}
    (hnumbered : ∀ t ∈ numbered, t.1 ∈ triangles) :
    cavity points' (numbered.map (Prod.map g id)) (pointAt points' i) =
      (cavity points numbered (pointAt points i)).map (Prod.map g id) := by
  have hmarked : (numbered.map (Prod.map g id)).filter
      (fun t ↦ inCircle (pointAt points' i) t.1) =
      (numbered.filter fun t ↦ inCircle (pointAt points i) t.1).map (Prod.map g id) :=
    filter_images fun t ht ↦ h.inCircle_eq t.1 (hnumbered t ht)
  have hmem : ∀ t ∈ numbered.filter fun t ↦ inCircle (pointAt points i) t.1,
      t.1 ∈ triangles := fun t ht ↦ hnumbered t (List.mem_filter.mp ht).1
  unfold cavity
  simp only [hmarked]
  generalize numbered.filter (fun t ↦ inCircle (pointAt points i) t.1) = marked at hmem
  have hfind : marked.find? ((fun t : Triangle β × ℕ ↦
      holds points' t.1 (pointAt points' i)) ∘ Prod.map g id) =
      marked.find? fun t ↦ holds points t.1 (pointAt points i) :=
    List.find?_congr fun t ht ↦ h.holds_eq t.1 (hmem t ht)
  rw [List.find?_map, hfind]
  cases marked.find? fun t ↦ holds points t.1 (pointAt points i) with
  | none => rfl
  | some start =>
      have hrest : (marked.map (Prod.map g id)).filter
          (fun t ↦ t.2 != (Prod.map g id start).2) =
          (marked.filter fun t ↦ t.2 != start.2).map (Prod.map g id) :=
        filter_images fun _ _ ↦ rfl
      have hpart : ∀ frontier rest : List (Triangle α × ℕ),
          component (fun s t ↦ adjacent s.1 t.1) (frontier.map (Prod.map g id))
            (rest.map (Prod.map g id)) =
          (component (fun s t ↦ adjacent s.1 t.1) frontier rest).map (Prod.map g id) :=
        component_images fun s t ↦ adjacent_images h.edges_eq s.1 t.1
      dsimp only [Option.map_some]
      rw [hrest, ← List.map_singleton, hpart]
      refine filter_images fun t _ ↦ ?_
      rw [List.any_map]
      rfl

/-- The same triangles are kept, and the point is joined to the same edges. -/
theorem exists_insert : ∃ (kept : List (Triangle α)) (edges : List (ℕ × ℕ)),
    (∀ t ∈ kept, t ∈ triangles) ∧ (∀ e ∈ edges, e ∈ edgesOf triangles) ∧
    insert points triangles i = kept ++ edges.map (fun e ↦ triangleOf points e.1 e.2 i) ∧
    insert points' (triangles.map g) i =
      kept.map g ++ edges.map fun e ↦ triangleOf points' e.1 e.2 i := by
  have hnumbered : ∀ t ∈ triangles.zipIdx, t.1 ∈ triangles := fun t ht ↦
    List.fst_mem_of_mem_zipIdx ht
  have hnodup : (triangles.zipIdx.map Prod.snd).Nodup := by
    rw [List.zipIdx_map_snd]
    exact List.nodup_range'
  obtain ⟨q, hfilter, -⟩ := cavity_eq_filter points hnodup (pointAt points i)
  have hhole : ∀ t ∈ cavity points triangles.zipIdx (pointAt points i),
      t.1 ∈ triangles := by
    rw [hfilter]
    exact fun t ht ↦ hnumbered t (List.mem_filter.mp ht).1
  refine ⟨_, _, ?kept, ?rim, rfl, ?images⟩
  case kept =>
    intro t ht
    obtain ⟨u, hu, rfl⟩ := List.mem_map.mp ht
    exact hnumbered u (List.mem_filter.mp hu).1
  case rim =>
    intro e he
    obtain ⟨t, ht, he⟩ := mem_edgesOf.mp (List.mem_filter.mp he).1
    obtain ⟨u, hu, rfl⟩ := List.mem_map.mp ht
    exact mem_edgesOf.mpr ⟨u.1, hhole u hu, he⟩
  case images =>
    unfold insert
    simp only [List.zipIdx_map, h.cavity_images hnumbered]
    generalize cavity points triangles.zipIdx (pointAt points i) = hole
    have hremoved : (hole.map (Prod.map g id)).map (·.2) = hole.map (·.2) := by
      rw [List.map_map]
      rfl
    have hfirst : (hole.map (Prod.map g id)).map (·.1) = (hole.map (·.1)).map g := by
      rw [List.map_map, List.map_map]
      rfl
    rw [hremoved, hfirst, rim_images h.edges_eq, List.filter_map, List.map_map, List.map_map]
    rfl

end KeepsTests

end PlasmaField.Delaunay
