import Mathlib
import PlasmaField.Delaunay

/-!
# The cavity of an insertion

Facts about `cavity` and `insert` that hold for any scalars. The triangles are parted into a cavity
and the ones that stay, `exists_isCavity`. All triangles of the cavity have the point in their
circle, and if a triangle outside has it too then the cavity is the part around a triangle that
holds the point, and has no edge in common with the marked triangles outside. The points are
numbered before the corners of the large triangle, `lt_size_enclosed`.
-/

namespace PlasmaField.Delaunay

section Component

variable {β : Type} {related : β → β → Bool} {frontier rest : List β}

/-- A member is related to `t` or is not. -/
theorem mem_relatives_or_strangers (related : β → β → Bool) (t : β) {u : β} (h : u ∈ rest) :
    u ∈ relatives related t rest ∨ u ∈ strangers related t rest := by
  cases hrelated : related t u with
  | true => exact .inl (List.mem_filter.mpr ⟨h, hrelated⟩)
  | false => exact .inr (List.mem_filter.mpr ⟨h, by simp [hrelated]⟩)

/-- The component has the frontier. -/
theorem mem_component_of_mem_frontier {u : β} (h : u ∈ frontier) :
    u ∈ component related frontier rest := by
  induction frontier, rest using component.induct related with
  | case1 rest => cases h
  | case2 rest t frontier ih =>
      rw [component]
      rcases List.mem_cons.mp h with rfl | h
      · exact List.mem_cons_self
      · exact List.mem_cons_of_mem _ (ih (List.mem_append_right _ h))

/-- The component has members of the frontier and of the rest only. -/
theorem mem_of_mem_component {u : β} (h : u ∈ component related frontier rest) :
    u ∈ frontier ∨ u ∈ rest := by
  induction frontier, rest using component.induct related with
  | case1 rest =>
      rw [component] at h
      cases h
  | case2 rest t frontier ih =>
      rw [component] at h
      rcases List.mem_cons.mp h with rfl | h
      · exact .inl List.mem_cons_self
      · rcases ih h with h | h
        · rcases List.mem_append.mp h with h | h
          · exact .inr (List.mem_filter.mp h).1
          · exact .inl (List.mem_cons_of_mem _ h)
        · exact .inr (List.mem_filter.mp h).1

/-- The component has every member of the rest that is related to one of its members. -/
theorem mem_component_of_related {t u : β} (ht : t ∈ component related frontier rest)
    (hu : u ∈ rest) (h : related t u = true) : u ∈ component related frontier rest := by
  induction frontier, rest using component.induct related with
  | case1 rest =>
      rw [component] at ht
      cases ht
  | case2 rest s frontier ih =>
      rw [component] at ht ⊢
      refine List.mem_cons_of_mem _ ?_
      rcases mem_relatives_or_strangers related s hu with hs | hs
      · exact mem_component_of_mem_frontier (List.mem_append_left _ hs)
      · rcases List.mem_cons.mp ht with rfl | ht
        · have hnot := (List.mem_filter.mp hs).2
          simp [h] at hnot
        · exact ih ht hs

/-- What holds of the frontier, and of every member of the rest that is related to a member it holds
of, holds of the component. -/
theorem component_induction {q : β → Prop} (hfrontier : ∀ u ∈ frontier, q u)
    (hrelated : ∀ t u, q t → u ∈ rest → related t u = true → q u) {u : β}
    (hu : u ∈ component related frontier rest) : q u := by
  induction frontier, rest using component.induct related with
  | case1 rest =>
      rw [component] at hu
      cases hu
  | case2 rest t frontier ih =>
      obtain ⟨ht, hfrontier⟩ := List.forall_mem_cons.mp hfrontier
      rw [component] at hu
      rcases List.mem_cons.mp hu with rfl | hu
      · exact ht
      · refine ih (fun s hs ↦ ?_) (fun s v hs hv ↦ hrelated s v hs (List.mem_filter.mp hv).1) hu
        rcases List.mem_append.mp hs with hs | hs
        · obtain ⟨hs, hts⟩ := List.mem_filter.mp hs
          exact hrelated t s ht hs hts
        · exact hfrontier s hs

end Component

/-- A numbered member has its number in a part when it belongs to the part. -/
theorem contains_number {β : Type} {l : List (β × ℕ)} (h : (l.map Prod.snd).Nodup)
    (q : β × ℕ → Bool) {t : β × ℕ} (ht : t ∈ l) :
    ((l.filter q).map Prod.snd).contains t.2 = q t := by
  rw [Bool.eq_iff_iff, List.contains_iff_mem, List.mem_map]
  constructor
  · rintro ⟨u, hu, hnumber⟩
    obtain ⟨hu, hq⟩ := List.mem_filter.mp hu
    rwa [← List.inj_on_of_nodup_map h hu ht hnumber]
  · intro hq
    exact ⟨t, List.mem_filter.mpr ⟨ht, hq⟩, rfl⟩

section Numbered

variable {α : Type} (triangles : List (Triangle α)) (q : Triangle α × ℕ → Bool)

/-- Different triangles have different numbers. -/
theorem nodup_numbers : (triangles.zipIdx.map Prod.snd).Nodup := by
  rw [List.zipIdx_map_snd]
  exact List.nodup_range'

/-- The triangles whose numbers are not those of a part are the triangles outside the part. -/
theorem filter_not_contains_number :
    (triangles.zipIdx.filter fun t ↦ !((triangles.zipIdx.filter q).map Prod.snd).contains t.2) =
      triangles.zipIdx.filter fun t ↦ !q t :=
  List.filter_congr fun t ht ↦ by rw [contains_number (nodup_numbers triangles) q ht]

end Numbered

variable {α : Type} [Scalar α]

/-- The triangles are parted into the cavity `hole` of the point `p` and the triangles `kept`. -/
structure IsCavity (points : Array (Point α)) (p : Point α)
    (triangles hole kept : List (Triangle α)) : Prop where
  perm : (hole ++ kept).Perm triangles
  marked : ∀ t ∈ hole, inCircle p t = true
  closed : (∀ t ∈ kept, inCircle p t = false) ∨
    ∃ start ∈ hole, holds points start p = true ∧
      ∀ t ∈ hole, ∀ u ∈ kept, inCircle p u = true → adjacent t u = false

namespace IsCavity

variable {points : Array (Point α)} {p : Point α} {triangles hole kept : List (Triangle α)}
  (h : IsCavity points p triangles hole kept) {t : Triangle α}
include h

/-- The cavity consists of triangles that were there. -/
theorem mem_of_hole (ht : t ∈ hole) : t ∈ triangles :=
  h.perm.mem_iff.mp (List.mem_append_left _ ht)

/-- The triangles that are kept were there. -/
theorem mem_of_kept (ht : t ∈ kept) : t ∈ triangles :=
  h.perm.mem_iff.mp (List.mem_append_right _ ht)

/-- A triangle is removed or kept. -/
theorem hole_or_kept (ht : t ∈ triangles) : t ∈ hole ∨ t ∈ kept :=
  List.mem_append.mp (h.perm.mem_iff.mpr ht)

end IsCavity

/-- The numbered triangles of a cavity, by a test. -/
theorem cavity_eq_filter (points : Array (Point α)) {numbered : List (Triangle α × ℕ)}
    (hnodup : (numbered.map Prod.snd).Nodup) (p : Point α) :
    ∃ q : Triangle α × ℕ → Bool, cavity points numbered p = numbered.filter q ∧
      (∀ t, q t = true → inCircle p t.1 = true) ∧
      ((∀ t, inCircle p t.1 = true → q t = true) ∨
        ∃ start ∈ numbered, q start = true ∧ holds points start.1 p = true ∧
          ∀ t ∈ numbered, q t = true → ∀ u ∈ numbered, q u = false → inCircle p u.1 = true →
            adjacent t.1 u.1 = false) := by
  cases hfind : (numbered.filter fun t ↦ inCircle p t.1).find? fun t ↦ holds points t.1 p with
  | none =>
      refine ⟨fun t ↦ inCircle p t.1, ?_, fun t h ↦ h, .inl fun t h ↦ h⟩
      unfold cavity
      simp only [hfind]
  | some start =>
      obtain ⟨hstart, hmarked⟩ := List.mem_filter.mp (List.mem_of_find?_eq_some hfind)
      set rest := (numbered.filter fun t ↦ inCircle p t.1).filter fun t ↦ t.2 != start.2 with hrest
      set part := component (fun s t ↦ adjacent s.1 t.1) [start] rest with hpart
      have hstartPart : start ∈ part := mem_component_of_mem_frontier List.mem_cons_self
      have hmem : ∀ t ∈ part, t ∈ numbered ∧ inCircle p t.1 = true := by
        intro t ht
        rcases mem_of_mem_component ht with ht | ht
        · rw [List.mem_singleton.mp ht]
          exact ⟨hstart, hmarked⟩
        · exact List.mem_filter.mp (List.mem_filter.mp ht).1
      -- triangles are told apart by their numbers, and different ones have different numbers
      have hpartIff : ∀ t ∈ numbered, (part.any fun u ↦ u.2 == t.2) = true ↔ t ∈ part := by
        intro t ht
        rw [List.any_eq_true]
        constructor
        · rintro ⟨u, hu, hnumber⟩
          rwa [← List.inj_on_of_nodup_map hnodup (hmem u hu).1 ht (eq_of_beq hnumber)]
        · exact fun ht ↦ ⟨t, ht, beq_self_eq_true t.2⟩
      refine ⟨fun t ↦ (part.any fun u ↦ u.2 == t.2) && inCircle p t.1, ?_, ?_, .inr ?_⟩
      · unfold cavity
        simp only [hfind]
        rw [List.filter_filter]
      · exact fun t h ↦ (Bool.and_eq_true_iff.mp h).2
      · refine ⟨start, hstart, ?_, by simpa using List.find?_some hfind, ?_⟩
        · simp [(hpartIff start hstart).mpr hstartPart, hmarked]
        · intro t ht hqt u hu hqu hmarkedu
          by_contra hadjacent
          have htPart := (hpartIff t ht).mp (Bool.and_eq_true_iff.mp hqt).1
          have huPart : u ∈ part := by
            by_cases hnumber : u.2 = start.2
            · rwa [List.inj_on_of_nodup_map hnodup hu hstart hnumber]
            · refine mem_component_of_related htPart ?_ (by simpa using hadjacent)
              simp [hrest, hu, hmarkedu, hnumber]
          simp [(hpartIff u hu).mpr huPart, hmarkedu] at hqu

/-- An insertion parts the triangles into a cavity and those that are kept, and adds the triangles
that join the rim of the cavity to the point. -/
theorem exists_isCavity (points : Array (Point α)) (triangles : List (Triangle α)) (i : ℕ) :
    ∃ hole kept, IsCavity points (pointAt points i) triangles hole kept ∧
      insert points triangles i = kept ++ (rim hole).map fun e ↦ triangleOf points e.1 e.2 i := by
  obtain ⟨q, hcavity, hmarked, hclosed⟩ :=
    cavity_eq_filter points (nodup_numbers triangles) (pointAt points i)
  refine ⟨(triangles.zipIdx.filter q).map Prod.fst,
    (triangles.zipIdx.filter fun t ↦ !q t).map Prod.fst, ⟨?_, ?_, ?_⟩, ?_⟩
  · have hfst : triangles.zipIdx.map Prod.fst = triangles := List.zipIdx_map_fst 0 triangles
    rw [← List.map_append]
    exact ((List.filter_append_perm q _).map Prod.fst).trans (.of_eq hfst)
  · intro t ht
    obtain ⟨u, hu, rfl⟩ := List.mem_map.mp ht
    exact hmarked u (List.mem_filter.mp hu).2
  · rcases hclosed with hall | ⟨start, hstart, hq, hholds, hclosed⟩
    · left
      intro t ht
      obtain ⟨u, hu, rfl⟩ := List.mem_map.mp ht
      have hnot := (List.mem_filter.mp hu).2
      by_contra hin
      simp [hall u (by simpa using hin)] at hnot
    · right
      refine ⟨start.1, List.mem_map_of_mem (List.mem_filter.mpr ⟨hstart, hq⟩), hholds, ?_⟩
      intro _ ht _ hu hin
      obtain ⟨t, hpart, rfl⟩ := List.mem_map.mp ht
      obtain ⟨u, hrest, rfl⟩ := List.mem_map.mp hu
      obtain ⟨ht, hqt⟩ := List.mem_filter.mp hpart
      obtain ⟨hu, hqu⟩ := List.mem_filter.mp hrest
      exact hclosed t ht hqt u hu (by simpa using hqu) hin
  · unfold insert
    simp only [hcavity]
    rw [filter_not_contains_number]

/-- The points are followed by three corners. -/
theorem size_enclosed (points : Array (Point α)) : (enclosed points).size = points.size + 3 := by
  simp [enclosed]

/-- The number of a point is one of the enclosed points. -/
theorem lt_size_enclosed {points : Array (Point α)} {i : ℕ} (hi : i < points.size) :
    i < (enclosed points).size := by
  rw [size_enclosed]
  omega

end PlasmaField.Delaunay
