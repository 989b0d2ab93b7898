import Mathlib
import PlasmaField.Proofs.Delaunay.Rim
import PlasmaField.Proofs.Delaunay.Walk
import PlasmaField.Proofs.Exact

/-!
# The corners of the triangles

However the tests on circles and triangles answer, the triangles have different corners, which are
numbers of points, and no two have the same set of corners. An insertion keeps this whichever
triangles it removes, `IsSimplicial.replaced`: an edge on the rim of a hole belongs to one triangle
of the hole only, so that no two edges there have the same ends, and the new triangles are told
apart by them. From the triangles before it they are told apart by the new point.

`Mesh.ofPoints?` is the triangulation with given answers of the tests. It finds its cavities by
walks, and stops where a triangle, an edge or a point is missing. It never does stop, and it returns
the points as they were, `Mesh.exists_ofPoints?`. With the answers of the scalars it returns the
triangles of `triangulate`, `Mesh.ofPoints?_ofPoint`.
-/

namespace PlasmaField

/-- The numbers of the corners as a set. -/
def Triangle.cornerSet {α : Type} (t : Triangle α) : Finset ℕ :=
  t.corners.toFinset

namespace Delaunay

variable {α : Type}

/-- Steps that all have a result give the list of their results. -/
theorem mapM_eq_some_map {β γ : Type} {f : β → Option γ} {g : β → γ} {l : List β}
    (h : ∀ b ∈ l, f b = some (g b)) : l.mapM f = some (l.map g) := by
  induction l with
  | nil => rfl
  | cons b l ih =>
      obtain ⟨hb, hl⟩ := List.forall_mem_cons.mp h
      rw [List.mapM_cons, hb, ih hl]
      rfl

/-! ## Edges on a rim -/

/-- No two edges of the rim have the same ends. -/
theorem nodup_rim_undirected (triangles : List (Triangle α)) :
    ((rim triangles).map undirected).Nodup := by
  set keys := (edgesOf triangles).map undirected with hkeys
  have hrim : (rim triangles).map undirected = keys.filter fun key ↦ keys.count key == 1 := by
    rw [hkeys, List.filter_map]
    rfl
  rw [hrim, List.nodup_iff_count_le_one]
  intro key
  by_cases hkey : key ∈ keys.filter fun key ↦ keys.count key == 1
  · have hone : keys.count key = 1 := by simpa using (List.mem_filter.mp hkey).2
    exact (List.filter_sublist.count_le key).trans hone.le
  · rw [List.count_eq_zero.mpr hkey]
    exact zero_le_one

/-- An edge of a triangle with different corners leads from a corner to another one. -/
theorem ends_of_mem_edges {t : Triangle α} (ht : t.corners.Nodup) {e : ℕ × ℕ} (he : e ∈ t.edges) :
    e.1 ∈ t.corners ∧ e.2 ∈ t.corners ∧ e.1 ≠ e.2 := by
  obtain ⟨⟨hab, hac⟩, hbc⟩ : (t.a ≠ t.b ∧ t.a ≠ t.c) ∧ t.b ≠ t.c := by
    simpa [Triangle.corners] using ht
  simp only [Triangle.edges, List.mem_cons, List.not_mem_nil, or_false] at he
  rcases he with rfl | rfl | rfl
  · exact ⟨by simp [Triangle.corners], by simp [Triangle.corners], hab⟩
  · exact ⟨by simp [Triangle.corners], by simp [Triangle.corners], hbc⟩
  · exact ⟨by simp [Triangle.corners], by simp [Triangle.corners], hac.symm⟩

/-- Edges that have the same corners together with a further point have the same ends. -/
theorem undirected_eq_of_insert_eq {e f : ℕ × ℕ} {i : ℕ} (he : e.1 ≠ i ∧ e.2 ≠ i)
    (hf : f.1 ≠ i ∧ f.2 ≠ i) (h : ({e.1, e.2, i} : Finset ℕ) = {f.1, f.2, i}) :
    undirected f = undirected e := by
  have hends : ∀ v ≠ i, v = e.1 ∨ v = e.2 ↔ v = f.1 ∨ v = f.2 := by
    intro v hv
    simpa [hv] using Finset.ext_iff.mp h v
  have he₁ := (hends e.1 he.1).mp (.inl rfl)
  have he₂ := (hends e.2 he.2).mp (.inr rfl)
  have hf₁ := (hends f.1 hf.1).mpr (.inl rfl)
  have hf₂ := (hends f.2 hf.2).mpr (.inr rfl)
  rw [undirected_eq_iff, Prod.ext_iff, Prod.ext_iff, Prod.fst_swap, Prod.snd_swap]
  omega

/-! ## Triangles with different corners -/

/-- The triangles have three different vertices each, and no two have the same ones. -/
structure IsSimplicial (vertex : ℕ → Prop) (triangles : List (Triangle α)) : Prop where
  nodup_corners : ∀ t ∈ triangles, t.corners.Nodup
  vertices : ∀ t ∈ triangles, ∀ i ∈ t.corners, vertex i
  nodup : (triangles.map Triangle.cornerSet).Nodup

namespace IsSimplicial

variable {vertex : ℕ → Prop} {triangles : List (Triangle α)} (h : IsSimplicial vertex triangles)
include h

/-- Some of the triangles, in their order. -/
theorem sublist {part : List (Triangle α)} (hpart : part.Sublist triangles) :
    IsSimplicial vertex part :=
  ⟨fun t ht ↦ h.nodup_corners t (hpart.subset ht), fun t ht ↦ h.vertices t (hpart.subset ht),
    h.nodup.sublist (hpart.map _)⟩

/-- The edges of the triangles lead from a vertex to another one. -/
theorem ends_of_mem_edgesOf {e : ℕ × ℕ} (he : e ∈ edgesOf triangles) :
    vertex e.1 ∧ vertex e.2 ∧ e.1 ≠ e.2 := by
  obtain ⟨t, ht, he⟩ := mem_edgesOf.mp he
  obtain ⟨hfst, hsnd, hne⟩ := ends_of_mem_edges (h.nodup_corners t ht) he
  exact ⟨h.vertices t ht _ hfst, h.vertices t ht _ hsnd, hne⟩

/-- Some of the numbered triangles. -/
theorem part (q : Triangle α × ℕ → Bool) :
    IsSimplicial vertex ((triangles.zipIdx.filter q).map Prod.fst) := by
  have hpart := (List.filter_sublist (p := q) (l := triangles.zipIdx)).map Prod.fst
  rw [List.zipIdx_map_fst] at hpart
  exact h.sublist hpart

variable [Scalar α] {i : ℕ}

/-- The triangles that join the rim of a hole to a new point have different corners, and no two have
the same ones. -/
theorem fan (points : Array (Point α)) (hi : ¬ vertex i) :
    IsSimplicial (fun v ↦ vertex v ∨ v = i)
      ((rim triangles).map fun e ↦ triangleOf points e.1 e.2 i) := by
  have hends : ∀ e ∈ rim triangles, vertex e.1 ∧ vertex e.2 ∧ e.1 ≠ e.2 := fun e he ↦
    h.ends_of_mem_edgesOf (List.mem_filter.mp he).1
  have hnew : ∀ {v}, vertex v → v ≠ i := fun hv heq ↦ hi (heq ▸ hv)
  refine ⟨?_, ?_, ?_⟩
  · rw [List.forall_mem_map]
    intro e he
    obtain ⟨hfst, hsnd, hne⟩ := hends e he
    simpa [Triangle.corners, triangleOf, hne] using ⟨hnew hfst, hnew hsnd⟩
  · rw [List.forall_mem_map]
    intro e he v hv
    obtain ⟨hfst, hsnd, -⟩ := hends e he
    have hcorner : v = e.1 ∨ v = e.2 ∨ v = i := by
      simpa [Triangle.corners, triangleOf] using hv
    rcases hcorner with rfl | rfl | rfl
    · exact .inl hfst
    · exact .inl hsnd
    · exact .inr rfl
  · rw [List.map_map]
    -- the new point is left out on both sides, and edges of the rim are told apart by their ends
    refine (nodup_rim_undirected triangles).of_map.map_on fun e he f hf heq ↦ ?_
    obtain ⟨hefst, hesnd, -⟩ := hends e he
    obtain ⟨hffst, hfsnd, -⟩ := hends f hf
    have hcorners : ({e.1, e.2, i} : Finset ℕ) = {f.1, f.2, i} := by
      simpa [Triangle.cornerSet, Triangle.corners, triangleOf] using heq
    exact (List.inj_on_of_nodup_map (nodup_rim_undirected triangles) hf he
      (undirected_eq_of_insert_eq ⟨hnew hefst, hnew hesnd⟩ ⟨hnew hffst, hnew hfsnd⟩ hcorners)).symm

end IsSimplicial

/-! ## Insertions with any cavity -/

section Replaced

/-- The triangles whose numbers are not those of a hole. -/
def outsideHole (triangles : List (Triangle α)) (hole : List (Triangle α × ℕ)) :
    List (Triangle α) :=
  (triangles.zipIdx.filter fun t ↦ !(hole.map Prod.snd).contains t.2).map Prod.fst

/-- The triangles outside a hole, followed by those that join its rim to point number `i`. -/
def replaced [Scalar α] (points : Array (Point α)) (triangles : List (Triangle α))
    (hole : List (Triangle α × ℕ)) (i : ℕ) : List (Triangle α) :=
  outsideHole triangles hole ++ (rim (hole.map Prod.fst)).map fun e ↦ triangleOf points e.1 e.2 i

variable [Scalar α] {vertex : ℕ → Prop} {triangles : List (Triangle α)} {i : ℕ}

/-- Inserting a point replaces the triangles of its cavity. -/
theorem insert_eq_replaced (points : Array (Point α)) (triangles : List (Triangle α)) (i : ℕ) :
    insert points triangles i =
      replaced points triangles (cavity points triangles.zipIdx (pointAt points i)) i :=
  rfl

/-- Whichever triangles are replaced, those that stay and the new ones have different corners, and
no two have the same ones. -/
theorem IsSimplicial.replaced (h : IsSimplicial vertex triangles) (points : Array (Point α))
    (q : Triangle α × ℕ → Bool) (hi : ¬ vertex i) : IsSimplicial (fun v ↦ vertex v ∨ v = i)
      (replaced points triangles (triangles.zipIdx.filter q) i) := by
  have hkept := h.part fun t ↦ !q t
  have hfan := (h.part q).fan points hi
  rw [Delaunay.replaced, outsideHole, filter_not_contains_number]
  refine ⟨fun t ht ↦ ?_, fun t ht v hv ↦ ?_, ?_⟩
  · rcases List.mem_append.mp ht with ht | ht
    · exact hkept.nodup_corners t ht
    · exact hfan.nodup_corners t ht
  · rcases List.mem_append.mp ht with ht | ht
    · exact .inl (hkept.vertices t ht v hv)
    · exact hfan.vertices t ht v hv
  · rw [List.map_append]
    refine hkept.nodup.append hfan.nodup fun s hs hs' ↦ hi ?_
    -- the new point is a corner of the new triangles only
    obtain ⟨t, ht, rfl⟩ := List.mem_map.mp hs
    obtain ⟨u, hu, hset⟩ := List.mem_map.mp hs'
    obtain ⟨e, -, rfl⟩ := List.mem_map.mp hu
    have hmem : i ∈ t.cornerSet := by
      rw [← hset]
      simp [Triangle.cornerSet, Triangle.corners, triangleOf]
    exact hkept.vertices t ht i (List.mem_toFinset.mp hmem)

end Replaced

/-! ## The triangulation with given answers -/

/-- A triangulation under way, with its points. -/
structure Mesh (α : Type) where
  points : Array (Point α)
  triangles : List (Triangle α)

namespace Mesh

/-- What holds between insertions: the triangles have different corners, no two have the same ones,
and the corners are among the points. -/
structure IsSound (vertex : ℕ → Prop) (m : Mesh α) : Prop where
  simplicial : IsSimplicial vertex m.triangles
  lt_size : ∀ {v}, vertex v → v < m.points.size

/-- The corners of the triangles are among the points. -/
theorem IsSound.corners_lt_size {vertex : ℕ → Prop} {m : Mesh α} (h : IsSound vertex m) :
    ∀ t ∈ m.triangles, ∀ v ∈ t.corners, v < m.points.size :=
  fun t ht v hv ↦ h.lt_size (h.simplicial.vertices t ht v hv)

variable [Scalar α]

/-- The triangle with the given corners, which must be among the points. -/
def triangleOf? (points : Array (Point α)) (i j k : ℕ) : Option (Triangle α) :=
  if i < points.size ∧ j < points.size ∧ k < points.size then some (triangleOf points i j k)
  else none

/-- Removes the triangles of a hole and joins its rim to point number `i`. -/
def replace? (m : Mesh α) (hole : List (Triangle α × ℕ)) (i : ℕ) : Option (Mesh α) :=
  ((rim (hole.map Prod.fst)).mapM fun e ↦ triangleOf? m.points e.1 e.2 i).map fun fan ↦
    ⟨m.points, outsideHole m.triangles hole ++ fan⟩

/-- Inserts point number `i`, which must be there. -/
def insert? (tests : ℕ → Tests α) (m : Mesh α) (i : ℕ) : Option (Mesh α) :=
  if i < m.points.size then
    ((tests i).cavity? m.points m.triangles).bind fun hole ↦ m.replace? hole i
  else none

/-- Adds the corners of the large triangle to the points. -/
def enclose? (points : Array (Point α)) : Option (Mesh α) :=
  let n := points.size
  (triangleOf? (enclosed points) n (n + 1) (n + 2)).map fun t ↦ ⟨enclosed points, [t]⟩

/-- Drops all but the first points, and the triangles that have others as corners. -/
def trim (n : ℕ) (m : Mesh α) : Mesh α :=
  ⟨m.points.take n, m.triangles.filter fun t ↦ t.corners.all (· < n)⟩

/-- The triangles of distinct points with the given answers of the tests. -/
def ofPoints? (tests : ℕ → Tests α) (points : Array (Point α)) : Option (Mesh α) :=
  if points.size < 3 then some ⟨points, []⟩
  else
    (enclose? points).bind fun m ↦
      ((List.range points.size).foldlM (insert? tests) m).map (trim points.size)

namespace IsSound

variable {vertex : ℕ → Prop} {m : Mesh α} (h : IsSound vertex m) {i : ℕ}
include h

/-- The triangles of a hole can be replaced. -/
theorem replace?_eq (q : Triangle α × ℕ → Bool) (hi : i < m.points.size) :
    m.replace? (m.triangles.zipIdx.filter q) i =
      some ⟨m.points, replaced m.points m.triangles (m.triangles.zipIdx.filter q) i⟩ := by
  have hfan : (rim ((m.triangles.zipIdx.filter q).map Prod.fst)).mapM
      (fun e ↦ triangleOf? m.points e.1 e.2 i) =
      some ((rim ((m.triangles.zipIdx.filter q).map Prod.fst)).map fun e ↦
        triangleOf m.points e.1 e.2 i) := by
    refine mapM_eq_some_map fun e he ↦ if_pos ?_
    obtain ⟨hfst, hsnd, -⟩ :=
      (h.simplicial.part q).ends_of_mem_edgesOf (List.mem_filter.mp he).1
    exact ⟨h.lt_size hfst, h.lt_size hsnd, hi⟩
  rw [replace?, hfan]
  rfl

/-- An insertion goes on however the tests answer, and keeps the mesh sound. -/
theorem exists_insert? (tests : ℕ → Tests α) (hi : i < m.points.size) (hnew : ¬ vertex i) :
    ∃ triangles, m.insert? tests i = some ⟨m.points, triangles⟩ ∧
      IsSound (fun v ↦ vertex v ∨ v = i) ⟨m.points, triangles⟩ := by
  obtain ⟨q, hcavity⟩ := (tests i).exists_cavity? h.corners_lt_size
  refine ⟨replaced m.points m.triangles (m.triangles.zipIdx.filter q) i, ?_,
    h.simplicial.replaced m.points q hnew, ?_⟩
  · rw [insert?, if_pos hi, hcavity]
    exact h.replace?_eq q hi
  · rintro v (hv | rfl)
    · exact h.lt_size hv
    · exact hi

/-- With the answers of the scalars an insertion gives the triangles of `insert`. -/
theorem insert?_ofPoint (hi : i < m.points.size) :
    m.insert? (Tests.ofPoint m.points) i = some ⟨m.points, insert m.points m.triangles i⟩ := by
  have hcavity := Tests.cavity?_ofPoint h.corners_lt_size i
  obtain ⟨q, hq⟩ := (Tests.ofPoint m.points i).exists_cavity? h.corners_lt_size
  have hpart : cavity m.points m.triangles.zipIdx (pointAt m.points i) =
      m.triangles.zipIdx.filter q := Option.some.inj (hcavity.symm.trans hq)
  rw [insert?, if_pos hi, hq, insert_eq_replaced, hpart]
  exact h.replace?_eq q hi

variable {k : ℕ} (hk : ∀ i < k, i < m.points.size ∧ ¬ vertex i)
include hk

/-- Insertions go on to the last one however the tests answer, and keep the mesh sound. -/
theorem exists_foldlM (tests : ℕ → Tests α) :
    ∃ triangles, (List.range k).foldlM (insert? tests) m = some ⟨m.points, triangles⟩ ∧
      IsSound (fun v ↦ vertex v ∨ v < k) ⟨m.points, triangles⟩ := by
  induction k with
  | zero => exact ⟨m.triangles, rfl, by simpa using h⟩
  | succ k ih =>
      obtain ⟨triangles, hrun, hsound⟩ := ih fun i hik ↦ hk i (Nat.lt_succ_of_lt hik)
      obtain ⟨hlt, hnew⟩ := hk k (Nat.lt_succ_self k)
      -- the vertices so far are the first ones and the points before `k`
      obtain ⟨triangles', hinsert, hsound'⟩ := hsound.exists_insert? tests hlt (by simpa using hnew)
      refine ⟨triangles', ?_, ?_⟩
      · rw [List.range_succ, List.foldlM_append, hrun]
        simpa using hinsert
      · simpa only [or_assoc, ← Nat.lt_succ_iff_lt_or_eq] using hsound'

/-- With the answers of the scalars the insertions give the triangles of `insert`. -/
theorem foldlM_ofPoint : (List.range k).foldlM (insert? (Tests.ofPoint m.points)) m =
    some ⟨m.points, (List.range k).foldl (insert m.points) m.triangles⟩ := by
  induction k with
  | zero => rfl
  | succ k ih =>
      have hbefore : ∀ i < k, i < m.points.size ∧ ¬ vertex i := fun i hik ↦
        hk i (Nat.lt_succ_of_lt hik)
      obtain ⟨triangles, hrun, hsound⟩ := h.exists_foldlM hbefore (Tests.ofPoint m.points)
      obtain rfl : (List.range k).foldl (insert m.points) m.triangles = triangles :=
        congrArg Mesh.triangles (Option.some.inj ((ih hbefore).symm.trans hrun))
      have hinsert := hsound.insert?_ofPoint (hk k (Nat.lt_succ_self k)).1
      rw [List.range_succ, List.foldlM_append, List.foldl_append, hrun]
      simpa using hinsert

end IsSound

section Enclosed

variable (points : Array (Point α))

/-- The large triangle to begin with. -/
def enclosing : Mesh α :=
  let n := points.size
  ⟨enclosed points, [triangleOf (enclosed points) n (n + 1) (n + 2)]⟩

/-- The corners of the large triangle are there. -/
theorem enclose?_eq : enclose? points = some (enclosing points) := by
  have hsize := size_enclosed points
  have hcorners : points.size < (enclosed points).size ∧ points.size + 1 < (enclosed points).size ∧
      points.size + 2 < (enclosed points).size := by
    omega
  unfold enclose? triangleOf?
  dsimp only
  rw [if_pos hcorners]
  rfl

/-- The large triangle has different corners, which come after the points. -/
theorem isSound_enclosing :
    IsSound (fun v ↦ points.size ≤ v ∧ v < (enclosed points).size) (enclosing points) := by
  refine ⟨⟨?_, ?_, List.nodup_singleton _⟩, And.right⟩
  · simp [enclosing, Triangle.corners, triangleOf]
  · simp [enclosing, Triangle.corners, triangleOf, size_enclosed]

/-- Every point can be inserted into the large triangle as a new one. -/
theorem new_enclosing : ∀ i < points.size, i < (enclosing points).points.size ∧
    ¬ (points.size ≤ i ∧ i < (enclosed points).size) :=
  fun _ hi ↦ ⟨lt_size_enclosed hi, fun h ↦ h.1.not_gt hi⟩

/-- Dropping the corners of the large triangle leaves the points as they were. -/
theorem trim_enclosed (triangles : List (Triangle α)) :
    trim points.size ⟨enclosed points, triangles⟩ =
      ⟨points, triangles.filter fun t ↦ t.corners.all (· < points.size)⟩ := by
  have hpoints : (enclosed points).take points.size = points := by simp [enclosed]
  rw [trim, hpoints]

/-- However the tests answer, the triangulation comes to an end and leaves the points as they were.
The triangles have different points as their corners, and no two have the same ones. -/
theorem exists_ofPoints? (tests : ℕ → Tests α) :
    ∃ triangles, ofPoints? tests points = some ⟨points, triangles⟩ ∧
      IsSimplicial (· < points.size) triangles := by
  unfold ofPoints?
  split
  · exact ⟨[], rfl, by simp, by simp, List.nodup_nil⟩
  · obtain ⟨triangles, hrun, hsound⟩ :=
      (isSound_enclosing points).exists_foldlM (new_enclosing points) tests
    obtain ⟨hcorners, -, hnodup⟩ := hsound.simplicial.sublist
      (List.filter_sublist (p := fun t : Triangle α ↦ t.corners.all (· < points.size)))
    refine ⟨_, ?_, hcorners, fun t ht ↦ ?_, hnodup⟩
    · rw [enclose?_eq, Option.bind_some, hrun, Option.map_some]
      exact congrArg some (trim_enclosed points triangles)
    · simpa using (List.mem_filter.mp ht).2

/-- With the answers of the scalars the triangles are those of `triangulate`. -/
theorem ofPoints?_ofPoint :
    ofPoints? (Tests.ofPoint (enclosed points)) points = some ⟨points, triangulate points⟩ := by
  unfold ofPoints? triangulate
  dsimp only
  split
  · rfl
  · have hrun := (isSound_enclosing points).foldlM_ofPoint (new_enclosing points)
    rw [enclose?_eq, Option.bind_some]
    refine (congrArg (Option.map (trim points.size)) hrun).trans ?_
    exact congrArg some (trim_enclosed points _)

end Enclosed

/-- Whatever the scalars are, the triangulation comes to an end and returns its points as they were.
The triangles have different points as their corners, and no two have the same ones. This holds
however the tests on circles and triangles answer. The walk through the triangles that are marked
visits no triangle twice, and the edges of those it visits are known. -/
theorem triangulation_simplicial (points : Array (Point α)) :
    (ofPoints? (Tests.ofPoint (enclosed points)) points = some ⟨points, triangulate points⟩ ∧
      IsSimplicial (· < points.size) (triangulate points)) ∧
    (∀ tests : ℕ → Tests α, ∃ triangles, ofPoints? tests points = some ⟨points, triangles⟩ ∧
      IsSimplicial (· < points.size) triangles) ∧
    ∀ (tests : Tests α) (triangles : List (Triangle α)), ∀ start ∈ tests.marked triangles,
      ∃ w, (Walk.ofStart triangles.length start.2).run triangles
          (Owners.ofTriangles (tests.marked triangles)) = some w ∧
        w.stack = [] ∧ w.visited.Nodup ∧ ∀ n ∈ w.visited, ∃ t, (t, n) ∈ tests.marked triangles ∧
          ∀ e ∈ t.edges, undirected e ∈ Owners.ofTriangles (tests.marked triangles) := by
  refine ⟨⟨ofPoints?_ofPoint points, ?_⟩, exists_ofPoints? points, ?_⟩
  · obtain ⟨triangles, hsome, hsimplicial⟩ :=
      exists_ofPoints? points (Tests.ofPoint (enclosed points))
    have htriangles : triangulate points = triangles :=
      congrArg Mesh.triangles (Option.some.inj ((ofPoints?_ofPoint points).symm.trans hsome))
    rwa [htriangles]
  · intro tests triangles start hstart
    have hnumbered : ∀ t ∈ tests.marked triangles, t ∈ triangles.zipIdx := fun t ht ↦
      tests.mem_zipIdx_of_mem_marked ht
    obtain ⟨w, hrun, hend, hnodup, -, hvisited⟩ := exists_walk hnumbered hstart
    refine ⟨w, hrun, hend, hnodup, fun n hn ↦ ?_⟩
    obtain ⟨t, ht⟩ := (isPart_component hnumbered hstart).exists_marked ((hvisited n).mp hn)
    refine ⟨t, ht, fun e he ↦ ?_⟩
    obtain ⟨numbers, hnumbers, -⟩ := Owners.exists_getElem? ht he
    exact Std.HashMap.mem_iff_isSome_getElem?.mpr (Option.isSome_of_eq_some hnumbers)

section Square

open scoped Exact

/-- The corners of a square. -/
def square : Array (Point ℚ) :=
  #[⟨0, 0⟩, ⟨1, 0⟩, ⟨1, 1⟩, ⟨0, 1⟩]

/-- The triangles of a square, and the walk through both of them. -/
theorem triangulation_simplicial_square :
    let tests : Tests ℚ := ⟨fun _ ↦ true, fun _ ↦ true⟩
    let triangles := [triangleOf square 0 1 2, triangleOf square 0 2 3]
    let marked := tests.marked triangles
    (triangulate square).map Triangle.corners = [[0, 1, 2], [0, 2, 3]] ∧
      IsSimplicial (· < 4) (triangulate square) ∧ (triangleOf square 0 1 2, 0) ∈ marked ∧
      ∃ w, (Walk.ofStart 2 0).run triangles (Owners.ofTriangles marked) = some w ∧
        w.stack = [] ∧ w.visited.Nodup ∧ ∀ n ∈ w.visited, ∃ t, (t, n) ∈ marked ∧
          ∀ e ∈ t.edges, undirected e ∈ Owners.ofTriangles marked := by
  intro tests triangles marked
  obtain ⟨⟨-, hsimplicial⟩, -, hwalk⟩ := triangulation_simplicial square
  have hstart : (triangleOf square 0 1 2, 0) ∈ marked := List.mem_cons_self
  exact ⟨by decide +kernel, hsimplicial, hstart, hwalk tests triangles _ hstart⟩

end Square

end Mesh

end Delaunay

end PlasmaField
