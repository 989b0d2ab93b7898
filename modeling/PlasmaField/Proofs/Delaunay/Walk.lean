import Mathlib
import PlasmaField.Proofs.Delaunay.Cavity

/-!
# The walk through a cavity

The part of the marked triangles around a first one is found here step by step, with a stack of
triangles whose neighbours are still to be looked at, a flag for every triangle that was reached,
and a map from edges to the marked triangles there. Such a walk could go wrong: a triangle's number
or an edge might be missing, and `Walk.run` has no result then.

It never does, whichever triangles are marked, and it takes every triangle off the stack at most
once, `IsPart.exists_run`. The triangles that are reached are those of the component, `exists_walk`.
So however the tests on circles and triangles answer, a cavity is found, `Tests.exists_cavity?`, and
with the answers of the scalars it is that of the insertion, `Tests.cavity?_ofPoint`.
-/

namespace PlasmaField.Delaunay

variable {α : Type}

/-! ## The triangles at the edges -/

/-- The numbers of the triangles at each edge. -/
abbrev Owners := Std.HashMap (ℕ × ℕ) (List ℕ)

namespace Owners

/-- Adds a triangle's number at an edge. -/
def add (n : ℕ) (owners : Owners) (e : ℕ × ℕ) : Owners :=
  Std.HashMap.alter owners (undirected e) fun numbers ↦ some (numbers.getD [] ++ [n])

/-- Adds a numbered triangle at its edges. -/
def addTriangle (owners : Owners) (t : Triangle α × ℕ) : Owners :=
  t.1.edges.foldl (add t.2) owners

/-- The numbered triangles at their edges. -/
def ofTriangles (triangles : List (Triangle α × ℕ)) : Owners :=
  triangles.foldl addTriangle ∅

/-- A number is listed at an edge. -/
def Lists (owners : Owners) (key : ℕ × ℕ) (n : ℕ) : Prop :=
  ∃ numbers, owners[key]? = some numbers ∧ n ∈ numbers

/-- Adding a number at an edge lists it there. -/
theorem lists_add {owners : Owners} {n m : ℕ} {e key : ℕ × ℕ} :
    (add n owners e).Lists key m ↔ owners.Lists key m ∨ (undirected e = key ∧ m = n) := by
  unfold Lists add
  rw [Std.HashMap.getElem?_alter]
  by_cases hkey : undirected e = key
  · subst hkey
    cases hget : owners[undirected e]? <;> simp
  · simp [hkey]

/-- Adding a triangle lists its number at its edges. -/
theorem lists_addTriangle {owners : Owners} {t : Triangle α × ℕ} {key : ℕ × ℕ} {m : ℕ} :
    (addTriangle owners t).Lists key m ↔
      owners.Lists key m ∨ ((∃ e ∈ t.1.edges, undirected e = key) ∧ m = t.2) := by
  unfold addTriangle
  generalize t.1.edges = edges
  induction edges generalizing owners with
  | nil => simp
  | cons e edges ih =>
      rw [List.foldl_cons, ih, lists_add]
      simp only [List.mem_cons, exists_eq_or_imp]
      tauto

/-- The numbers that are listed at an edge are those of the triangles with the edge. -/
theorem lists_ofTriangles {triangles : List (Triangle α × ℕ)} {key : ℕ × ℕ} {m : ℕ} :
    (ofTriangles triangles).Lists key m ↔
      ∃ t, (t, m) ∈ triangles ∧ ∃ e ∈ t.edges, undirected e = key := by
  have hfold : ∀ owners : Owners, (triangles.foldl addTriangle owners).Lists key m ↔
      owners.Lists key m ∨ ∃ t, (t, m) ∈ triangles ∧ ∃ e ∈ t.edges, undirected e = key := by
    induction triangles with
    | nil => simp
    | cons t triangles ih =>
        intro owners
        rw [List.foldl_cons, ih, lists_addTriangle, or_assoc]
        refine or_congr_right ?_
        constructor
        · rintro (⟨hedge, rfl⟩ | ⟨u, hu, hedge⟩)
          · exact ⟨t.1, List.mem_cons_self, hedge⟩
          · exact ⟨u, List.mem_cons_of_mem _ hu, hedge⟩
        · rintro ⟨u, hu, hedge⟩
          rcases List.mem_cons.mp hu with rfl | hu
          · exact .inl ⟨hedge, rfl⟩
          · exact .inr ⟨u, hu, hedge⟩
  refine (hfold ∅).trans (or_iff_right ?_)
  rintro ⟨numbers, hget, -⟩
  simp at hget

/-- At an edge of a triangle the numbers of all triangles with the edge are found. -/
theorem exists_getElem? {triangles : List (Triangle α × ℕ)} {t : Triangle α × ℕ}
    (ht : t ∈ triangles) {e : ℕ × ℕ} (he : e ∈ t.1.edges) :
    ∃ numbers, (ofTriangles triangles)[undirected e]? = some numbers ∧
      ∀ m, m ∈ numbers ↔
        ∃ u, (u, m) ∈ triangles ∧ ∃ f ∈ u.edges, undirected f = undirected e := by
  obtain ⟨numbers, hget, -⟩ : (ofTriangles triangles).Lists (undirected e) t.2 :=
    lists_ofTriangles.mpr ⟨t.1, ht, e, he, rfl⟩
  refine ⟨numbers, hget, fun m ↦ ?_⟩
  rw [← lists_ofTriangles]
  constructor
  · exact fun hm ↦ ⟨numbers, hget, hm⟩
  · rintro ⟨numbers', hget', hm⟩
    rwa [Option.some.inj (hget.symm.trans hget')]

end Owners

/-! ## Walks -/

/-- A walk under way: for every triangle whether it was reached, the numbers of the triangles whose
neighbours are still to be looked at, and those of the triangles that were visited, the last one
first. -/
structure Walk where
  reached : List Bool
  stack : List ℕ
  visited : List ℕ

namespace Walk

/-- The walk among the given number of triangles that is about to visit its first one. -/
def ofStart (count start : ℕ) : Walk :=
  ⟨(List.replicate count false).set start true, [start], []⟩

/-- Puts a triangle on the stack when it is reached for the first time. There must be a triangle
with the number. -/
def reach (w : Walk) (n : ℕ) : Option Walk :=
  match w.reached[n]? with
  | some true => some w
  | some false => some { w with reached := w.reached.set n true, stack := n :: w.stack }
  | none => none

/-- Reaches the triangles at an edge, which must be known. -/
def cross (owners : Owners) (w : Walk) (e : ℕ × ℕ) : Option Walk :=
  owners[undirected e]?.bind fun numbers ↦ numbers.foldlM reach w

/-- Takes a triangle off the stack, of which `rest` remains, and reaches the triangles at its
edges. -/
def visit (triangles : List (Triangle α)) (owners : Owners) (w : Walk) (n : ℕ) (rest : List ℕ) :
    Option Walk :=
  triangles[n]?.bind fun t ↦ t.edges.foldlM (cross owners) ⟨w.reached, rest, n :: w.visited⟩

/-- The number of triangles that are yet to be visited at most. -/
def pending (w : Walk) : ℕ :=
  w.reached.count false + w.stack.length

/-- What every step keeps is kept by a sequence of steps. -/
theorem foldlM_keeps {β γ δ : Type} {f : β → γ → Option β} {g : β → δ}
    (hf : ∀ b c b', f b c = some b' → g b' = g b) {l : List γ} {b b' : β}
    (h : l.foldlM f b = some b') : g b' = g b := by
  induction l generalizing b with
  | nil => rw [Option.some.inj h]
  | cons c l ih =>
      obtain ⟨next, hnext, hrest⟩ := Option.bind_eq_some_iff.mp h
      exact (ih hrest).trans (hf _ _ _ hnext)

/-- A triangle that is put on the stack is no longer unreached. -/
theorem pending_reach {w w' : Walk} {n : ℕ} (h : w.reach n = some w') : w'.pending = w.pending := by
  unfold reach at h
  split at h
  next => rw [Option.some.inj h]
  next hfalse =>
    obtain ⟨hn, hvalue⟩ := List.getElem?_eq_some_iff.mp hfalse
    obtain rfl := Option.some.inj h
    have hcount : 0 < w.reached.count false :=
      List.count_pos_iff.mpr (List.mem_of_getElem? hfalse)
    have hset : (w.reached.set n true).count false = w.reached.count false - 1 := by
      rw [List.count_set hn, hvalue]
      rfl
    unfold pending
    rw [hset, List.length_cons]
    omega
  next => cases h

/-- A visit leaves one triangle less to be visited. -/
theorem pending_visit {triangles : List (Triangle α)} {owners : Owners} {w w' : Walk} {n : ℕ}
    {rest : List ℕ} (hstack : w.stack = n :: rest) (h : visit triangles owners w n rest = some w') :
    w'.pending < w.pending := by
  obtain ⟨t, -, hedges⟩ := Option.bind_eq_some_iff.mp h
  have hpending := foldlM_keeps (g := pending) (fun w e w' hcross ↦ by
    obtain ⟨numbers, -, hnumbers⟩ := Option.bind_eq_some_iff.mp hcross
    exact foldlM_keeps (fun _ _ _ ↦ pending_reach) hnumbers) hedges
  have hlength : w.stack.length = rest.length + 1 := congrArg List.length hstack
  calc w'.pending = w.reached.count false + rest.length := hpending
    _ < w.reached.count false + w.stack.length := by omega

/-- Visits triangles until the stack is empty. -/
def run (triangles : List (Triangle α)) (owners : Owners) (w : Walk) : Option Walk :=
  match _ : w.stack with
  | [] => some w
  | n :: rest =>
    match _ : visit triangles owners w n rest with
    | none => none
    | some w' => run triangles owners w'
termination_by w.pending
decreasing_by exact pending_visit ‹_› ‹_›

section Run

variable {triangles : List (Triangle α)} {owners : Owners} {w w' : Walk}

/-- With an empty stack the walk is at its end. -/
theorem run_of_nil (hstack : w.stack = []) : run triangles owners w = some w := by
  rw [run]
  split
  next => rfl
  next hcons => cases hstack.symm.trans hcons

/-- After a visit the walk is run from there. -/
theorem run_of_cons {n : ℕ} {rest : List ℕ} (hstack : w.stack = n :: rest)
    (hvisit : visit triangles owners w n rest = some w') :
    run triangles owners w = run triangles owners w' := by
  rw [run]
  split
  next hnil => cases hstack.symm.trans hnil
  next m tail hcons =>
    obtain ⟨rfl, rfl⟩ := List.cons.inj (hstack.symm.trans hcons)
    split
    next hnone => cases hvisit.symm.trans hnone
    next next hnext => rw [Option.some.inj (hvisit.symm.trans hnext)]

end Run

/-! ## What a walk keeps -/

/-- The triangle was reached. -/
def Reaches (w : Walk) (n : ℕ) : Prop :=
  w.reached[n]? = some true

/-- What holds at all times: the triangles that were reached are those that were visited and those
on the stack, all of them different, and they belong to a given part. -/
structure Sound (part : ℕ → Prop) (count : ℕ) (w : Walk) : Prop where
  length : w.reached.length = count
  reaches_iff : ∀ n, w.Reaches n ↔ n ∈ w.visited ∨ n ∈ w.stack
  nodup : (w.visited ++ w.stack).Nodup
  part : ∀ n, w.Reaches n → part n

/-- The second walk has visited as much as the first one, and has also reached what was found. -/
structure Extends (found : ℕ → Prop) (w w' : Walk) : Prop where
  visited : w'.visited = w.visited
  reaches_iff : ∀ n, w'.Reaches n ↔ w.Reaches n ∨ found n

section Steps

variable {part : ℕ → Prop} {count n : ℕ} {w : Walk}

/-- The first triangle is on the stack. -/
theorem sound_ofStart (hn : n < count) (hpart : part n) : Sound part count (ofStart count n) := by
  have hreaches : ∀ m, (ofStart count n).Reaches m ↔ m = n := by
    intro m
    unfold Reaches ofStart
    rw [List.getElem?_set, List.length_replicate, if_pos hn, List.getElem?_replicate]
    split <;> simp_all [eq_comm]
  refine ⟨by simp [ofStart], fun m ↦ ?_, by simp [ofStart], fun m hm ↦ ?_⟩
  · rw [hreaches]
    simp [ofStart]
  · rwa [(hreaches m).mp hm]

/-- A triangle of the part is reached. -/
theorem Sound.exists_reach (h : Sound part count w) (hn : n < count) (hpart : part n) :
    ∃ w', w.reach n = some w' ∧ Sound part count w' ∧ Extends (· = n) w w' := by
  have hlength : n < w.reached.length := h.length ▸ hn
  cases hvalue : w.reached[n] with
  | true =>
      have hget : w.reached[n]? = some true := List.getElem?_eq_some_iff.mpr ⟨hlength, hvalue⟩
      refine ⟨w, by simp only [reach, hget], h, rfl, fun m ↦ (or_iff_left_of_imp ?_).symm⟩
      rintro rfl
      exact hget
  | false =>
      have hget : w.reached[n]? = some false := List.getElem?_eq_some_iff.mpr ⟨hlength, hvalue⟩
      have hunreached : n ∉ w.visited ++ w.stack := by
        rw [List.mem_append, ← h.reaches_iff]
        simp [Reaches, hget]
      have hreaches : ∀ m, ({ w with reached := w.reached.set n true, stack := n :: w.stack } :
          Walk).Reaches m ↔ w.Reaches m ∨ m = n := by
        intro m
        unfold Reaches
        rw [List.getElem?_set, if_pos hlength]
        by_cases hm : n = m
        · simp [hm]
        · simp [hm, Ne.symm hm]
      refine ⟨{ w with reached := w.reached.set n true, stack := n :: w.stack },
        by simp only [reach, hget], ⟨by simpa using h.length, fun m ↦ ?_, ?_, fun m hm ↦ ?_⟩, rfl,
        hreaches⟩
      · rw [hreaches, h.reaches_iff, List.mem_cons]
        tauto
      · exact List.nodup_middle.mpr (List.nodup_cons.mpr ⟨hunreached, h.nodup⟩)
      · rcases (hreaches m).mp hm with hm | rfl
        · exact h.part m hm
        · exact hpart

/-- Steps that all go on find together what each of them finds. -/
theorem Sound.exists_foldlM {γ : Type} {f : Walk → γ → Option Walk} {found : γ → ℕ → Prop}
    {l : List γ} (hf : ∀ w, Sound part count w → ∀ c ∈ l,
      ∃ w', f w c = some w' ∧ Sound part count w' ∧ Extends (found c) w w')
    (h : Sound part count w) : ∃ w', l.foldlM f w = some w' ∧ Sound part count w' ∧
      Extends (fun n ↦ ∃ c ∈ l, found c n) w w' := by
  induction l generalizing w with
  | nil => exact ⟨w, rfl, h, rfl, by simp⟩
  | cons c l ih =>
      obtain ⟨next, hnext, hsound, hextends⟩ := hf w h c List.mem_cons_self
      obtain ⟨w', hrest, hsound', hextends'⟩ :=
        ih (fun w hw c hc ↦ hf w hw c (List.mem_cons_of_mem _ hc)) hsound
      refine ⟨w', ?_, hsound', hextends'.visited.trans hextends.visited, fun n ↦ ?_⟩
      · rw [List.foldlM_cons, hnext]
        exact hrest
      · rw [hextends'.reaches_iff, hextends.reaches_iff, or_assoc]
        simp only [List.mem_cons, exists_eq_or_imp]

end Steps

end Walk

/-! ## The walk through a part of the marked triangles -/

/-- The part of the marked triangles that has all neighbours of its triangles. The marked triangles
have their numbers in the whole list. -/
structure IsPart (triangles : List (Triangle α)) (marked : List (Triangle α × ℕ))
    (part : ℕ → Prop) : Prop where
  numbered : ∀ {t n}, (t, n) ∈ marked → triangles[n]? = some t
  exists_marked : ∀ {n}, part n → ∃ t, (t, n) ∈ marked
  closed : ∀ {t n u m}, (t, n) ∈ marked → part n → (u, m) ∈ marked → adjacent t u = true → part m

namespace IsPart

open Walk (Reaches Sound Extends)

variable {triangles : List (Triangle α)} {marked : List (Triangle α × ℕ)} {part : ℕ → Prop}
  (h : IsPart triangles marked part) {t : Triangle α} {n : ℕ} {w : Walk}
include h

/-- The numbers of marked triangles are in range. -/
theorem lt_length (ht : (t, n) ∈ marked) : n < triangles.length :=
  (List.getElem?_eq_some_iff.mp (h.numbered ht)).1

/-- The triangle with a number in the part is marked. -/
theorem mem_of_getElem? (ht : triangles[n]? = some t) (hn : part n) : (t, n) ∈ marked := by
  obtain ⟨s, hs⟩ := h.exists_marked hn
  rwa [Option.some.inj (ht.symm.trans (h.numbered hs))]

/-- At an edge of a triangle in the part the walk goes on and finds the triangles with the edge. -/
theorem exists_cross (ht : (t, n) ∈ marked) (hn : part n) {e : ℕ × ℕ} (he : e ∈ t.edges)
    (hw : Sound part triangles.length w) :
    ∃ w', w.cross (Owners.ofTriangles marked) e = some w' ∧ Sound part triangles.length w' ∧
      Extends (fun m ↦ ∃ u, (u, m) ∈ marked ∧ ∃ f ∈ u.edges, undirected f = undirected e) w w' := by
  obtain ⟨numbers, hnumbers, hmem⟩ := Owners.exists_getElem? ht he
  have hpart : ∀ m ∈ numbers, m < triangles.length ∧ part m := by
    intro m hm
    obtain ⟨u, hu, f, hf, hkey⟩ := (hmem m).mp hm
    refine ⟨h.lt_length hu, h.closed ht hn hu ?_⟩
    exact List.any_eq_true.mpr ⟨e, he, List.any_eq_true.mpr ⟨f, hf, beq_iff_eq.mpr hkey.symm⟩⟩
  have hreach : ∀ w, Sound part triangles.length w → ∀ m ∈ numbers,
      ∃ w', w.reach m = some w' ∧ Sound part triangles.length w' ∧ Extends (· = m) w w' :=
    fun w hw m hm ↦ hw.exists_reach (hpart m hm).1 (hpart m hm).2
  obtain ⟨w', hrun, hsound, hvisited, hreaches⟩ := hw.exists_foldlM hreach
  refine ⟨w', by rw [Walk.cross, hnumbers]; exact hrun, hsound, hvisited, fun m ↦ ?_⟩
  rw [hreaches, ← hmem]
  simp

/-- A visit of a triangle in the part goes on and reaches its neighbours. -/
theorem exists_visit (ht : (t, n) ∈ marked) (hn : part n) {rest : List ℕ}
    (hw : Sound part triangles.length ⟨w.reached, rest, n :: w.visited⟩) :
    ∃ w', Walk.visit triangles (Owners.ofTriangles marked) w n rest = some w' ∧
      Sound part triangles.length w' ∧
      Extends (fun m ↦ ∃ u, (u, m) ∈ marked ∧ adjacent t u = true)
        ⟨w.reached, rest, n :: w.visited⟩ w' := by
  have hcross : ∀ w, Sound part triangles.length w → ∀ e ∈ t.edges,
      ∃ w', w.cross (Owners.ofTriangles marked) e = some w' ∧ Sound part triangles.length w' ∧
        Extends (fun m ↦ ∃ u, (u, m) ∈ marked ∧ ∃ f ∈ u.edges, undirected f = undirected e) w w' :=
    fun w hw e he ↦ h.exists_cross ht hn he hw
  obtain ⟨w', hrun, hsound, hvisited, hreaches⟩ := hw.exists_foldlM hcross
  refine ⟨w', by rw [Walk.visit, h.numbered ht]; exact hrun, hsound, hvisited, fun m ↦ ?_⟩
  rw [hreaches]
  refine or_congr_right ?_
  simp only [adjacent, List.any_eq_true, beq_iff_eq]
  constructor
  · rintro ⟨e, he, u, hu, f, hf, hkey⟩
    exact ⟨u, hu, e, he, f, hf, hkey.symm⟩
  · rintro ⟨u, hu, e, he, f, hf, hkey⟩
    exact ⟨e, he, u, hu, f, hf, hkey.symm⟩

/-- What holds between visits: in addition, all neighbours of the visited triangles were reached. -/
structure UnderWay (marked : List (Triangle α × ℕ)) (part : ℕ → Prop) (count : ℕ) (w : Walk) :
    Prop where
  sound : Sound part count w
  reaches_of_adjacent : ∀ {t n u m}, (t, n) ∈ marked → n ∈ w.visited → (u, m) ∈ marked →
    adjacent t u = true → w.Reaches m

/-- Visiting the next triangle goes on and keeps the walk under way. -/
theorem exists_next {rest : List ℕ} (hw : UnderWay marked part triangles.length w)
    (hstack : w.stack = n :: rest) :
    ∃ w', Walk.visit triangles (Owners.ofTriangles marked) w n rest = some w' ∧
      UnderWay marked part triangles.length w' ∧ ∀ m, w.Reaches m → w'.Reaches m := by
  obtain ⟨⟨hlength, hreaches, hnodup, hpart⟩, hadjacent⟩ := hw
  rw [hstack] at hreaches hnodup
  have hn : part n := hpart n ((hreaches n).mpr (.inr List.mem_cons_self))
  obtain ⟨t, ht⟩ := h.exists_marked hn
  have hpopped : Sound part triangles.length ⟨w.reached, rest, n :: w.visited⟩ := by
    refine ⟨hlength, fun m ↦ ?_, List.nodup_middle.mp hnodup, hpart⟩
    refine (hreaches m).trans ?_
    simp only [List.mem_cons]
    tauto
  obtain ⟨w', hvisit, hsound, hvisited, hextends⟩ := h.exists_visit ht hn hpopped
  refine ⟨w', hvisit, ⟨hsound, fun {s k u m} hs hk hu hsu ↦ ?_⟩, fun m hm ↦ ?_⟩
  · rw [hvisited] at hk
    rcases List.mem_cons.mp hk with rfl | hk
    · obtain rfl : s = t := Option.some.inj ((h.numbered hs).symm.trans (h.numbered ht))
      exact (hextends m).mpr (.inr ⟨u, hu, hsu⟩)
    · exact (hextends m).mpr (.inl (hadjacent hs hk hu hsu))
  · exact (hextends m).mpr (.inl hm)

/-- The walk goes on until its stack is empty. -/
theorem exists_end (hw : UnderWay marked part triangles.length w) :
    ∃ w', w.run triangles (Owners.ofTriangles marked) = some w' ∧
      UnderWay marked part triangles.length w' ∧ w'.stack = [] ∧
      ∀ m, w.Reaches m → w'.Reaches m := by
  induction w using Walk.run.induct triangles (Owners.ofTriangles marked) with
  | case1 w hstack => exact ⟨w, Walk.run_of_nil hstack, hw, hstack, fun _ hm ↦ hm⟩
  | case2 w n rest hstack hnone =>
      obtain ⟨w', hvisit, -⟩ := h.exists_next hw hstack
      cases hnone.symm.trans hvisit
  | case3 w n rest hstack next hnext ih =>
      obtain ⟨w', hvisit, hway, hreaches⟩ := h.exists_next hw hstack
      obtain rfl := Option.some.inj (hnext.symm.trans hvisit)
      obtain ⟨w', hrun, hway', hend, hreaches'⟩ := ih hway
      exact ⟨w', (Walk.run_of_cons hstack hnext).trans hrun, hway', hend,
        fun m hm ↦ hreaches' m (hreaches m hm)⟩

/-- The walk from a triangle of the part comes to an end. It has visited all triangles that it
reached, each once. They belong to the part, and the marked neighbours of each are among them. -/
theorem exists_run {start : ℕ} (hstart : part start) :
    ∃ w, (Walk.ofStart triangles.length start).run triangles (Owners.ofTriangles marked) = some w ∧
      UnderWay marked part triangles.length w ∧ w.stack = [] ∧ w.Reaches start := by
  obtain ⟨t, ht⟩ := h.exists_marked hstart
  have hsound : Sound part triangles.length (Walk.ofStart triangles.length start) :=
    Walk.sound_ofStart (h.lt_length ht) hstart
  have hway : UnderWay marked part triangles.length (Walk.ofStart triangles.length start) :=
    ⟨hsound, fun _ hn ↦ absurd hn List.not_mem_nil⟩
  obtain ⟨w, hrun, hway, hend, hreaches⟩ := h.exists_end hway
  exact ⟨w, hrun, hway, hend,
    hreaches start ((hsound.reaches_iff start).mpr (.inr List.mem_cons_self))⟩

end IsPart

section Component

variable {triangles : List (Triangle α)} {marked : List (Triangle α × ℕ)}
  {start : Triangle α × ℕ}

/-- The number of a triangle in the component of a first triangle among the marked ones. -/
def InComponent (marked : List (Triangle α × ℕ)) (start : Triangle α × ℕ) (n : ℕ) : Prop :=
  ∃ t, (t, n) ∈ component (fun s t ↦ adjacent s.1 t.1) [start]
    (marked.filter fun t ↦ t.2 != start.2)

/-- The component has all marked neighbours of its triangles. -/
theorem isPart_component (hmarked : ∀ t ∈ marked, t ∈ triangles.zipIdx) (hstart : start ∈ marked) :
    IsPart triangles marked (InComponent marked start) := by
  have hnumbered : ∀ {t n}, (t, n) ∈ marked → triangles[n]? = some t := fun ht ↦
    List.mem_zipIdx_iff_getElem?.mp (hmarked _ ht)
  have hmem : ∀ {t}, t ∈ component (fun s t ↦ adjacent s.1 t.1) [start]
      (marked.filter fun t ↦ t.2 != start.2) → t ∈ marked := by
    intro t ht
    rcases mem_of_mem_component ht with ht | ht
    · rwa [List.mem_singleton.mp ht]
    · exact (List.mem_filter.mp ht).1
  refine ⟨hnumbered, fun ⟨t, ht⟩ ↦ ⟨t, hmem ht⟩, ?_⟩
  rintro t n u m ht ⟨s, hs⟩ hu htu
  obtain rfl : s = t := Option.some.inj ((hnumbered (hmem hs)).symm.trans (hnumbered ht))
  by_cases hm : m = start.2
  · subst hm
    exact ⟨start.1, mem_component_of_mem_frontier List.mem_cons_self⟩
  · exact ⟨u, mem_component_of_related hs (List.mem_filter.mpr ⟨hu, by simpa using hm⟩) htu⟩

/-- The walk from a marked triangle comes to an end. It visits every triangle of the component once,
and no others. -/
theorem exists_walk (hmarked : ∀ t ∈ marked, t ∈ triangles.zipIdx) (hstart : start ∈ marked) :
    ∃ w, (Walk.ofStart triangles.length start.2).run triangles (Owners.ofTriangles marked) =
        some w ∧ w.stack = [] ∧ w.visited.Nodup ∧ (∀ n, w.Reaches n ↔ n ∈ w.visited) ∧
      ∀ n, n ∈ w.visited ↔ InComponent marked start n := by
  have hpart := isPart_component hmarked hstart
  have hstartPart : InComponent marked start start.2 :=
    ⟨start.1, mem_component_of_mem_frontier List.mem_cons_self⟩
  obtain ⟨w, hrun, ⟨hsound, hadjacent⟩, hend, hreachesStart⟩ := hpart.exists_run hstartPart
  have hreaches : ∀ n, w.Reaches n ↔ n ∈ w.visited := fun n ↦ by
    rw [hsound.reaches_iff, hend, or_iff_left List.not_mem_nil]
  refine ⟨w, hrun, hend, by simpa [hend] using hsound.nodup, hreaches, fun n ↦ ?_⟩
  rw [← hreaches]
  refine ⟨hsound.part n, fun ⟨t, ht⟩ ↦ ?_⟩
  -- the component is the least set with the first triangle and all neighbours of its members
  refine (component_induction (q := fun u ↦ u ∈ marked ∧ w.Reaches u.2) (fun u hu ↦ ?_)
    (fun s u hs hu hsu ↦ ?_) ht).2
  · rw [List.mem_singleton.mp hu]
    exact ⟨hstart, hreachesStart⟩
  · have hu := (List.mem_filter.mp hu).1
    exact ⟨hu, hadjacent hs.1 ((hreaches s.2).mp hs.2) hu hsu⟩

end Component

/-! ## The cavity of an insertion -/

/-- How the tests on the numbered triangles answer while a point is inserted: whether the circle of
a triangle holds the point, and whether the triangle does. -/
structure Tests (α : Type) where
  marks : Triangle α × ℕ → Bool
  contains : Triangle α × ℕ → Bool

namespace Tests

/-- The marked triangles with their numbers. -/
def marked (tests : Tests α) (triangles : List (Triangle α)) : List (Triangle α × ℕ) :=
  triangles.zipIdx.filter tests.marks

/-- The answer of the test whether a triangle holds the point, which reads the corners. They must be
among the points. -/
def contains? (tests : Tests α) (points : Array (Point α)) (t : Triangle α × ℕ) : Option Bool :=
  if ∀ i ∈ t.1.corners, i < points.size then some (tests.contains t) else none

/-- The triangles that inserting a point removes, where the part around the first marked triangle
that holds the point is found by a walk. -/
def cavity? (tests : Tests α) (points : Array (Point α)) (triangles : List (Triangle α)) :
    Option (List (Triangle α × ℕ)) :=
  ((tests.marked triangles).findM? (tests.contains? points)).bind fun
    | none => some (tests.marked triangles)
    | some start =>
      ((Walk.ofStart triangles.length start.2).run triangles
        (Owners.ofTriangles (tests.marked triangles))).map fun w ↦
          triangles.zipIdx.filter fun t ↦ w.reached[t.2]? == some true

variable (tests : Tests α) {points : Array (Point α)} {triangles : List (Triangle α)}

/-- The marked triangles are among the numbered ones. -/
theorem mem_zipIdx_of_mem_marked {t : Triangle α × ℕ} (ht : t ∈ tests.marked triangles) :
    t ∈ triangles.zipIdx :=
  (List.mem_filter.mp ht).1

/-- A part of the marked triangles is a part of the numbered ones. -/
theorem marked_filter (q : Triangle α × ℕ → Bool) : (tests.marked triangles).filter q =
    triangles.zipIdx.filter fun t ↦ q t && tests.marks t :=
  List.filter_filter

/-- The search for a triangle that holds the point reads corners that are there. -/
theorem findM?_contains? {l : List (Triangle α × ℕ)}
    (hcorners : ∀ t ∈ l, ∀ i ∈ t.1.corners, i < points.size) :
    l.findM? (tests.contains? points) = some (l.find? tests.contains) := by
  induction l with
  | nil => rfl
  | cons t l ih =>
      obtain ⟨ht, hl⟩ := List.forall_mem_cons.mp hcorners
      rw [List.findM?, contains?, if_pos ht, List.find?_cons]
      cases tests.contains t with
      | true => rfl
      | false => exact ih hl

variable (hcorners : ∀ t ∈ triangles, ∀ i ∈ t.corners, i < points.size)
include hcorners

/-- The cavity is found when the walk, if there is one, comes to an end. -/
theorem cavity?_eq :
    tests.cavity? points triangles = match (tests.marked triangles).find? tests.contains with
      | none => some (tests.marked triangles)
      | some start =>
        ((Walk.ofStart triangles.length start.2).run triangles
          (Owners.ofTriangles (tests.marked triangles))).map fun w ↦
            triangles.zipIdx.filter fun t ↦ w.reached[t.2]? == some true := by
  have hfind : (tests.marked triangles).findM? (tests.contains? points) =
      some ((tests.marked triangles).find? tests.contains) :=
    tests.findM?_contains? fun t ht ↦
      hcorners t.1 (List.fst_mem_of_mem_zipIdx (tests.mem_zipIdx_of_mem_marked ht))
  unfold cavity?
  rw [hfind, Option.bind_some]

/-- When no marked triangle holds the point, all marked triangles are removed. -/
theorem cavity?_of_none (hfind : (tests.marked triangles).find? tests.contains = none) :
    tests.cavity? points triangles = some (tests.marked triangles) := by
  rw [tests.cavity?_eq hcorners, hfind]

/-- When a marked triangle holds the point, the walk finds the part of the marked triangles around
it. -/
theorem cavity?_of_some {start : Triangle α × ℕ}
    (hfind : (tests.marked triangles).find? tests.contains = some start) :
    tests.cavity? points triangles = some ((tests.marked triangles).filter fun t ↦
      (component (fun s t ↦ adjacent s.1 t.1) [start]
        ((tests.marked triangles).filter fun t ↦ t.2 != start.2)).any fun u ↦ u.2 == t.2) := by
  have hstart : start ∈ tests.marked triangles := List.mem_of_find?_eq_some hfind
  have hnumbered : ∀ t ∈ tests.marked triangles, t ∈ triangles.zipIdx := fun t ht ↦
    tests.mem_zipIdx_of_mem_marked ht
  obtain ⟨w, hrun, -, -, hreaches, hvisited⟩ := exists_walk hnumbered hstart
  rw [tests.cavity?_eq hcorners, hfind]
  dsimp only
  rw [hrun, Option.map_some, Option.some.injEq, marked_filter]
  refine List.filter_congr fun t ht ↦ ?_
  have hreached : w.reached[t.2]? = some true ↔ InComponent (tests.marked triangles) start t.2 :=
    (hreaches t.2).trans (hvisited t.2)
  rw [Bool.eq_iff_iff, Bool.and_eq_true, beq_iff_eq, List.any_eq_true, hreached]
  constructor
  · intro hcomponent
    have htMarked : t ∈ tests.marked triangles :=
      (isPart_component hnumbered hstart).mem_of_getElem?
        (List.mem_zipIdx_iff_getElem?.mp ht) hcomponent
    obtain ⟨s, hs⟩ := hcomponent
    exact ⟨⟨_, hs, beq_self_eq_true t.2⟩, (List.mem_filter.mp htMarked).2⟩
  · rintro ⟨⟨u, hu, hnumber⟩, -⟩
    exact ⟨u.1, beq_iff_eq.mp hnumber ▸ hu⟩

/-- However the tests answer, a cavity is found. -/
theorem exists_cavity? :
    ∃ q, tests.cavity? points triangles = some (triangles.zipIdx.filter q) := by
  cases hfind : (tests.marked triangles).find? tests.contains with
  | none => exact ⟨tests.marks, tests.cavity?_of_none hcorners hfind⟩
  | some start =>
      rw [tests.cavity?_of_some hcorners hfind, marked_filter]
      exact ⟨_, rfl⟩

end Tests

variable [Scalar α]

/-- The tests with the answers of the scalars, for point number `i`. -/
def Tests.ofPoint (points : Array (Point α)) (i : ℕ) : Tests α :=
  ⟨fun t ↦ inCircle (pointAt points i) t.1, fun t ↦ holds points t.1 (pointAt points i)⟩

/-- With the answers of the scalars the cavity of the point is found. -/
theorem Tests.cavity?_ofPoint {points : Array (Point α)} {triangles : List (Triangle α)}
    (hcorners : ∀ t ∈ triangles, ∀ i ∈ t.corners, i < points.size) (i : ℕ) :
    (Tests.ofPoint points i).cavity? points triangles =
      some (cavity points triangles.zipIdx (pointAt points i)) := by
  unfold cavity
  dsimp only
  split
  next hfind => exact cavity?_of_none _ hcorners hfind
  next start hfind => exact cavity?_of_some _ hcorners hfind

end PlasmaField.Delaunay
