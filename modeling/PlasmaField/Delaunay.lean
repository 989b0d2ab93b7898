import PlasmaField.Point

/-!
# Delaunay triangulation

Points are inserted one by one into a triangle that is much larger than their extent. Inserting a
point removes the triangles whose circumcircle holds it, its cavity, and joins the point to every
edge on the cavity's rim. Triangles that still touch the large triangle are dropped at the end.

When round-off marks triangles that do not hang together, only the part around the triangle that
holds the point is removed. That part is found by `component`, which takes every marked triangle at
most once.
-/

namespace PlasmaField

/-- A triangle by its three corners' numbers, with its circumcircle. -/
structure Triangle (α : Type) where
  a : Nat
  b : Nat
  c : Nat
  centre : Point α
  radiusSq : α

namespace Triangle

variable {α : Type}

/-- The corners' numbers. -/
def corners (t : Triangle α) : List Nat :=
  [t.a, t.b, t.c]

/-- The edges, in the order of the corners. -/
def edges (t : Triangle α) : List (Nat × Nat) :=
  [(t.a, t.b), (t.b, t.c), (t.c, t.a)]

end Triangle

namespace Delaunay

/-- The ends of an edge in increasing order, which forgets its direction. -/
def undirected (e : Nat × Nat) : Nat × Nat :=
  (Min.min e.1 e.2, Max.max e.1 e.2)

/-- Two triangles have an edge in common. -/
def adjacent {α : Type} (s t : Triangle α) : Bool :=
  s.edges.any fun e ↦ t.edges.any fun f ↦ undirected e == undirected f

/-- The members that are related to `t`. -/
def relatives {β : Type} (related : β → β → Bool) (t : β) (rest : List β) : List β :=
  rest.filter (related t)

/-- The members that are not related to `t`. -/
def strangers {β : Type} (related : β → β → Bool) (t : β) (rest : List β) : List β :=
  rest.filter fun u ↦ !related t u

/-- Every member is either related to `t` or not. -/
theorem length_relatives_add_strangers {β : Type} (related : β → β → Bool) (t : β)
    (rest : List β) :
    (relatives related t rest).length + (strangers related t rest).length = rest.length := by
  induction rest with
  | nil => rfl
  | cons u rest ih =>
    cases h : related t u <;> simp [relatives, strangers, h] at ih ⊢ <;> omega

/-- The members of `rest` that can be reached from `frontier` through related members, together with
the frontier. -/
def component {β : Type} (related : β → β → Bool) (frontier rest : List β) : List β :=
  match frontier with
  | [] => []
  | t :: frontier =>
    t :: component related (relatives related t rest ++ frontier) (strangers related t rest)
termination_by frontier.length + rest.length
decreasing_by
  have h := length_relatives_add_strangers related t rest
  simp only [List.length_append, List.length_cons]
  omega

variable {α : Type} [Scalar α]

/-- Point number `i`. -/
def pointAt (points : Array (Point α)) (i : Nat) : Point α :=
  points.getD i ⟨0, 0⟩

/-- The size of the enclosing triangle relative to the extent of the points. -/
def enclosingScale : α := 100

/-- The smallest and largest coordinate along each axis; from infinity down where no point has
one. -/
structure Box (α : Type) where
  x₀ : α
  x₁ : α
  y₀ : α
  y₁ : α

/-- The bounding box of a list of points. -/
def boundingBox (points : List (Point α)) : Box α :=
  let (x₀, x₁) := (Scalar.range? (points.map (·.x))).getD (Scalar.infinity, -Scalar.infinity)
  let (y₀, y₁) := (Scalar.range? (points.map (·.y))).getD (Scalar.infinity, -Scalar.infinity)
  ⟨x₀, x₁, y₀, y₁⟩

/-- Twice the signed area of the triangle `a`, `b`, `p`. -/
def orientation (a b p : Point α) : α :=
  (b.x - a.x) * (p.y - a.y) - (b.y - a.y) * (p.x - a.x)

/-- The point is not strictly on different sides of the triangle's edges. -/
def holds (points : Array (Point α)) (t : Triangle α) (p : Point α) : Bool :=
  let a := pointAt points t.a
  let b := pointAt points t.b
  let c := pointAt points t.c
  let d₁ := orientation a b p
  let d₂ := orientation b c p
  let d₃ := orientation c a p
  let negative := d₁ < 0 || d₂ < 0 || d₃ < 0
  let positive := 0 < d₁ || 0 < d₂ || 0 < d₃
  !(negative && positive)

/-- The point lies strictly within the triangle's circumcircle. -/
def inCircle (p : Point α) (t : Triangle α) : Bool :=
  let dx := p.x - t.centre.x
  let dy := p.y - t.centre.y
  dx * dx + dy * dy < t.radiusSq

/-- The centre of the circle through three points, or their centroid if they are nearly in line. -/
def centreOf (p₀ p₁ p₂ : Point α) : Point α :=
  let d := 2 * (p₀.x * (p₁.y - p₂.y) + p₁.x * (p₂.y - p₀.y) + p₂.x * (p₀.y - p₁.y))
  let s₀ := p₀.x * p₀.x + p₀.y * p₀.y
  let s₁ := p₁.x * p₁.x + p₁.y * p₁.y
  let s₂ := p₂.x * p₂.x + p₂.y * p₂.y
  if Scalar.epsilon * Scalar.max (s₀ + s₁ + s₂) 1 < Scalar.abs d then
    ⟨(s₀ * (p₁.y - p₂.y) + s₁ * (p₂.y - p₀.y) + s₂ * (p₀.y - p₁.y)) / d,
      (s₀ * (p₂.x - p₁.x) + s₁ * (p₀.x - p₂.x) + s₂ * (p₁.x - p₀.x)) / d⟩
  else ⟨(p₀.x + p₁.x + p₂.x) / 3, (p₀.y + p₁.y + p₂.y) / 3⟩

/-- The triangle with the given corners. -/
def triangleOf (points : Array (Point α)) (i j k : Nat) : Triangle α :=
  let p := pointAt points i
  let centre := centreOf p (pointAt points j) (pointAt points k)
  let dx := p.x - centre.x
  let dy := p.y - centre.y
  ⟨i, j, k, centre, dx * dx + dy * dy⟩

/-- The numbered triangles that inserting the point removes: those whose circumcircle holds it, cut
down to the part around the first of them that holds the point, if one does. -/
def cavity (points : Array (Point α)) (triangles : List (Triangle α × Nat)) (p : Point α) :
    List (Triangle α × Nat) :=
  let marked := triangles.filter fun t ↦ inCircle p t.1
  match marked.find? fun t ↦ holds points t.1 p with
  | none => marked
  | some start =>
    let part := component (fun s t ↦ adjacent s.1 t.1) [start]
      (marked.filter fun t ↦ t.2 != start.2)
    marked.filter fun t ↦ part.any fun u ↦ u.2 == t.2

/-- The edges on the rim of a cavity: those that belong to exactly one of its triangles. -/
def rim (triangles : List (Triangle α)) : List (Nat × Nat) :=
  let edges := triangles.flatMap Triangle.edges
  let keys := edges.map undirected
  edges.filter fun e ↦ keys.count (undirected e) == 1

/-- Inserts point number `i`: the triangles outside its cavity stay, and those that join the rim to
the point follow. -/
def insert (points : Array (Point α)) (triangles : List (Triangle α)) (i : Nat) :
    List (Triangle α) :=
  let numbered := triangles.zipIdx
  let hole := cavity points numbered (pointAt points i)
  let removed := hole.map (·.2)
  (numbered.filter fun t ↦ !removed.contains t.2).map (·.1) ++
    (rim (hole.map (·.1))).map fun e ↦ triangleOf points e.1 e.2 i

/-- The points followed by the corners of the large triangle around them. -/
def enclosed (points : Array (Point α)) : Array (Point α) :=
  let box := boundingBox points.toList
  let extent := Scalar.max (Scalar.max (box.x₁ - box.x₀) (box.y₁ - box.y₀)) Scalar.tiny
  let d := extent * enclosingScale
  let midX := 0.5 * (box.x₀ + box.x₁)
  let midY := 0.5 * (box.y₀ + box.y₁)
  points ++ #[⟨midX - d, midY - d⟩, ⟨midX + d, midY - d⟩, ⟨midX, midY + d⟩]

/-- The Delaunay triangles of distinct points. Fewer than three points have none. -/
def triangulate (points : Array (Point α)) : List (Triangle α) :=
  let n := points.size
  if n < 3 then []
  else
    let all := enclosed points
    let triangles := (List.range n).foldl (insert all) [triangleOf all n (n + 1) (n + 2)]
    triangles.filter fun t ↦ t.corners.all (· < n)

end Delaunay

end PlasmaField
