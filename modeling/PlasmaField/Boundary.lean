import PlasmaField.Error
import PlasmaField.Orientation
import PlasmaField.ShapedArray

/-!
# Boundaries of the domain

A domain in the poloidal plane is unbounded or bounded by a closed polygon. A point lies within a
polygon if the polygon winds around it; points on an edge or a corner do not lie within. On which
side of an edge a point lies is the side to which the path along the edge and on to the point turns.
-/

namespace PlasmaField

/-- A closed polygon: the last vertex repeats the first. -/
structure Polygon (α : Type) where
  ring : List (Point α)

namespace Polygon

variable {α : Type} [Scalar α]

/-- The vertices followed by the first one, unless the last one already repeats it. -/
def close (vertices : List (Point α)) : List (Point α) :=
  match vertices.head?, vertices.getLast? with
  | some first, some last => if first.samePlace last then vertices else vertices ++ [first]
  | _, _ => vertices

/-- The polygon with the given vertex coordinates. -/
def ofVertices (xs ys : Array α) : Except (FieldError α) (Polygon α) := do
  if xs.size != ys.size then
    throw (.shape (.polygonCoordinates xs.size ys.size))
  if xs.size < 3 then
    throw (.shape (.smallPolygon xs.size))
  if !xs.all Scalar.isFinite || !ys.all Scalar.isFinite then
    throw (.physics .polygonNotFinite)
  return ⟨close ((xs.toList.zip ys.toList).map fun p ↦ ⟨p.1, p.2⟩)⟩

/-- The number of vertices, the closing one included. -/
def vertexCount (polygon : Polygon α) : Nat :=
  polygon.ring.length

/-- The edges, from each vertex to the next. -/
def edges (polygon : Polygon α) : List (Point α × Point α) :=
  polygon.ring.zip polygon.ring.tail

/-- The scalar lies between two bounds given in either order. -/
def between (v a b : α) : Bool :=
  if a < b then a ≤ v && v ≤ b else b ≤ v && v ≤ a

/-- What an edge tells about a point. -/
inductive Crossing where
  /-- The point lies on the edge. -/
  | touches
  /-- The edge passes to the right of the point upward (`1`) or downward (`-1`), or not (`0`). -/
  | winds (turns : Int)
  deriving DecidableEq

/-- How an edge passes a point. An upward edge includes its start and excludes its end, a downward
edge the other way round. -/
def crossing (s e p : Point α) : Crossing :=
  let side := Orientation.turn s e p
  if s.y ≤ p.y then
    if p.y ≤ e.y then
      if side = .gt && !(e.y == p.y) then .winds 1
      else if side = .eq && between p.x s.x e.x then .touches
      else .winds 0
    else .winds 0
  else if e.y ≤ p.y then
    if side = .lt then .winds (-1)
    else if side = .eq && between p.x s.x e.x then .touches
    else .winds 0
  else .winds 0

/-- How often the edges wind around a point; `none` if the point lies on one of them. -/
def winding? (p : Point α) : List (Point α × Point α) → Option Int
  | [] => some 0
  | (s, e) :: rest =>
    match crossing s e p with
    | .touches => none
    | .winds turns => (winding? p rest).map (turns + ·)

/-- The polygon winds around the point. -/
def contains (polygon : Polygon α) (p : Point α) : Bool :=
  match winding? p polygon.edges with
  | some turns => turns != 0
  | none => false

end Polygon

/-- The boundary of a domain in the poloidal plane. -/
inductive Boundary (α : Type) where
  | unbounded
  | within (polygon : Polygon α)

namespace Boundary

variable {α : Type} [Scalar α]

/-- The point lies within the domain. -/
def contains (b : Boundary α) (x z : α) : Bool :=
  match b with
  | .unbounded => true
  | .within polygon => polygon.contains ⟨x, z⟩

/-- The number of vertices of a bounded domain's ring. -/
def vertexCount? : Boundary α → Option Nat
  | .unbounded => none
  | .within polygon => some polygon.vertexCount

/-- For each point of two arrays of one shape, whether it lies outside the domain. -/
def outside (b : Boundary α) (x z : ShapedArray α) : Except (FieldError α) (ShapedArray Bool) :=
  if h : x.shape = z.shape then .ok (x.zipWith (fun x z ↦ !b.contains x z) z h)
  else .error (.shape (.boundaryQuery x.shape z.shape))

end Boundary

end PlasmaField
