/-!
# Arrays of any rank

A `ShapedArray` is a row-major block of elements together with its shape. The shape fixes the number
of elements, and an array without axes holds one.
-/

namespace PlasmaField

/-- The number of elements of an array of the given shape. -/
def ShapedArray.volume (shape : List Nat) : Nat :=
  shape.foldr (· * ·) 1

/-- A row-major array: the last index runs fastest. -/
structure ShapedArray (α : Type) where
  shape : List Nat
  data : Array α
  size_eq : data.size = ShapedArray.volume shape

namespace ShapedArray

variable {α β γ : Type}

/-- The array with the given shape and elements, if their number is right. -/
def ofArray? (shape : List Nat) (data : Array α) : Option (ShapedArray α) :=
  if h : data.size = volume shape then some ⟨shape, data, h⟩ else none

/-- The array without axes that holds one element. -/
def scalar (x : α) : ShapedArray α :=
  ⟨[], #[x], rfl⟩

/-- The array with one axis that holds the given elements. -/
def vector (xs : Array α) : ShapedArray α :=
  ⟨[xs.size], xs, by simp [volume]⟩

/-- The array of the given shape in which every element is the same. -/
def replicate (shape : List Nat) (x : α) : ShapedArray α :=
  ⟨shape, Array.replicate (volume shape) x, Array.size_replicate⟩

/-- The number of elements. -/
def size (a : ShapedArray α) : Nat :=
  a.data.size

/-- The number of axes. -/
def rank (a : ShapedArray α) : Nat :=
  a.shape.length

/-- Applies a function to every element. -/
def map (f : α → β) (a : ShapedArray α) : ShapedArray β :=
  ⟨a.shape, a.data.map f, by simpa using a.size_eq⟩

/-- Applies a function to every element and its place in row-major order. -/
def mapIdx (f : Nat → α → β) (a : ShapedArray α) : ShapedArray β :=
  ⟨a.shape, a.data.mapIdx f, by simpa using a.size_eq⟩

/-- Combines two arrays of one shape element by element. -/
def zipWith (f : α → β → γ) (a : ShapedArray α) (b : ShapedArray β) (h : a.shape = b.shape) :
    ShapedArray γ :=
  ⟨a.shape, a.data.zipWith f b.data, by
    rw [Array.size_zipWith, a.size_eq, b.size_eq, h, Nat.min_self]⟩

/-- Combining two arrays keeps their shape. -/
@[simp]
theorem shape_zipWith (f : α → β → γ) (a : ShapedArray α) (b : ShapedArray β)
    (h : a.shape = b.shape) : (a.zipWith f b h).shape = a.shape :=
  rfl

/-- The place of an index in row-major order. -/
def offset : List Nat → List Nat → Nat
  | _ :: shape, i :: index => i * volume shape + offset shape index
  | _, _ => 0

/-- The element at an index, if the array has one there. -/
def get? (a : ShapedArray α) (index : List Nat) : Option α :=
  if index.length = a.shape.length && (index.zip a.shape).all (fun p ↦ p.1 < p.2) then
    a.data[offset a.shape index]?
  else none

end ShapedArray

end PlasmaField
