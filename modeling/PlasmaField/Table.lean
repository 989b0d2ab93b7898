import PlasmaField.Scalar
import PlasmaField.ShapedArray

/-!
# Tables of scalars

A `Table` is a rectangular block of scalars stored row by row. Reading outside the block gives zero,
so that formulas over neighbouring entries need no bounds; `get_ofFn` says that inside the block a
table built from a function holds the function's values.
-/

namespace PlasmaField

/-- A block of `rows` times `cols` elements, stored row by row. -/
structure Table (α : Type) where
  rows : Nat
  cols : Nat
  data : Array α
  size_eq : data.size = rows * cols

namespace Table

variable {α β : Type}

/-- The table whose entry in row `i` and column `j` is `f i j`. -/
def ofFn (rows cols : Nat) (f : Nat → Nat → α) : Table α :=
  ⟨rows, cols, Array.ofFn fun k : Fin (rows * cols) ↦ f (k.val / cols) (k.val % cols), by simp⟩

/-- Applies a function to every entry. -/
def map (f : α → β) (t : Table α) : Table β :=
  ⟨t.rows, t.cols, t.data.map f, by simpa using t.size_eq⟩

/-- The table as an array with two axes. -/
def toShaped (t : Table α) : ShapedArray α :=
  ⟨[t.rows, t.cols], t.data, by simpa [ShapedArray.volume] using t.size_eq⟩

/-- An array with two axes as a table. -/
def ofShaped? (a : ShapedArray α) : Option (Table α) :=
  match h : a.shape with
  | [rows, cols] => some ⟨rows, cols, a.data, by simpa [h, ShapedArray.volume] using a.size_eq⟩
  | _ => none

/-- An array with two axes whose elements are all the same, as a table. -/
theorem ofShaped?_replicate (rows cols : Nat) (x : α) :
    ofShaped? (.replicate [rows, cols] x) = some (ofFn rows cols fun _ _ ↦ x) := by
  have hdata : Array.replicate (ShapedArray.volume [rows, cols]) x =
      Array.ofFn fun _ : Fin (rows * cols) ↦ x := by
    refine Array.ext (by simp [ShapedArray.volume]) fun i _ _ ↦ ?_
    rw [Array.getElem_replicate, Array.getElem_ofFn]
  show some (Table.mk rows cols (Array.replicate (ShapedArray.volume [rows, cols]) x) _) =
    some (Table.mk rows cols (Array.ofFn fun _ ↦ x) _)
  congr 2

variable [Scalar α]

/-- The entry in row `i` and column `j`; zero outside the block. -/
def get (t : Table α) (i j : Nat) : α :=
  if i < t.rows && j < t.cols then t.data.getD (i * t.cols + j) 0 else 0

/-- Row `i` as an array. -/
def row (t : Table α) (i : Nat) : Array α :=
  Array.ofFn fun j : Fin t.cols ↦ t.get i j

/-- Column `j` as an array. -/
def col (t : Table α) (j : Nat) : Array α :=
  Array.ofFn fun i : Fin t.rows ↦ t.get i j

omit [Scalar α] in
/-- The place of an entry lies inside the block. -/
theorem place_lt {rows cols i j : Nat} (hi : i < rows) (hj : j < cols) :
    i * cols + j < rows * cols :=
  calc i * cols + j < i * cols + cols := by omega
    _ = (i + 1) * cols := by rw [Nat.add_mul, Nat.one_mul]
    _ ≤ rows * cols := Nat.mul_le_mul_right cols hi

/-- Inside the block a table built from a function holds the function's values. -/
theorem get_ofFn {rows cols : Nat} (f : Nat → Nat → α) {i j : Nat} (hi : i < rows)
    (hj : j < cols) : (ofFn rows cols f).get i j = f i j := by
  have hk : i * cols + j < rows * cols := place_lt hi hj
  have hdiv : (i * cols + j) / cols = i := by
    rw [Nat.mul_comm, Nat.mul_add_div (by omega), Nat.div_eq_of_lt hj, Nat.add_zero]
  have hmod : (i * cols + j) % cols = j := by
    rw [Nat.mul_comm, Nat.mul_add_mod, Nat.mod_eq_of_lt hj]
  simp [get, ofFn, hi, hj, hk, hdiv, hmod]

end Table

end PlasmaField
