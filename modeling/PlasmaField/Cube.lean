import PlasmaField.Table

/-!
# Blocks of scalars with three axes

A `Cube` holds one scalar for every surface, poloidal and toroidal index, or for every node of a
grid with three axes. Reading outside the block gives zero; `get_ofFn` says that inside the block a
cube built from a function holds the function's values.
-/

namespace PlasmaField

open Scalar (nth)

/-- A block of `n` by `m` by `l` elements; the last index runs fastest. -/
structure Cube (α : Type) where
  n : Nat
  m : Nat
  l : Nat
  data : Array α
  size_eq : data.size = n * m * l

namespace Cube

variable {α β γ : Type}

/-- The block whose element at `(i, j, k)` is `f i j k`. -/
def ofFn (n m l : Nat) (f : Nat → Nat → Nat → α) : Cube α :=
  ⟨n, m, l, Array.ofFn fun p : Fin (n * m * l) ↦ f (p.val / l / m) (p.val / l % m) (p.val % l),
    by simp⟩

/-- The block as an array with three axes. -/
def toShaped (c : Cube α) : ShapedArray α :=
  ⟨[c.n, c.m, c.l], c.data, by simpa [ShapedArray.volume, Nat.mul_assoc] using c.size_eq⟩

/-- The element at `(i, j, k)`; zero outside the block. -/
def get [Scalar α] (c : Cube α) (i j k : Nat) : α :=
  if i < c.n && j < c.m && k < c.l then nth c.data ((i * c.m + j) * c.l + k) else 0

/-- Combines the elements of two blocks at equal indices, on the first block's indices. -/
def zipWith [Scalar α] (f : α → α → α) (a b : Cube α) : Cube α :=
  ofFn a.n a.m a.l fun i j k ↦ f (a.get i j k) (b.get i j k)

/-- The elements with last index `k`, in the order of the other two. -/
def slice [Scalar α] (c : Cube α) (k : Nat) : Array α :=
  Array.ofFn fun p : Fin (c.n * c.m) ↦ nth c.data (p.val * c.l + k)

/-- The element of a block that is built from a function, at the place of its indices. -/
theorem getElem?_ofFn {n m l : Nat} (f : Nat → Nat → Nat → α) {i j k : Nat} (hi : i < n)
    (hj : j < m) (hk : k < l) : (ofFn n m l f).data[(i * m + j) * l + k]? = some (f i j k) := by
  have hplace : (i * m + j) * l + k < n * m * l := Table.place_lt (Table.place_lt hi hj) hk
  have hinner : ((i * m + j) * l + k) / l = i * m + j := by
    rw [Nat.mul_comm, Nat.mul_add_div (by omega), Nat.div_eq_of_lt hk, Nat.add_zero]
  have hlast : ((i * m + j) * l + k) % l = k := by
    rw [Nat.mul_comm, Nat.mul_add_mod, Nat.mod_eq_of_lt hk]
  have hdiv : (i * m + j) / m = i := by
    rw [Nat.mul_comm, Nat.mul_add_div (by omega), Nat.div_eq_of_lt hj, Nat.add_zero]
  have hmod : (i * m + j) % m = j := by
    rw [Nat.mul_comm, Nat.mul_add_mod, Nat.mod_eq_of_lt hj]
  simp [ofFn, hplace, hinner, hlast, hdiv, hmod]

/-- Inside the block a cube built from a function holds the function's values. -/
theorem get_ofFn [Scalar α] {n m l : Nat} (f : Nat → Nat → Nat → α) {i j k : Nat} (hi : i < n)
    (hj : j < m) (hk : k < l) : (ofFn n m l f).get i j k = f i j k := by
  have helement := getElem?_ofFn f hi hj hk
  have hinside : (decide (i < n) && decide (j < m) && decide (k < l)) = true := by
    simp [hi, hj, hk]
  unfold get nth
  rw [Array.getD_eq_getD_getElem?]
  show (if (decide (i < n) && decide (j < m) && decide (k < l)) = true then
    ((ofFn n m l f).data[(i * m + j) * l + k]?).getD 0 else 0) = _
  rw [if_pos hinside, helement, Option.getD_some]

/-- Inside the block the function's values are elements. -/
theorem mem_ofFn {n m l : Nat} (f : Nat → Nat → Nat → α) {i j k : Nat} (hi : i < n) (hj : j < m)
    (hk : k < l) : f i j k ∈ (ofFn n m l f).data :=
  Array.mem_of_getElem? (getElem?_ofFn f hi hj hk)

/-- The indices that belong to a place inside a block. -/
theorem index_lt {n m l p : Nat} (hp : p < n * m * l) :
    p / l / m < n ∧ p / l % m < m ∧ p % l < l := by
  have hl : 0 < l := Nat.pos_of_mul_pos_left (Nat.lt_of_le_of_lt (Nat.zero_le p) hp)
  have hrow : p / l < n * m := Nat.div_lt_of_lt_mul (by rwa [Nat.mul_comm])
  have hm : 0 < m := Nat.pos_of_mul_pos_left (Nat.lt_of_le_of_lt (Nat.zero_le _) hrow)
  exact ⟨Nat.div_lt_of_lt_mul (by rwa [Nat.mul_comm]), Nat.mod_lt _ hm, Nat.mod_lt _ hl⟩

/-- Every element of a block that is built from a function is a value of the function. -/
theorem exists_of_mem_ofFn {n m l : Nat} {f : Nat → Nat → Nat → α} {x : α}
    (hx : x ∈ (ofFn n m l f).data) : ∃ i j k, i < n ∧ j < m ∧ k < l ∧ x = f i j k := by
  obtain ⟨p, hp⟩ := Array.mem_ofFn.mp hx
  obtain ⟨hi, hj, hk⟩ := index_lt p.isLt
  exact ⟨_, _, _, hi, hj, hk, hp.symm⟩

/-- Blocks are equal when their elements are. -/
theorem ofFn_congr {n m l : Nat} {f g : Nat → Nat → Nat → α}
    (h : ∀ i j k, i < n → j < m → k < l → f i j k = g i j k) : ofFn n m l f = ofFn n m l g := by
  have hdata : (fun p : Fin (n * m * l) ↦ f (p.val / l / m) (p.val / l % m) (p.val % l)) =
      fun p ↦ g (p.val / l / m) (p.val / l % m) (p.val % l) := by
    funext p
    obtain ⟨hi, hj, hk⟩ := index_lt p.isLt
    exact h _ _ _ hi hj hk
  unfold ofFn
  simp only [hdata]

/-- Combining two blocks that are built from functions combines the functions. -/
theorem zipWith_ofFn [Scalar α] (op : α → α → α) {n m l : Nat} (f g : Nat → Nat → Nat → α) :
    (ofFn n m l f).zipWith op (ofFn n m l g) = ofFn n m l fun i j k ↦ op (f i j k) (g i j k) :=
  ofFn_congr fun _ _ _ hi hj hk ↦ congr (congrArg op (get_ofFn f hi hj hk)) (get_ofFn g hi hj hk)

/-- The elements of a block with a given last index, in the order of the other two. -/
theorem slice_ofFn [Scalar α] {n m l : Nat} (f : Nat → Nat → Nat → α) {k : Nat} (hk : k < l) :
    (ofFn n m l f).slice k = Array.ofFn fun p : Fin (n * m) ↦ f (p.val / m) (p.val % m) k := by
  refine congrArg Array.ofFn (funext fun p ↦ ?_)
  have hplace : p.val * l + k < n * m * l := Table.place_lt p.isLt hk
  have hinner : (p.val * l + k) / l = p.val := by
    rw [Nat.mul_comm, Nat.mul_add_div (by omega), Nat.div_eq_of_lt hk, Nat.add_zero]
  have hlast : (p.val * l + k) % l = k := by
    rw [Nat.mul_comm, Nat.mul_add_mod, Nat.mod_eq_of_lt hk]
  simp [ofFn, nth, hplace, hinner, hlast]

/-- The elements with a given last index are elements of the block. -/
theorem nth_slice_mem [Scalar α] (c : Cube α) {k i : Nat} (hk : k < c.l)
    (hi : i < (c.slice k).size) : nth (c.slice k) i ∈ c.data := by
  have hrow : i < c.n * c.m := by simpa [slice] using hi
  have hplace : i * c.l + k < c.data.size := c.size_eq ▸ Table.place_lt hrow hk
  have hread : nth (c.slice k) i = c.data[i * c.l + k] := by simp [slice, nth, hrow, hplace]
  exact hread ▸ Array.getElem_mem hplace

end Cube

end PlasmaField
