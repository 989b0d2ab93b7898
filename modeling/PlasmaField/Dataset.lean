import PlasmaField.Error
import PlasmaField.Table

/-!
# Datasets

Equilibrium data arrive as a `Dataset`, arrays under names. A single number is an array without
axes, or one with a single element. Inserting under a name replaces what stood there. A query for a
name that may be absent fails only if what stands there has the wrong shape. Every query only
depends on what stands under its name, as `array_congr` and the lemmas after it say.
-/

namespace PlasmaField

/-- Arrays under names. -/
structure Dataset (α : Type) where
  entries : List (String × ShapedArray α)

namespace Dataset

variable {α : Type}

/-- No arrays. -/
def empty : Dataset α :=
  ⟨[]⟩

/-- The arrays with one more, which hides what stood under its name. -/
def insert (arrays : Dataset α) (name : String) (a : ShapedArray α) : Dataset α :=
  ⟨(name, a) :: arrays.entries⟩

/-- The array under a name, if there is one. -/
def get? (arrays : Dataset α) (name : String) : Option (ShapedArray α) :=
  arrays.entries.lookup name

/-- An array stands under the name. -/
def contains (arrays : Dataset α) (name : String) : Bool :=
  (arrays.get? name).isSome

/-- The array under a name. -/
def array (arrays : Dataset α) (name : String) : Except (FieldError α) (ShapedArray α) :=
  match arrays.get? name with
  | some a => .ok a
  | none => .error (.missingArray name)

/-- The single number under a name. -/
def scalar (arrays : Dataset α) (name : String) : Except (FieldError α) α := do
  let a ← arrays.array name
  match a.data.toList with
  | [x] => return x
  | _ => throw (.shape (.notScalar name a.shape))

/-- The array with one axis under a name. -/
def vector (arrays : Dataset α) (name : String) : Except (FieldError α) (Array α) := do
  let a ← arrays.array name
  match a.shape with
  | [_] => return a.data
  | shape => throw (.shape (.notRank name 1 shape))

/-- The array with two axes under a name. -/
def table (arrays : Dataset α) (name : String) : Except (FieldError α) (Table α) := do
  let a ← arrays.array name
  match Table.ofShaped? a with
  | some t => return t
  | none => throw (.shape (.notRank name 2 a.shape))

/-- The answer of a query for a name that may be absent. -/
def optional {β : Type} (query : Dataset α → String → Except (FieldError α) β)
    (arrays : Dataset α) (name : String) : Except (FieldError α) (Option β) :=
  if arrays.contains name then (query arrays name).map some else .ok none

/-! ## What a query reads -/

/-- The array that was inserted stands under its name. -/
@[simp]
theorem get?_insert_self (arrays : Dataset α) (name : String) (a : ShapedArray α) :
    (arrays.insert name a).get? name = some a := by
  simp [get?, insert]

/-- The name under which an array was inserted is taken. -/
theorem contains_insert_self (arrays : Dataset α) (name : String) (a : ShapedArray α) :
    (arrays.insert name a).contains name = true := by
  simp [contains]

/-- Under every other name the arrays are the same. -/
theorem get?_insert_of_ne (arrays : Dataset α) {name other : String} (h : other ≠ name)
    (a : ShapedArray α) : (arrays.insert name a).get? other = arrays.get? other := by
  have hname : (other == name) = false := beq_eq_false_iff_ne.mpr h
  simp [get?, insert, List.lookup_cons, hname]

/-- An array is found if it stands under the name. -/
theorem array_eq_ok_iff {arrays : Dataset α} {name : String} {a : ShapedArray α} :
    arrays.array name = .ok a ↔ arrays.get? name = some a := by
  unfold array
  cases arrays.get? name <;> simp

/-- An array with one element that was inserted is a number. -/
theorem exists_scalar_insert_self (arrays : Dataset α) (name : String) {a : ShapedArray α}
    (h : a.size = 1) : ∃ v, (arrays.insert name a).scalar name = .ok v := by
  obtain ⟨v, hv⟩ := List.length_eq_one_iff.mp (Array.length_toList.trans h)
  have harray : (arrays.insert name a).array name = .ok a :=
    array_eq_ok_iff.mpr (get?_insert_self arrays name a)
  exact ⟨v, by simp [scalar, harray, hv, bind, Except.bind, pure, Except.pure]⟩

section Congruence

variable {arrays arrays' : Dataset α} {name : String} (h : arrays.get? name = arrays'.get? name)
include h

/-- Whether a name is taken only depends on what stands there. -/
theorem contains_congr : arrays.contains name = arrays'.contains name :=
  congrArg Option.isSome h

/-- The array under a name only depends on what stands there. -/
theorem array_congr : arrays.array name = arrays'.array name := by
  unfold array
  rw [h]

/-- The number under a name only depends on what stands there. -/
theorem scalar_congr : arrays.scalar name = arrays'.scalar name := by
  unfold scalar
  rw [array_congr h]

/-- The vector under a name only depends on what stands there. -/
theorem vector_congr : arrays.vector name = arrays'.vector name := by
  unfold vector
  rw [array_congr h]

/-- The table under a name only depends on what stands there. -/
theorem table_congr : arrays.table name = arrays'.table name := by
  unfold table
  rw [array_congr h]

/-- The answer for a name that may be absent only depends on what stands there. -/
theorem optional_congr {β : Type} {query : Dataset α → String → Except (FieldError α) β}
    (hquery : query arrays name = query arrays' name) :
    optional query arrays name = optional query arrays' name := by
  unfold optional
  rw [contains_congr h, hquery]

end Congruence

/-- There is no answer for a name that is absent. -/
theorem optional_of_absent {β : Type} (query : Dataset α → String → Except (FieldError α) β)
    {arrays : Dataset α} {name : String} (h : arrays.contains name = false) :
    optional query arrays name = .ok none := by
  simp [optional, h]

/-- There is no answer only for a name that is absent. -/
theorem absent_of_optional {β : Type} {query : Dataset α → String → Except (FieldError α) β}
    {arrays : Dataset α} {name : String} (h : optional query arrays name = .ok none) :
    arrays.contains name = false := by
  unfold optional at h
  cases hname : arrays.contains name with
  | false => rfl
  | true =>
    rw [hname, if_pos rfl] at h
    cases hquery : query arrays name <;> simp [hquery, Except.map] at h

/-- An answer for a name that may be absent is that of the query. -/
theorem eq_ok_of_optional {β : Type} {query : Dataset α → String → Except (FieldError α) β}
    {arrays : Dataset α} {name : String} {b : β} (h : optional query arrays name = .ok (some b)) :
    query arrays name = .ok b := by
  unfold optional at h
  split at h
  · cases hquery : query arrays name <;> simp_all [Except.map]
  · simp at h

/-- The answer for a name that is taken is that of the query. -/
theorem optional_of_present {β : Type} {query : Dataset α → String → Except (FieldError α) β}
    {arrays : Dataset α} {name : String} (hname : arrays.contains name = true) {b : β}
    (h : query arrays name = .ok b) : optional query arrays name = .ok (some b) := by
  simp [optional, hname, h, Except.map]

/-- A number stands only under a name that is taken. -/
theorem contains_of_scalar {arrays : Dataset α} {name : String} {v : α}
    (h : arrays.scalar name = .ok v) : arrays.contains name = true := by
  cases hget : arrays.get? name with
  | none => simp [scalar, array, hget, bind, Except.bind] at h
  | some a => simp [contains, hget]

/-- The number under a name that is taken. -/
theorem optional_scalar {arrays : Dataset α} {name : String} {v : α}
    (h : arrays.scalar name = .ok v) : optional scalar arrays name = .ok (some v) :=
  optional_of_present (contains_of_scalar h) h

end Dataset

end PlasmaField
