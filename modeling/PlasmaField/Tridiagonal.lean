import PlasmaField.Error

/-!
# Tridiagonal linear systems

A system in which every equation couples a value with its two neighbours is solved by one sweep: a
row is reduced by the row above it, the remaining rows are solved, and the row's own value follows
from the value below it. A row whose reduced pivot vanishes is reported by its number.
-/

namespace PlasmaField.Tridiagonal

variable {α : Type} [Scalar α]

/-- One equation: `lower` times the value above, `diagonal` times the row's own value and `upper`
times the value below add up to `rhs`. -/
structure Row (α : Type) where
  lower : α
  diagonal : α
  upper : α
  rhs : α

/-- Pivots of smaller magnitude count as zero. -/
def pivotThreshold : α := 1e-300

/-- The values of a row and of all rows after it, where `pivot` and `rhs` are what the rows before
have left of the row's diagonal and right-hand side, and `index` is the row's number. -/
def sweep (index : Nat) (pivot rhs upper : α) : List (Row α) → Except (FieldError α) (List α)
  | [] =>
    if Scalar.abs pivot < pivotThreshold then throw (.physics (.zeroPivot index))
    else return [rhs / pivot]
  | next :: rows =>
    if Scalar.abs pivot < pivotThreshold then throw (.physics (.zeroPivot index))
    else do
      let c := upper / pivot
      let d := rhs / pivot
      let xs ← sweep (index + 1) (next.diagonal - next.lower * c) (next.rhs - next.lower * d)
        next.upper rows
      return (d - c * xs.headD 0) :: xs

/-- The solution of the system with the given rows. The first row has no value above it and the last
row none below, so their outer coefficients are not read. -/
def solveRows : List (Row α) → Except (FieldError α) (List α)
  | [] => throw (.shape .emptySystem)
  | row :: rows => sweep 0 row.diagonal row.rhs row.upper rows

/-- The rows of a system given by its three bands and its right-hand side. -/
def rowsOfBands (lower diagonal upper rhs : Array α) : List (Row α) :=
  (List.range rhs.size).map fun i ↦
    ⟨Scalar.nth lower i, Scalar.nth diagonal i, Scalar.nth upper i, Scalar.nth rhs i⟩

/-- The solution of the system with the given bands, which must be as long as the right-hand
side. -/
def solve (lower diagonal upper rhs : Array α) : Except (FieldError α) (Array α) := do
  let n := rhs.size
  if n = 0 then
    throw (.shape .emptySystem)
  if lower.size != n || diagonal.size != n || upper.size != n then
    throw (.shape (.bandLengths n lower.size diagonal.size upper.size))
  let xs ← solveRows (rowsOfBands lower diagonal upper rhs)
  return xs.toArray

end PlasmaField.Tridiagonal
