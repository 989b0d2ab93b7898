import Mathlib
import PlasmaField.Proofs.EdgeDamping
import PlasmaField.Proofs.Parameters.RoundTrip

/-!
# The check that damped strips leave room

Strips along opposite walls leave room between them if twice their width in cells is below the
number of grid points from wall to wall. The check doubles the width in a 64-bit word. This is exact
for widths below `2 ^ 63`, and a greater width passes if its excess over `2 ^ 63` leaves room,
`doubled_lt_iff`. A field is therefore damped whenever the strips leave room, and refused when they
do not, unless a width is `2 ^ 63` or more: `MagneticField.checksRoom_smooth`. Strips of `2 ^ 63`
cells are accepted on a grid of two columns, `MagneticField.wideStrips_accepted`.

Whatever passes has points in both directions, so the ends of a grid are not read where there are
none.
-/

namespace PlasmaField

open Outcome (map_eq_ok_iff)

namespace EdgeDamping

/-- Strips of the given width along two opposite walls leave some of the grid points from wall to
wall between them. -/
def LeavesRoom (cells : UInt64) (points : ℕ) : Prop :=
  2 * cells.toNat < points

/-- Whether strips leave room is a comparison of two numbers. -/
instance (cells : UInt64) (points : ℕ) : Decidable (LeavesRoom cells points) :=
  inferInstanceAs (Decidable (_ < _))

/-- Strips that leave room, or would do so without `2 ^ 63` of their cells. -/
def Passes (cells : UInt64) (points : ℕ) : Prop :=
  LeavesRoom cells points ∨ 2 ^ 63 ≤ cells.toNat ∧ 2 * (cells.toNat - 2 ^ 63) < points

/-- Below `2 ^ 63` cells the strips that pass are those that leave room. -/
theorem passes_iff_of_lt {cells : UInt64} (h : cells.toNat < 2 ^ 63) (points : ℕ) :
    Passes cells points ↔ LeavesRoom cells points :=
  or_iff_left fun hwide ↦ hwide.1.not_gt h

/-- The double of a width is compared after it was cut to 64 bits. -/
theorem doubled_lt_iff {cells : UInt64} {points : ℕ} :
    (2 * cells).toNat < points ↔ Passes cells points := by
  rcases Nat.lt_or_ge cells.toNat (2 ^ 63) with hnarrow | hwide
  · rw [toNat_two_mul hnarrow, passes_iff_of_lt hnarrow]
    rfl
  · have hword : cells.toNat < 2 ^ 64 := cells.toNat_lt
    have hdouble : (2 * cells).toNat = 2 * cells.toNat % 2 ^ 64 := UInt64.toNat_mul 2 cells
    have hexcess : 2 * cells.toNat % 2 ^ 64 = 2 * (cells.toNat - 2 ^ 63) := by omega
    unfold Passes LeavesRoom
    rw [hdouble, hexcess]
    omega

section Check

variable {α : Type} [Scalar α] {grid : Grid α} {p : DampingParameters}

/-- Strips are accepted if they pass in both directions. -/
theorem exists_ofParameters_iff : (∃ d, ofParameters grid p = .ok d) ↔
    Passes p.xBoundary grid.nr ∧ Passes p.zBoundary grid.nz := by
  simp only [ofParameters_eq_ok_iff, exists_and_left, exists_eq, and_true, doubled_lt_iff]

/-- Strips of which one does not pass are refused. -/
theorem ofParameters_eq_error (h : ¬ (Passes p.xBoundary grid.nr ∧ Passes p.zBoundary grid.nz)) :
    ofParameters grid p =
      .error (.config (.overlappingBuffers p.xBoundary p.zBoundary grid.nr grid.nz)) := by
  have hoverlap : grid.nr ≤ (2 * p.xBoundary).toNat || grid.nz ≤ (2 * p.zBoundary).toNat := by
    simp only [Bool.or_eq_true, decide_eq_true_eq, ← not_lt, doubled_lt_iff]
    exact not_and_or.mp h
  unfold ofParameters
  exact if_pos hoverlap

end Check

end EdgeDamping

open EdgeDamping (LeavesRoom Passes)

/-- An entry of an array is read where there is one. -/
theorem Scalar.nth_of_lt {α : Type} [Scalar α] {xs : Array α} {i : ℕ} (h : i < xs.size) :
    Scalar.nth xs i = xs[i] := by
  simp [Scalar.nth, h]

namespace MagneticField

variable {α : Type} [ElementaryScalar α]

/-- Damping a field on a grid succeeds just if the strips leave room, as long as they are less than
`2 ^ 63` cells wide; and in any case just if they pass. It fails with the widths and the numbers of
points. Where it succeeds, the outer lines of the strips are entries of the grid. The parameters can
have been read from a document, whatever the widths are. -/
structure ChecksRoom (inner : MagneticField α) (grid : Grid α) (p : DampingParameters) : Prop where
  ok_iff_leavesRoom : p.xBoundary.toNat < 2 ^ 63 → p.zBoundary.toNat < 2 ^ 63 →
    ((∃ field, inner.smooth grid p = .ok field) ↔
      LeavesRoom p.xBoundary grid.nr ∧ LeavesRoom p.zBoundary grid.nz)
  ok_iff_passes : (∃ field, inner.smooth grid p = .ok field) ↔
    Passes p.xBoundary grid.nr ∧ Passes p.zBoundary grid.nz
  refused : (¬ ∃ field, inner.smooth grid p = .ok field) → inner.smooth grid p =
    .error (.config (.overlappingBuffers p.xBoundary p.zBoundary grid.nr grid.nz))
  ends : ∀ field, inner.smooth grid p = .ok field →
    ∃ (hr : 0 < grid.r.size) (hz : 0 < grid.z.size) (d : EdgeDamping α),
      field = .smoothed inner d ∧
      d.left.outer = grid.r[0] ∧ d.right.outer = grid.r[grid.r.size - 1] ∧
      d.bottom.outer = grid.z[0] ∧ d.top.outer = grid.z[grid.z.size - 1]
  readsBack : ReadsBack (α := α) DampingParameters.toJson DampingParameters.ofJson? p

/-- A field is damped if the strips pass. -/
theorem exists_smooth_iff {inner : MagneticField α} {grid : Grid α} {p : DampingParameters} :
    (∃ field, inner.smooth grid p = .ok field) ↔
      Passes p.xBoundary grid.nr ∧ Passes p.zBoundary grid.nz := by
  rw [← EdgeDamping.exists_ofParameters_iff]
  constructor
  · rintro ⟨field, h⟩
    obtain ⟨d, hd, -⟩ := map_eq_ok_iff.mp h
    exact ⟨d, hd⟩
  · rintro ⟨d, hd⟩
    exact ⟨.smoothed inner d, map_eq_ok_iff.mpr ⟨d, hd, rfl⟩⟩

/-- Damping a field checks that the strips leave room. -/
theorem checksRoom_smooth (inner : MagneticField α) (grid : Grid α) (p : DampingParameters) :
    inner.ChecksRoom grid p where
  ok_iff_leavesRoom hx hz := by
    rw [exists_smooth_iff, EdgeDamping.passes_iff_of_lt hx, EdgeDamping.passes_iff_of_lt hz]
  ok_iff_passes := exists_smooth_iff
  refused h := by
    unfold smooth
    rw [EdgeDamping.ofParameters_eq_error (mt exists_smooth_iff.mpr h)]
    rfl
  ends field h := by
    obtain ⟨d, hd, rfl⟩ := map_eq_ok_iff.mp h
    obtain ⟨⟨hcolumns, hrows⟩, hstrips⟩ := EdgeDamping.ofParameters_eq_ok_iff.mp hd
    have hr₀ : 0 < grid.r.size := Nat.zero_lt_of_lt hcolumns
    have hz₀ : 0 < grid.z.size := Nat.zero_lt_of_lt hrows
    refine ⟨hr₀, hz₀, d, rfl, ?_⟩
    subst hstrips
    exact ⟨Scalar.nth_of_lt hr₀, Scalar.nth_of_lt (Nat.sub_one_lt hr₀.ne'),
      Scalar.nth_of_lt hz₀, Scalar.nth_of_lt (Nat.sub_one_lt hz₀.ne')⟩
  readsBack := DampingParameters.readsBack p

/-- Strips of `2 ^ 63` cells do not leave room between two columns, and are accepted there. -/
theorem wideStrips_accepted :
    let grid : Grid Float := Grid.uniform 2 2 0 1 0 1
    let p : DampingParameters := ⟨2 ^ 63, 0, .damped⟩
    ¬ LeavesRoom p.xBoundary grid.nr ∧
      ∃ field, MagneticField.uniform.smooth grid p = .ok field := by
  intro grid p
  have hroom : ¬ LeavesRoom p.xBoundary grid.nr := by
    decide +kernel
  exact ⟨hroom, Outcome.exists_of_isOk (by decide +kernel)⟩

end MagneticField

end PlasmaField
