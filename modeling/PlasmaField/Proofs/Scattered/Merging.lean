import Mathlib
import PlasmaField.Proofs.Scattered.Reproduction

/-!
# Merging of nearby points

Input points are merged when they lie in the same square of a grid whose spacing is the tolerance.
Every input point is therefore closer than the tolerance, along both axes, to the kept point that it
is merged into, and this is the first input point in the square. Points are kept apart by the lines
between the squares and not by their distance: `ofPoints_merges`. Two points on the two sides of a
line are both kept, however close they are.
-/

namespace PlasmaField.Scattered

open scoped Exact
open Delaunay (pointAt boundingBox)

/-- Dropping the members with repeated keys leaves one member for every key. -/
theorem exists_mem_eraseDupsBy {β κ : Type} [BEq κ] [LawfulBEq κ] (key : β → κ) {l : List β} {a : β}
    (ha : a ∈ l) : ∃ b ∈ l.eraseDupsBy fun p q ↦ key p == key q, key b = key a := by
  induction l using eraseDupsBy_induction fun p q ↦ key p == key q with
  | nil => cases ha
  | cons c l ih =>
      rw [List.eraseDupsBy_cons]
      by_cases hkey : key c = key a
      · exact ⟨c, List.mem_cons_self, hkey⟩
      · have hne : a ≠ c := fun h ↦ hkey (congrArg key h).symm
        have ha : a ∈ l.filter fun p ↦ (key p == key c) = false :=
          List.mem_filter.mpr ⟨(List.mem_cons.mp ha).resolve_left hne, by
            simpa using fun h : key a = key c ↦ hkey h.symm⟩
        obtain ⟨b, hb, hkey⟩ := ih ha
        exact ⟨b, List.mem_cons_of_mem c hb, hkey⟩

variable {K : Type} [Field K] [LinearOrder K] [FloorRing K]

/-! ## The lines of the merging grid -/

/-- Line number `k` of the merging grid, midway between two places that coordinates are rounded
to. -/
def gridLine (origin spacing : K) (k : ℕ) : K :=
  origin + (k + 1 / 2) * spacing

/-- A line of the merging grid passes between two coordinates: one lies below the line, and the
other one on it or above it. -/
def Crossed (origin spacing a b : K) : Prop :=
  ∃ k, min a b < gridLine origin spacing k ∧ gridLine origin spacing k ≤ max a b

section Lines

variable [IsStrictOrderedRing K] {origin spacing a b : K}

/-- Coordinates from the origin on are rounded up from the middle between two places. -/
theorem nearest_eq_floor (hs : 0 < spacing) (ha : origin ≤ a) :
    Scalar.nearest ((a - origin) / spacing) = ⌊(a - origin) / spacing + 1 / 2⌋ :=
  (if_pos (div_nonneg (sub_nonneg.mpr ha) hs.le)).trans (round_eq _)

/-- A coordinate is rounded to the number of lines that are not above it. -/
theorem gridLine_le_iff (hs : 0 < spacing) (ha : origin ≤ a) (k : ℕ) :
    gridLine origin spacing k ≤ a ↔ (k : ℤ) < Scalar.nearest ((a - origin) / spacing) := by
  calc gridLine origin spacing k ≤ a ↔ (k + 1 / 2) * spacing ≤ a - origin := by
        rw [gridLine, le_sub_iff_add_le']
    _ ↔ (k : K) + 1 / 2 ≤ (a - origin) / spacing := (le_div_iff₀ hs).symm
    _ ↔ (((k + 1 : ℤ)) : K) ≤ (a - origin) / spacing + 1 / 2 := by
        rw [← sub_le_iff_le_add]
        push_cast
        rw [add_sub_assoc]
        norm_num
    _ ↔ (k : ℤ) < Scalar.nearest ((a - origin) / spacing) := by
        rw [nearest_eq_floor hs ha, ← Int.le_floor, Int.add_one_le_iff]

/-- Coordinates are rounded to the same place when no line passes between them. -/
theorem nearest_eq_iff (hs : 0 < spacing) (ha : origin ≤ a) (hb : origin ≤ b) :
    Scalar.nearest ((a - origin) / spacing) = Scalar.nearest ((b - origin) / spacing) ↔
      ¬ Crossed origin spacing a b := by
  have hnonneg : ∀ {c}, origin ≤ c → 0 ≤ Scalar.nearest ((c - origin) / spacing) := by
    intro c hc
    have hdiv : 0 ≤ (c - origin) / spacing := div_nonneg (sub_nonneg.mpr hc) hs.le
    rw [nearest_eq_floor hs hc]
    exact Int.floor_nonneg.mpr (by positivity)
  have hcrossed : Crossed origin spacing a b ↔
      ∃ k : ℕ, (Scalar.nearest ((a - origin) / spacing) ≤ k ∨
        Scalar.nearest ((b - origin) / spacing) ≤ k) ∧
        ((k : ℤ) < Scalar.nearest ((a - origin) / spacing) ∨
          (k : ℤ) < Scalar.nearest ((b - origin) / spacing)) := by
    refine exists_congr fun k ↦ ?_
    rw [min_lt_iff, le_max_iff, ← not_le, ← not_le, gridLine_le_iff hs ha, gridLine_le_iff hs hb,
      not_lt, not_lt]
  rw [hcrossed, not_exists]
  constructor
  · intro h k
    omega
  · intro h
    -- the line after the smaller of two different places passes between them
    have := h (min (Scalar.nearest ((a - origin) / spacing))
      (Scalar.nearest ((b - origin) / spacing))).toNat
    have := hnonneg ha
    have := hnonneg hb
    omega

/-- Coordinates that no line separates are closer than the spacing. -/
theorem abs_sub_lt_of_not_crossed (hs : 0 < spacing) (ha : origin ≤ a) (hb : origin ≤ b)
    (h : ¬ Crossed origin spacing a b) : |a - b| < spacing := by
  have hsame := (nearest_eq_iff hs ha hb).mpr h
  rw [nearest_eq_floor hs ha, nearest_eq_floor hs hb] at hsame
  have hlt := Int.abs_sub_lt_one_of_floor_eq_floor hsame
  rwa [add_sub_add_right_eq_sub, ← sub_div, sub_sub_sub_cancel_right, abs_div, abs_of_pos hs,
    div_lt_one hs] at hlt

end Lines

/-! ## The points of a square -/

section Squares

variable {points : Array (Point K)}

/-- In the square of every input point one is kept. -/
theorem exists_kept {i : ℕ} (hi : i < points.size) :
    ∃ v < (kept points).size, squareOf points (inputOf points v) = squareOf points i := by
  obtain ⟨b, hb, hkey⟩ := exists_mem_eraseDupsBy (·.1) (mem_keyed hi)
  have hkept : b.2 ∈ keptOf points := List.mem_map_of_mem hb
  obtain ⟨v, hv, hget⟩ := List.getElem_of_mem hkept
  rw [getElem_keptOf hv] at hget
  have hsize : v < (kept points).size := by simpa [kept] using hv
  refine ⟨v, hsize, Eq.trans ?_ hkey⟩
  exact (eq_squareOf_of_mem_keyed hsize ((eraseDupsBy_sublist _ _).subset hb) hget.symm).symm

/-- Different kept points lie in different squares. -/
theorem squareOf_inputOf_injective {v w : ℕ} (hv : v < (kept points).size)
    (hw : w < (kept points).size)
    (h : squareOf points (inputOf points v) = squareOf points (inputOf points w)) : v = w := by
  refine inputOf_injective hv hw ?_
  rcases lt_trichotomy (inputOf points v) (inputOf points w) with hlt | heq | hlt
  · exact absurd ⟨_, hlt, h⟩ (not_merged_inputOf hw)
  · exact heq
  · exact absurd ⟨_, hlt, h.symm⟩ (not_merged_inputOf hv)

/-- The number of the kept point that input point number `i` is merged into: the one in its
square. -/
def vertexOf (points : Array (Point K)) (i : ℕ) : ℕ :=
  (keptOf points).findIdx fun p ↦ squareOf points p.2 == squareOf points i

/-- The kept point that an input point is merged into lies in its square. -/
theorem vertexOf_spec {i : ℕ} (hi : i < points.size) : vertexOf points i < (kept points).size ∧
    squareOf points (inputOf points (vertexOf points i)) = squareOf points i := by
  obtain ⟨v, hv, hsquare⟩ := exists_kept hi
  have hlt : vertexOf points i < (keptOf points).length := by
    refine List.findIdx_lt_length_of_exists ⟨_, mem_keptOf hv, ?_⟩
    rw [hsquare, beq_self_eq_true]
  have hfound : (squareOf points (keptOf points)[vertexOf points i].2 ==
      squareOf points i) = true := List.findIdx_getElem (w := hlt)
  rw [getElem_keptOf hlt] at hfound
  exact ⟨by simpa [kept] using hlt, eq_of_beq hfound⟩

/-- An input point is merged into the kept point in its square. -/
theorem vertexOf_eq_iff {i v : ℕ} (hi : i < points.size) (hv : v < (kept points).size) :
    vertexOf points i = v ↔ squareOf points (inputOf points v) = squareOf points i := by
  obtain ⟨hlt, hsquare⟩ := vertexOf_spec hi
  constructor
  · rintro rfl
    exact hsquare
  · intro h
    exact squareOf_inputOf_injective hlt hv (hsquare.trans h.symm)

end Squares

/-! ## The tolerance -/

/-- The interpolant `s` merges the input points with a tolerance, input point number `i` into the
kept point number `into i`. -/
structure Merges (points : Array (Point K)) (s : Scattered K) (tolerance : K) (into : ℕ → ℕ) :
    Prop where
  /-- Every input point is merged into a kept point that is closer than the tolerance along both
  axes. -/
  near : ∀ i < points.size, into i < s.points.size ∧
    |(pointAt points i).x - (pointAt s.points (into i)).x| < tolerance ∧
    |(pointAt points i).y - (pointAt s.points (into i)).y| < tolerance
  /-- Every kept point is the first of the input points that are merged into it. -/
  earliest : ∀ v < s.points.size, ∃ i < points.size, into i = v ∧
    pointAt points i = pointAt s.points v ∧ ∀ j < points.size, into j = v → i ≤ j
  /-- Input points are merged when no line of the grid passes between them. -/
  merged_iff : ∀ i < points.size, ∀ j < points.size, into i = into j ↔
    ¬ Crossed s.box.x₀ tolerance (pointAt points i).x (pointAt points j).x ∧
    ¬ Crossed s.box.y₀ tolerance (pointAt points i).y (pointAt points j).y
  /-- Two kept points are at least the tolerance apart along an axis, or a line of the grid passes
  between them. -/
  apart : ∀ v < s.points.size, ∀ w < s.points.size, v ≠ w →
    tolerance ≤ |(pointAt s.points v).x - (pointAt s.points w).x| ∨
    tolerance ≤ |(pointAt s.points v).y - (pointAt s.points w).y| ∨
    Crossed s.box.x₀ tolerance (pointAt s.points v).x (pointAt s.points w).x ∨
    Crossed s.box.y₀ tolerance (pointAt s.points v).y (pointAt s.points w).y

section Construction

variable [IsStrictOrderedRing K] {points : Array (Point K)}

/-- The spacing of the merging grid in the field's operations. -/
theorem spacing_eq (points : Array (Point K)) :
    sideOf points * mergeDistance = sideOf points / 10 ^ 10 := by
  unfold mergeDistance
  rw [Exact.literal_scientific, Exact.decimal_eq, Nat.cast_one, mul_one_div]

omit [IsStrictOrderedRing K] in
/-- No input point lies before the origin of the merging grid. -/
theorem box_le {i : ℕ} (hi : i < points.size) :
    (boundingBox points.toList).x₀ ≤ (pointAt points i).x ∧
      (boundingBox points.toList).y₀ ≤ (pointAt points i).y := by
  have hmem : pointAt points i ∈ points.toList := by
    simp [pointAt, Array.getD_eq_getD_getElem?, hi]
  have hbox := Delaunay.isBoundingBox_boundingBox (List.ne_nil_of_mem hmem)
  exact ⟨(hbox.mem_x _ hmem).1, (hbox.mem_y _ hmem).1⟩

/-- Input points lie in the same square when no line of the grid passes between them. -/
theorem squareOf_eq_iff (hside : 0 < sideOf points) {i j : ℕ} (hi : i < points.size)
    (hj : j < points.size) : squareOf points i = squareOf points j ↔
      ¬ Crossed (boundingBox points.toList).x₀ (sideOf points / 10 ^ 10)
        (pointAt points i).x (pointAt points j).x ∧
      ¬ Crossed (boundingBox points.toList).y₀ (sideOf points / 10 ^ 10)
        (pointAt points i).y (pointAt points j).y := by
  have hspacing : 0 < sideOf points / 10 ^ 10 := by positivity
  unfold squareOf square
  rw [Prod.mk.injEq, spacing_eq, nearest_eq_iff hspacing (box_le hi).1 (box_le hj).1,
    nearest_eq_iff hspacing (box_le hi).2 (box_le hj).2]

/-- An interpolant that is constructed keeps the first point of every square of the merging grid and
merges the other points of the square into it. Points in different squares are kept, even where they
are closer than the tolerance. -/
theorem ofPoints_merges {s : Scattered K} (h : ofPoints points = .ok s) :
    Merges points s (sideOf points / 10 ^ 10) (vertexOf points) := by
  obtain ⟨-, hside, -, rfl⟩ := ofPoints_eq_ok_iff.mp h
  have hspacing : 0 < sideOf points / 10 ^ 10 := by positivity
  have hinput : ∀ {v}, v < (kept points).size → vertexOf points (inputOf points v) = v :=
    fun hv ↦ (vertexOf_eq_iff (pointAt_inputOf hv).1 hv).mpr rfl
  have hmerged : ∀ i < points.size, ∀ j < points.size, vertexOf points i = vertexOf points j ↔
      ¬ Crossed (boundingBox points.toList).x₀ (sideOf points / 10 ^ 10)
        (pointAt points i).x (pointAt points j).x ∧
      ¬ Crossed (boundingBox points.toList).y₀ (sideOf points / 10 ^ 10)
        (pointAt points i).y (pointAt points j).y := by
    intro i hi j hj
    obtain ⟨hlt, hsquare⟩ := vertexOf_spec hj
    rw [vertexOf_eq_iff hi hlt, hsquare, eq_comm, squareOf_eq_iff hside hi hj]
  refine ⟨fun i hi ↦ ?_, fun v hv ↦ ?_, hmerged, fun v hv w hw hvw ↦ ?_⟩
  · obtain ⟨hlt, -⟩ := vertexOf_spec hi
    obtain ⟨hsize, hpoint⟩ := pointAt_inputOf hlt
    obtain ⟨hx, hy⟩ := (hmerged i hi _ hsize).mp (hinput hlt).symm
    refine ⟨hlt, ?_⟩
    show |_ - (pointAt (kept points) _).x| < _ ∧ |_ - (pointAt (kept points) _).y| < _
    rw [← hpoint]
    exact ⟨abs_sub_lt_of_not_crossed hspacing (box_le hi).1 (box_le hsize).1 hx,
      abs_sub_lt_of_not_crossed hspacing (box_le hi).2 (box_le hsize).2 hy⟩
  · refine ⟨inputOf points v, (pointAt_inputOf hv).1, hinput hv, (pointAt_inputOf hv).2, ?_⟩
    intro j hj hjv
    by_contra hlt
    exact not_merged_inputOf hv ⟨j, not_le.mp hlt, ((vertexOf_eq_iff hj hv).mp hjv).symm⟩
  · obtain ⟨hsizev, hpointv⟩ := pointAt_inputOf hv
    obtain ⟨hsizew, hpointw⟩ := pointAt_inputOf hw
    have hseparate := mt (hmerged _ hsizev _ hsizew).mpr (by rwa [hinput hv, hinput hw])
    rw [hpointv, hpointw, not_and_or, not_not, not_not] at hseparate
    exact Or.inr (Or.inr hseparate)

end Construction

/-- Five points, of which the last one nearly coincides with the second. -/
def nearlyRepeated : Array (Point ℚ) :=
  #[⟨0, 0⟩, ⟨4, 0⟩, ⟨1, 3⟩, ⟨2, 1⟩, ⟨4, 1 / 10 ^ 11⟩]

/-- The point that nearly coincides with another one is merged into it. -/
theorem nearlyRepeated_merges : ∃ s, ofPoints nearlyRepeated = .ok s ∧
    Merges nearlyRepeated s (sideOf nearlyRepeated / 10 ^ 10) (vertexOf nearlyRepeated) ∧
    sideOf nearlyRepeated = 4 ∧ vertexOf nearlyRepeated 4 = 1 := by
  have hok : ofPoints nearlyRepeated = .ok (interpolantOf nearlyRepeated) :=
    ofPoints_of_isOk (by decide +kernel)
  exact ⟨_, hok, ofPoints_merges hok, by decide +kernel, by decide +kernel⟩

/-- Four points with a bounding box of side four. A line of the merging grid passes between the
first and the last of them. -/
def acrossLine : Array (Point ℚ) :=
  #[⟨0, 0⟩, ⟨4, 0⟩, ⟨0, 4⟩, ⟨1 / 2 ^ 32, 0⟩]

/-- Two points that are closer together than the tolerance are both kept. -/
theorem acrossLine_keeps_close : ∃ s, ofPoints acrossLine = .ok s ∧ sideOf acrossLine = 4 ∧
    s.points.size = 4 ∧
    |(pointAt s.points 0).x - (pointAt s.points 3).x| < 4 / 10 ^ 10 ∧
    |(pointAt s.points 0).y - (pointAt s.points 3).y| < 4 / 10 ^ 10 := by
  have hok : ofPoints acrossLine = .ok (interpolantOf acrossLine) :=
    ofPoints_of_isOk (by decide +kernel)
  exact ⟨_, hok, by decide +kernel, by decide +kernel, by decide +kernel, by decide +kernel⟩

end PlasmaField.Scattered
