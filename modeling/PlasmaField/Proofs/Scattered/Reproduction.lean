import Mathlib
import PlasmaField.Proofs.Scattered.Location

/-!
# Samples of an affine function

A stencil names three different input points that are kept, with weights that have the target as
their mean, `weighs_of_locate`. Interpolation therefore gives back every affine function where a
target is located, and samples at points that are merged into earlier ones have no influence,
`ofPoints_reproduces`.
-/

namespace PlasmaField.Scattered

open scoped Exact
open Delaunay (pointAt boundingBox orientation triangulate)
open Scalar (nth)

/-- In a list whose members have increasing places, dropping the members with repeated keys keeps
the one with the first place for every key. -/
theorem place_le_of_mem_eraseDupsBy {β κ : Type} [BEq κ] [LawfulBEq κ] (key : β → κ) (place : β → ℕ)
    {l : List β} (hl : l.Pairwise fun a b ↦ place a < place b) {a b : β}
    (hb : b ∈ l.eraseDupsBy fun p q ↦ key p == key q) (ha : a ∈ l) (hkey : key a = key b) :
    place b ≤ place a := by
  induction l using eraseDupsBy_induction fun p q ↦ key p == key q with
  | nil => cases ha
  | cons c l ih =>
      obtain ⟨hfirst, hrest⟩ := List.pairwise_cons.mp hl
      rw [List.eraseDupsBy_cons] at hb
      rcases List.mem_cons.mp hb with rfl | hb
      · rcases List.mem_cons.mp ha with rfl | ha
        · exact le_rfl
        · exact (hfirst a ha).le
      · -- the first member has another key, so that it is neither of the two
        have hother : key b ≠ key c := by
          have hmem := (eraseDupsBy_sublist _ _).subset hb
          simpa using (List.mem_filter.mp hmem).2
        have ha : a ∈ l.filter fun p ↦ (key p == key c) = false := by
          rcases List.mem_cons.mp ha with rfl | ha
          · exact absurd hkey.symm hother
          · exact List.mem_filter.mpr ⟨ha, by simpa [hkey] using hother⟩
        exact ih (hrest.sublist List.filter_sublist) hb ha

/-- An affine function of the coordinates. -/
def affine {K : Type} [Field K] (a b c : K) (p : Point K) : K :=
  a * p.x + b * p.y + c

variable {K : Type} [Field K] [LinearOrder K] [FloorRing K] {points : Array (Point K)}

/-- The square of the merging grid that input point number `i` lies in. -/
def squareOf (points : Array (Point K)) (i : ℕ) : ℤ × ℤ :=
  square (boundingBox points.toList).x₀ (boundingBox points.toList).y₀
    (sideOf points * mergeDistance) (pointAt points i)

/-- Input point number `i` is merged into an earlier one, which lies in the same square. -/
def Merged (points : Array (Point K)) (i : ℕ) : Prop :=
  ∃ j < i, squareOf points j = squareOf points i

/-- Whether a point is merged can be computed. -/
instance (points : Array (Point K)) (i : ℕ) : Decidable (Merged points i) :=
  inferInstanceAs (Decidable (∃ j < i, _))

/-- The number of the input point that kept point number `v` is. -/
def inputOf (points : Array (Point K)) (v : ℕ) : ℕ :=
  (interpolantOf points).representative.getD v 0

/-- The kept points and the numbers of their input points belong together. -/
theorem getElem_keptOf {v : ℕ} (hv : v < (keptOf points).length) :
    (keptOf points)[v] = (pointAt (kept points) v, inputOf points v) := by
  simp [pointAt, kept, inputOf, interpolantOf, Array.getD_eq_getD_getElem?, hv]

/-- A kept point is found together with the number of its input point. -/
theorem mem_keptOf {v : ℕ} (hv : v < (kept points).size) :
    (pointAt (kept points) v, inputOf points v) ∈ keptOf points := by
  have hlength : v < (keptOf points).length := by simpa [kept] using hv
  rw [← getElem_keptOf hlength]
  exact List.getElem_mem hlength

/-- A kept point is the input point of its number. -/
theorem pointAt_inputOf {v : ℕ} (hv : v < (kept points).size) :
    inputOf points v < points.size ∧
      pointAt points (inputOf points v) = pointAt (kept points) v := by
  have hmem := (keptOf_sublist points).subset (mem_keptOf hv)
  obtain ⟨-, hlt, hpoint⟩ := List.mem_zipIdx hmem
  have hlt : inputOf points v < points.size := by simpa using hlt
  refine ⟨hlt, ?_⟩
  rw [hpoint]
  simp [pointAt, Array.getD_eq_getD_getElem?, hlt]

/-- Different kept points have different input points. -/
theorem inputOf_injective {v w : ℕ} (hv : v < (kept points).size) (hw : w < (kept points).size)
    (h : inputOf points v = inputOf points w) : v = w := by
  have hnodup : ((keptOf points).map (·.2)).Nodup := by
    refine ((keptOf_sublist points).map _).nodup ?_
    rw [List.zipIdx_map_snd]
    exact List.nodup_range'
  have hget : ∀ {i : ℕ}, i < (kept points).size →
      ((keptOf points).map (·.2))[i]? = some (inputOf points i) := by
    intro i hi
    have hlength : i < (keptOf points).length := by simpa [kept] using hi
    simp [inputOf, interpolantOf, Array.getD_eq_getD_getElem?, hlength]
  have hlength : v < ((keptOf points).map (·.2)).length := by simpa [kept] using hv
  refine (List.getElem?_inj hlength hnodup).mp ?_
  rw [hget hv, hget hw, h]

/-- The input points with their numbers, each under the square that it lies in. -/
def keyed (points : Array (Point K)) : List ((ℤ × ℤ) × Point K × ℕ) :=
  points.toList.zipIdx.map fun p ↦ (square (boundingBox points.toList).x₀
    (boundingBox points.toList).y₀ (sideOf points * mergeDistance) p.1, p)

/-- The kept points are the first ones of their squares. -/
theorem keptOf_eq (points : Array (Point K)) :
    keptOf points = ((keyed points).eraseDupsBy fun p q ↦ p.1 == q.1).map (·.2) :=
  rfl

/-- Every input point is listed under its square. -/
theorem mem_keyed {i : ℕ} (hi : i < points.size) :
    (squareOf points i, pointAt points i, i) ∈ keyed points := by
  refine List.mem_map.mpr ⟨(pointAt points i, i), ?_, rfl⟩
  rw [List.mem_zipIdx_iff_getElem?]
  simp [pointAt, Array.getD_eq_getD_getElem?, hi]

/-- A kept point is listed under its square. -/
theorem eq_squareOf_of_mem_keyed {v : ℕ} (hv : v < (kept points).size)
    {b : (ℤ × ℤ) × Point K × ℕ} (hb : b ∈ keyed points)
    (hbv : b.2 = (pointAt (kept points) v, inputOf points v)) :
    b.1 = squareOf points (inputOf points v) := by
  obtain ⟨p, -, rfl⟩ := List.mem_map.mp hb
  rw [squareOf, (pointAt_inputOf hv).2]
  exact congrArg (fun q ↦ square _ _ _ q.1) hbv

/-- The input point of a kept point is not merged into another one. -/
theorem not_merged_inputOf {v : ℕ} (hv : v < (kept points).size) :
    ¬ Merged points (inputOf points v) := by
  rintro ⟨j, hj, hsquare⟩
  have hkept := mem_keptOf hv
  rw [keptOf_eq] at hkept
  obtain ⟨b, hb, hbv⟩ := List.mem_map.mp hkept
  have hordered : (keyed points).Pairwise fun a b ↦ a.2.2 < b.2.2 := by
    refine List.Pairwise.map _ (fun _ _ h ↦ h) ?_
    refine List.pairwise_map.mp (?_ : (points.toList.zipIdx.map Prod.snd).Pairwise (· < ·))
    rw [List.zipIdx_map_snd]
    exact List.pairwise_lt_range'
  have hkey : squareOf points j = b.1 :=
    hsquare.trans (eq_squareOf_of_mem_keyed hv ((eraseDupsBy_sublist _ _).subset hb) hbv).symm
  have hle := place_le_of_mem_eraseDupsBy (·.1) (·.2.2) hordered hb
    (mem_keyed (hj.trans (pointAt_inputOf hv).1)) hkey
  rw [hbv] at hle
  exact absurd hj hle.not_gt

/-! ## Stencils -/

/-- A stencil gives a target as the mean of three different input points, none of which is merged
into an earlier one. No weight is further below zero than the slack. -/
structure Weighs (points : Array (Point K)) (e : Stencil K) (x y : K) : Prop where
  lt_size : ∀ i ∈ [e.i, e.j, e.k], i < points.size
  different : [e.i, e.j, e.k].Nodup
  first : ∀ i ∈ [e.i, e.j, e.k], ¬ Merged points i
  sum : e.wi + e.wj + e.wk = 1
  slack_le : ∀ w ∈ [e.wi, e.wj, e.wk], -(1 / 10 ^ 10) ≤ w
  mean_x : e.wi * (pointAt points e.i).x + e.wj * (pointAt points e.j).x
    + e.wk * (pointAt points e.k).x = x
  mean_y : e.wi * (pointAt points e.i).y + e.wj * (pointAt points e.j).y
    + e.wk * (pointAt points e.k).y = y

variable [IsStrictOrderedRing K]

/-- A target that is located lies on a triangle that is not too thin, and takes its weights and its
samples from there. -/
theorem exists_of_locate {x y : K} {e : Stencil K}
    (h : (interpolantOf points).locate x y = some e) :
    ∃ t ∈ triangulate (kept points), ¬ Thin (kept points) t ∧ ∃ w₁ w₂ w₃,
      sharesOf (kept points) t ⟨x, y⟩ = (w₁, w₂, w₃) ∧ -slack ≤ w₁ ∧ -slack ≤ w₂ ∧ -slack ≤ w₃ ∧
      e = ⟨inputOf points t.a, inputOf points t.b, inputOf points t.c, w₁, w₂, w₃⟩ := by
  unfold locate at h
  split at h
  next =>
    obtain ⟨t, ht, hstencil⟩ := List.exists_of_findSome?_eq_some h
    have hcandidates : (interpolantOf points).buckets.candidates x y = _ :=
      Buckets.candidates_ofTriangles rfl x y
    rw [hcandidates] at ht
    have hmem : t ∈ triangulate (kept points) := (List.mem_filter.mp ht).1
    obtain ⟨⟨w₁, w₂, w₃⟩, hweights, he⟩ := Option.map_eq_some_iff.mp hstencil
    obtain ⟨hthin, hshares, h₁, h₂, h₃⟩ := weightsOn?_eq_some_iff.mp hweights
    exact ⟨t, hmem, hthin, w₁, w₂, w₃, hshares.symm, h₁, h₂, h₃, he.symm⟩
  next => cases h

/-- The slack in the field's operations. -/
theorem slack_eq : (slack : K) = 1 / 10 ^ 10 := by
  unfold slack
  rw [Exact.literal_scientific, Exact.decimal_eq, Nat.cast_one]

/-- The stencil of a target that is located has the target as the mean of its points. -/
theorem weighs_of_locate {x y : K} {e : Stencil K}
    (h : (interpolantOf points).locate x y = some e) : Weighs points e x y := by
  obtain ⟨t, ht, hthin, w₁, w₂, w₃, hshares, h₁, h₂, h₃, rfl⟩ := exists_of_locate h
  have hne := orientation_ne_of_not_thin hthin
  obtain ⟨hta, htb, htc⟩ := (Delaunay.turned_self t).mem_corners
  have ha := (Delaunay.mem_triangulate ht).2 t.a hta
  have hb := (Delaunay.mem_triangulate ht).2 t.b htb
  have hc := (Delaunay.mem_triangulate ht).2 t.c htc
  have hsum := shares_sum hne ⟨x, y⟩
  have hx := shares_x hne ⟨x, y⟩
  have hy := shares_y hne ⟨x, y⟩
  rw [hshares] at hsum hx hy
  rw [slack_eq] at h₁ h₂ h₃
  have hab : inputOf points t.a ≠ inputOf points t.b := by
    intro hsame
    refine hne ?_
    rw [inputOf_injective ha hb hsame, Delaunay.orientation_eq]
    ring
  have hbc : inputOf points t.b ≠ inputOf points t.c := by
    intro hsame
    refine hne ?_
    rw [inputOf_injective hb hc hsame, Delaunay.orientation_right]
  have hac : inputOf points t.a ≠ inputOf points t.c := by
    intro hsame
    refine hne ?_
    rw [inputOf_injective ha hc hsame, Delaunay.orientation_left]
  exact {
    lt_size := by
      simp only [List.forall_mem_cons, List.not_mem_nil, false_imp_iff, implies_true, and_true]
      exact ⟨(pointAt_inputOf ha).1, (pointAt_inputOf hb).1, (pointAt_inputOf hc).1⟩
    different := by simp [hab, hbc, hac]
    first := by
      simp only [List.forall_mem_cons, List.not_mem_nil, false_imp_iff, implies_true, and_true]
      exact ⟨not_merged_inputOf ha, not_merged_inputOf hb, not_merged_inputOf hc⟩
    sum := hsum
    slack_le := by
      simp only [List.forall_mem_cons, List.not_mem_nil, false_imp_iff, implies_true, and_true]
      exact ⟨h₁, h₂, h₃⟩
    mean_x := by
      rw [(pointAt_inputOf ha).2, (pointAt_inputOf hb).2, (pointAt_inputOf hc).2]
      exact hx.symm
    mean_y := by
      rw [(pointAt_inputOf ha).2, (pointAt_inputOf hb).2, (pointAt_inputOf hc).2]
      exact hy.symm }

/-! ## Interpolation -/

omit [IsStrictOrderedRing K] in
/-- Samples of a function at the input points. -/
theorem nth_map (f : Point K → K) {i : ℕ} (hi : i < points.size) :
    nth (points.map f) i = f (pointAt points i) := by
  simp [Exact.nth_eq_getD, pointAt, Array.getD_eq_getD_getElem?, hi]

/-- The mean of an affine function's samples is its value at the target. -/
theorem Weighs.combine_affine {e : Stencil K} {x y : K} (h : Weighs points e x y) (a b c : K) :
    e.combine (points.map (affine a b c)) = affine a b c ⟨x, y⟩ := by
  obtain ⟨hlt, -, -, hsum, -, hx, hy⟩ := h
  simp only [List.forall_mem_cons, List.not_mem_nil, false_imp_iff, implies_true, and_true] at hlt
  obtain ⟨hi, hj, hk⟩ := hlt
  unfold Stencil.combine
  rw [nth_map _ hi, nth_map _ hj, nth_map _ hk]
  unfold affine
  linear_combination a * hx + b * hy + c * hsum

omit [IsStrictOrderedRing K] in
/-- What a stencil makes of samples is the same if these agree at the points that are not merged. -/
theorem Weighs.combine_congr {e : Stencil K} {x y : K} (h : Weighs points e x y)
    {values values' : Array K}
    (hagree : ∀ i < points.size, ¬ Merged points i → nth values i = nth values' i) :
    e.combine values = e.combine values' := by
  have hnth : ∀ i ∈ [e.i, e.j, e.k], nth values i = nth values' i := fun i hi ↦
    hagree i (h.lt_size i hi) (h.first i hi)
  simp only [List.forall_mem_cons, List.not_mem_nil, false_imp_iff, implies_true, and_true] at hnth
  obtain ⟨hi, hj, hk⟩ := hnth
  unfold Stencil.combine
  rw [hi, hj, hk]

/-- A stencil leaves samples as they are that are all the same. -/
theorem Weighs.combine_constant {e : Stencil K} {x y : K} (h : Weighs points e x y)
    {values : Array K} {v : K} (hvalues : ∀ i < points.size, nth values i = v) :
    e.combine values = v := by
  have hsum := h.sum
  unfold Stencil.combine
  rw [hvalues _ (h.lt_size e.i (by simp)), hvalues _ (h.lt_size e.j (by simp)),
    hvalues _ (h.lt_size e.k (by simp))]
  linear_combination v * hsum

/-- What a stencil makes of samples exceeds their range by no more than the slack allows. -/
theorem Weighs.combine_mem {e : Stencil K} {x y : K} (h : Weighs points e x y) {values : Array K}
    {lower upper : K}
    (hvalues : ∀ i < points.size, lower ≤ nth values i ∧ nth values i ≤ upper) :
    lower - 3 / 10 ^ 10 * (upper - lower) ≤ e.combine values ∧
      e.combine values ≤ upper + 3 / 10 ^ 10 * (upper - lower) := by
  -- a weight that is below zero by the slack moves the sum by at most the slack times the range
  have hterm : ∀ w, -(1 / 10 ^ 10) ≤ w → ∀ v, 0 ≤ v → v ≤ upper - lower →
      -(1 / 10 ^ 10) * (upper - lower) ≤ w * v := by
    intro w hw v hv hle
    calc -(1 / 10 ^ 10) * (upper - lower) ≤ -(1 / 10 ^ 10) * v :=
          mul_le_mul_of_nonpos_left hle (by norm_num)
      _ ≤ w * v := mul_le_mul_of_nonneg_right hw hv
  have hi := hvalues e.i (h.lt_size _ (by simp))
  have hj := hvalues e.j (h.lt_size _ (by simp))
  have hk := hvalues e.k (h.lt_size _ (by simp))
  have hwi := hterm e.wi (h.slack_le _ (by simp))
  have hwj := hterm e.wj (h.slack_le _ (by simp))
  have hwk := hterm e.wk (h.slack_le _ (by simp))
  have hsum := h.sum
  unfold Stencil.combine
  constructor
  · have hil := hwi _ (sub_nonneg.mpr hi.1) (sub_le_sub_right hi.2 _)
    have hjl := hwj _ (sub_nonneg.mpr hj.1) (sub_le_sub_right hj.2 _)
    have hkl := hwk _ (sub_nonneg.mpr hk.1) (sub_le_sub_right hk.2 _)
    linear_combination hil + hjl + hkl - lower * hsum
  · have hiu := hwi _ (sub_nonneg.mpr hi.2) (sub_le_sub_left hi.1 _)
    have hju := hwj _ (sub_nonneg.mpr hj.2) (sub_le_sub_left hj.1 _)
    have hku := hwk _ (sub_nonneg.mpr hk.2) (sub_le_sub_left hk.1 _)
    linear_combination hiu + hju + hku + upper * hsum

/-- An interpolant gives back affine functions where targets are located and the fill value
elsewhere, with stencils that have their target as the mean of different input points; and samples
at points that are merged into earlier ones have no influence. -/
structure Reproduces (points : Array (Point K)) (s : Scattered K) : Prop where
  inputs : s.inputs = points.size
  affine_values : ∀ a b c targets fill,
    s.interpolate (points.map (affine a b c)) targets fill =
      .ok (targets.map fun q ↦ if (s.locate q.x q.y).isSome then affine a b c q else fill)
  weighs : ∀ x y e, s.locate x y = some e → Weighs points e x y
  merged : ∀ values values' : Array K, values.size = points.size → values'.size = points.size →
    (∀ i < points.size, ¬ Merged points i → nth values i = nth values' i) →
    ∀ targets fill, s.interpolate values targets fill = s.interpolate values' targets fill

/-- Every interpolant that is constructed gives back affine functions. -/
theorem ofPoints_reproduces {points : Array (Point K)} {s : Scattered K}
    (h : ofPoints points = .ok s) : Reproduces points s := by
  obtain ⟨-, -, -, rfl⟩ := ofPoints_eq_ok_iff.mp h
  refine ⟨rfl, fun a b c targets fill ↦ ?_, fun x y e ↦ weighs_of_locate,
    fun values values' hsize hsize' hagree targets fill ↦ ?_⟩
  · rw [interpolate_eq_ok Array.size_map]
    refine congrArg _ (List.map_congr_left fun q _ ↦ ?_)
    cases hlocate : (interpolantOf points).locate q.x q.y with
    | none => rfl
    | some e => exact (weighs_of_locate hlocate).combine_affine a b c
  · rw [interpolate_eq_ok hsize, interpolate_eq_ok hsize']
    refine congrArg _ (List.map_congr_left fun q _ ↦ ?_)
    cases hlocate : (interpolantOf points).locate q.x q.y with
    | none => rfl
    | some e => exact (weighs_of_locate hlocate).combine_congr hagree

/-- Five points, of which the last one is merged into the second. -/
theorem ofPoints_five_reproduces :
    ∃ s, ofPoints #[(⟨0, 0⟩ : Point ℚ), ⟨4, 0⟩, ⟨1, 3⟩, ⟨2, 1⟩, ⟨4, 0⟩] = .ok s ∧
      Reproduces #[⟨0, 0⟩, ⟨4, 0⟩, ⟨1, 3⟩, ⟨2, 1⟩, ⟨4, 0⟩] s := by
  have hok : ofPoints #[(⟨0, 0⟩ : Point ℚ), ⟨4, 0⟩, ⟨1, 3⟩, ⟨2, 1⟩, ⟨4, 0⟩] =
      .ok (interpolantOf #[⟨0, 0⟩, ⟨4, 0⟩, ⟨1, 3⟩, ⟨2, 1⟩, ⟨4, 0⟩]) :=
    ofPoints_of_isOk (by decide +kernel)
  exact ⟨_, hok, ofPoints_reproduces hok⟩

end PlasmaField.Scattered
