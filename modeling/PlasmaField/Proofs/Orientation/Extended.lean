import Mathlib
import PlasmaField.Proofs.Delaunay.Embedding
import PlasmaField.Proofs.Orientation
import PlasmaField.Proofs.Zero

/-!
# The side of a turn with infinite and undefined coordinates

Between points of numbers a path turns to the same side among the extended scalars,
`turn_map_finite`. To a point whose first coordinate is no number, level with an edge, no side can
be told: the sum that bounds the determinant is undefined, and so are all terms of the expansions
that refine it, so that the path seems not to turn, `turn_of_beyond`.
-/

namespace PlasmaField.Orientation

open Extended (finite beyond)
open scoped Exact

variable {K : Type} [Field K] [LinearOrder K] [FloorRing K]

/-! ## Between points of numbers -/

/-- A sum of numbers has no error. -/
theorem sum_finite (a b : K) : sum (finite a) (finite b) = ⟨finite (a + b), finite 0⟩ := by
  have herror : a + -(a + b + -(a + b + -a)) + (b + -(a + b + -a)) = 0 := by ring
  exact congrArg (fun e ↦ Rounded.mk (finite (a + b)) (finite e)) herror

/-- A difference of numbers has no error. -/
theorem difference_finite (a b : K) :
    difference (finite a) (finite b) = ⟨finite (a - b), finite 0⟩ := by
  have hvalue : a + -b = a - b := (sub_eq_add_neg a b).symm
  have herror : a + -(a + -b + (a + -(a + -b))) + (a + -(a + -b) + -b) = 0 := by ring
  exact congrArg₂ (fun v e ↦ Rounded.mk (finite v) (finite e)) hvalue herror

/-- All digits of a number are in its leading half. -/
theorem halves_finite (a : K) : halves (finite a) = (finite a, finite 0) := by
  have hhigh (c : K) : c + -(c + -a) = a := by ring
  have hlow (c : K) : a + -(c + -(c + -a)) = 0 := by ring
  exact congrArg₂ (fun h l ↦ (finite h, finite l)) (hhigh _) (hlow _)

/-- A product of numbers has no error. -/
theorem product_finite (a b : K) :
    product (finite a) (finite b) = ⟨finite (a * b), finite 0⟩ := by
  have herror : 0 * 0 + -(a * b + -(a * b) + -(0 * b) + -(a * 0)) = (0 : K) := by ring
  unfold product
  simp only [halves_finite]
  exact congrArg (fun e ↦ Rounded.mk (finite (a * b)) (finite e)) herror

/-- The difference of numbers as an expansion. -/
theorem minus_finite (p q : K) : Rounded.minus ⟨finite p, finite 0⟩ ⟨finite q, finite 0⟩ =
    [finite 0, finite 0, finite 0, finite (p - q)] := by
  unfold Rounded.minus
  simp only [difference_finite, sum_finite]
  simp [sub_eq_add_neg]

/-- The determinant of the differences of numbers. -/
theorem determinant_map_finite (a b c : Point K) :
    determinant (a.map finite) (b.map finite) (c.map finite) = finite (determinant a b c) := by
  have hvalue : (a.x + -c.x) * (b.y + -c.y) + -((a.y + -c.y) * (b.x + -c.x)) =
      determinant a b c := by
    rw [determinant_eq]
    ring
  have hrefined (size : Extended K) : refinedDeterminant (a.map finite) (b.map finite)
      (c.map finite) size = finite (determinant a b c) := by
    have hzero : (finite (0 : K) == 0) = true := by
      rw [Extended.literal_zero]
      exact decide_eq_true rfl
    have hsum : [finite 0, finite 0, finite 0, finite (determinant a b c)].foldl (· + ·) 0 =
        finite (determinant a b c) := by
      rw [Extended.literal_zero]
      exact congrArg finite (by ring)
    unfold refinedDeterminant Point.map
    simp only [difference_finite, product_finite, minus_finite, hzero, ← determinant_eq, hsum]
    simp
  unfold determinant
  dsimp only
  split
  · exact congrArg finite hvalue
  · exact hrefined _

/-- Between points of numbers a path turns to the same side. -/
theorem turn_map_finite (a b c : Point K) :
    turn (a.map finite) (b.map finite) (c.map finite) = turn a b c := by
  unfold turn
  rw [determinant_map_finite, Extended.literal_zero, Exact.literal_zero]
  rfl

/-! ## With undefined terms -/

section Undefined

variable {α : Type} [Scalar α] {u : α} (hu : Absorbing u)
include hu

/-- A sum with an undefined term is undefined, and so is its error. -/
theorem sum_undefined (x : α) : sum u x = ⟨u, u⟩ ∧ sum x u = ⟨u, u⟩ := by
  simp [sum, hu.add_left, hu.add_right, hu.sub_left, hu.sub_right]

/-- A difference with an undefined term is undefined, and so is its error. -/
theorem difference_undefined (x : α) : difference u x = ⟨u, u⟩ ∧ difference x u = ⟨u, u⟩ := by
  simp [difference, hu.add_left, hu.sub_left, hu.sub_right]

/-- The error of a product is undefined if the halves of a factor are. -/
theorem product_undefined {x : α} (hx : halves x = (u, u)) (y : α) : (product x y).error = u := by
  simp [product, hx, hu.mul_left, hu.sub_left]

/-- The expansion of a difference has undefined terms if one of the errors is undefined. -/
theorem minus_undefined {a : Rounded α} (ha : a.error = u) (b : Rounded α) :
    a.minus b = List.replicate 4 u := by
  unfold Rounded.minus
  simp only [ha, (difference_undefined hu _).1, (sum_undefined hu _).1, (sum_undefined hu _).2]
  rfl

/-- Adding undefined terms to an undefined sum leaves only undefined ones. -/
theorem addTerms_undefined {alone : Bool} {terms : List α} (hterms : ∀ x ∈ terms, x = u) :
    ∀ x ∈ addTerms alone u terms, x = u := by
  induction terms generalizing alone with
  | nil =>
      unfold addTerms
      split <;> simp
  | cons term terms ih =>
      obtain ⟨-, hterms⟩ := List.forall_mem_cons.mp hterms
      unfold addTerms consNonzero
      simp only [(sum_undefined hu _).1]
      split
      · exact ih hterms
      · exact List.forall_mem_cons.mpr ⟨rfl, ih hterms⟩

/-- Expansions of undefined terms are added to an undefined sum with undefined terms. -/
theorem addTo_undefined {e f : List α} (he : ∀ x ∈ e, x = u) (hf : ∀ x ∈ f, x = u) :
    ∀ x ∈ addTo u e f, x = u := by
  have hmerge : ∀ x ∈ e.merge f noLarger, x = u := fun x hx ↦
    (List.mem_merge.mp hx).elim (he x) (hf x)
  have hordered : ∀ x, sumOrdered x u = ⟨u, u⟩ := by
    intro x
    simp [sumOrdered, hu.add_right, hu.sub_left]
  unfold addTo
  split
  · simp
  next term terms hterms =>
    rw [hterms] at hmerge
    obtain ⟨-, hrest⟩ := List.forall_mem_cons.mp hmerge
    split
    · exact addTerms_undefined hu hmerge
    · unfold consNonzero
      simp only [hordered]
      split
      · exact addTerms_undefined hu hrest
      · exact List.forall_mem_cons.mpr ⟨rfl, addTerms_undefined hu hrest⟩

/-- A sum of expansions of undefined terms has undefined terms. -/
theorem add_undefined {e f : List α} (he : ∀ x ∈ e, x = u) (hf : ∀ x ∈ f, x = u) :
    ∀ x ∈ add e f, x = u := by
  unfold add
  split
  · exact hf
  · exact he
  next a e b f _ =>
    obtain ⟨rfl, he'⟩ := List.forall_mem_cons.mp he
    obtain ⟨rfl, hf'⟩ := List.forall_mem_cons.mp hf
    split
    · exact addTo_undefined hu he' hf
    · exact addTo_undefined hu he hf'

end Undefined

/-! ## Around a point with an infinite or undefined first coordinate -/

/-- An undefined determinant or bound is not reached. -/
theorem reaches_undefined (x : Extended K) :
    reaches (beyond 0) x = false ∧ reaches x (beyond 0) = false := by
  have hleft : ∀ y : Extended K, ¬ beyond 0 ≤ y := fun y h ↦ (Extended.le_iff.mp h).1 rfl
  have hright : ∀ y : Extended K, ¬ y ≤ beyond 0 := fun y h ↦ (Extended.le_iff.mp h).2.1 rfl
  unfold reaches
  constructor
  · rw [decide_eq_false (hleft x), decide_eq_false (hleft (-x))]
    rfl
  · rw [decide_eq_false (hright x)]
    exact decide_eq_false (hright x)

/-- Undefined terms add up to an undefined sum. -/
theorem foldl_undefined : (List.replicate 4 (beyond 0 : Extended K)).foldl (· + ·) 0 = beyond 0 :=
  (Extended.absorbing_undefined (K := K)).add_right _

/-- The last term of an expansion of undefined terms is undefined, or zero if it has none. -/
theorem getLast_undefined {e : List (Extended K)} (he : ∀ x ∈ e, x = beyond 0) :
    e.getLast?.getD 0 ∈ [beyond 0, 0] := by
  rw [List.mem_pair]
  cases hlast : e.getLast? with
  | none => exact .inr rfl
  | some x => exact .inl (he x (List.mem_of_getLast? hlast))

/-- The difference of a number and what is none has an undefined error. -/
theorem difference_beyond (a : K) (t : SignType) :
    difference (finite a) (beyond t) = ⟨beyond (-t), beyond 0⟩ := by
  cases t <;> rfl

variable [IsStrictOrderedRing K]

/-- What is no number has undefined halves. -/
theorem halves_beyond (s : SignType) : halves (beyond s : Extended K) = (beyond 0, beyond 0) := by
  have hscaled : (134217729 : Extended K) * beyond s = beyond s := by
    have hpositive : SignType.sign ((134217729 : ℕ) : K) = 1 :=
      sign_pos (Nat.cast_pos.mpr (by decide))
    show beyond (SignType.sign ((134217729 : ℕ) : K) * s) = _
    rw [hpositive, one_mul]
  unfold halves
  simp only [hscaled]
  cases s <;> rfl

/-- The refined determinant is undefined, or zero, if a point has a first coordinate that is no
number. -/
theorem refinedDeterminant_beyond (a b : Point K) (t : SignType) (y : K) (size : Extended K) :
    refinedDeterminant (a.map finite) (b.map finite) ⟨beyond t, finite y⟩ size ∈
      [beyond 0, 0] := by
  have hu := Extended.absorbing_undefined (K := K)
  have hproduct (s : SignType) (z : Extended K) : (product (beyond s) z).error = beyond 0 :=
    product_undefined hu (halves_beyond s) z
  have hminus (s : SignType) (z : Extended K) (r : Rounded (Extended K)) :
      (product (beyond s) z).minus r = List.replicate 4 (beyond 0) :=
    minus_undefined hu (hproduct s z) r
  have hzero : (beyond 0 == (0 : Extended K)) = false := rfl
  unfold refinedDeterminant Point.map
  simp only [difference_finite, difference_beyond, hminus, foldl_undefined, hu.add_left,
    (reaches_undefined _).2, hzero, Bool.false_and, Bool.false_eq_true, if_false]
  have hterms : ∀ x ∈ List.replicate 4 (beyond 0 : Extended K), x = beyond 0 :=
    fun _ ↦ List.eq_of_mem_replicate
  have hsum := add_undefined hu (add_undefined hu (add_undefined hu hterms hterms) hterms) hterms
  exact getLast_undefined hsum

/-- A path along an edge to a point level with it, whose first coordinate is no number, seems not to
turn. -/
theorem turn_of_beyond {a b : Point K} (t : SignType) {y : K}
    (hlevel : a.y ≤ y ∧ y ≤ b.y ∨ b.y ≤ y ∧ y < a.y) :
    turn (a.map finite) (b.map finite) ⟨beyond t, finite y⟩ = .eq := by
  have hu := Extended.absorbing_undefined (K := K)
  have hsigns : ∀ t v w : SignType, (w ≤ 0 ∧ 0 ≤ v ∨ v ≤ 0 ∧ 0 < w) →
      (beyond (-t * v) + beyond (w * -t) : Extended K) = beyond 0 := by
    intro t v w h
    have hsum : -t * v = w * -t → -t * v = 0 := by
      revert t v w
      decide
    show (if -t * v = w * -t then beyond (-t * v) else beyond 0 : Extended K) = beyond 0
    split
    next heq => rw [hsum heq]
    next => rfl
  have hsize : (finite a.x - beyond t) * (finite b.y - finite y) +
      (finite a.y - finite y) * (finite b.x - beyond t) = beyond 0 := by
    refine hsigns t (SignType.sign (b.y + -y)) (SignType.sign (a.y + -y)) ?_
    simpa [sign_nonneg_iff, sign_nonpos_iff, sign_eq_one_iff, ← sub_eq_add_neg] using hlevel
  have hdeterminant : determinant (a.map finite) (b.map finite) ⟨beyond t, finite y⟩ ∈
      [(beyond 0 : Extended K), 0] := by
    have habs : Scalar.abs (beyond 0 : Extended K) = beyond 0 := rfl
    unfold determinant Point.map
    dsimp only
    rw [hsize, habs, hu.mul_right, (reaches_undefined _).1, if_neg Bool.false_ne_true]
    exact refinedDeterminant_beyond a b t y _
  unfold turn
  rw [List.mem_pair] at hdeterminant
  rcases hdeterminant with h | h
  · rw [h]
    rfl
  · rw [h, Extended.literal_zero]
    have hzero : ¬ (finite 0 : Extended K) < finite 0 := lt_irrefl (0 : K)
    dsimp only
    rw [if_neg hzero, if_neg hzero]

end PlasmaField.Orientation
