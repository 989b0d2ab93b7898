import Mathlib
import PlasmaField.Proofs.Field.Rates
import PlasmaField.Proofs.Outcome

/-!
# Two layouts of positions

Points of the poloidal plane are given as interleaved pairs or as two blocks of coordinates with any
shape, and their tangents are returned in the same layout. The outcome does not depend on the
layout: `layouts_agree`. Positions that have neither layout are rejected for their shape.
-/

namespace PlasmaField

open MagneticField (interleave)

/-- How `n` pairs are laid out: one after the other, or in a block for each of their two members. -/
inductive Layout (n : ℕ) where
  | interleaved
  | blocks (shape : List ℕ) (volume_eq : ShapedArray.volume shape = n)

namespace Layout

variable {α : Type} {n : ℕ}

/-- The shape of the tangents in either coordinate. -/
def shape : Layout n → List ℕ
  | .interleaved => [n]
  | .blocks shape _ => shape

/-- The shape has the number of pairs as its volume. -/
theorem volume_shape (layout : Layout n) : ShapedArray.volume layout.shape = n := by
  cases layout with
  | interleaved => simp [shape, ShapedArray.volume]
  | blocks shape h => exact h

/-- The points in a layout. -/
def positions : Layout n → Vector (α × α) n → Positions α
  | .interleaved, points => .flat (interleave points.toArray)
  | .blocks shape h, points =>
    .stacked ⟨2 :: shape, points.toArray.map (·.1) ++ points.toArray.map (·.2), by
      rw [Array.size_append, Array.size_map, Array.size_map, Vector.size_toArray,
        ShapedArray.volume, List.foldr_cons, ← ShapedArray.volume, h, two_mul]⟩

/-- The points as one array. -/
def places (layout : Layout n) (points : Vector (α × α) n) : ShapedArray (α × α) :=
  ⟨layout.shape, points.toArray, by rw [Vector.size_toArray, layout.volume_shape]⟩

/-- The rates in a layout. -/
def tangents : Layout n → Vector (α × α) n → Tangents α
  | .interleaved, rates => .flat (interleave rates.toArray)
  | .blocks shape h, rates =>
    .split ⟨shape, rates.toArray.map (·.1), by rw [Array.size_map, Vector.size_toArray, h]⟩
      ⟨shape, rates.toArray.map (·.2), by rw [Array.size_map, Vector.size_toArray, h]⟩

/-! ## Interleaved pairs -/

/-- Two members for each pair. -/
@[simp]
theorem size_interleave (pairs : Array (α × α)) : (interleave pairs).size = 2 * pairs.size := by
  simp [interleave, Array.size_flatMap, Array.map_const', Nat.mul_comm]

/-- The members of a list of pairs, one pair after the other, at the places of a pair. -/
theorem getElem?_flatMap_pair (pairs : List (α × α)) (k : ℕ) :
    (pairs.flatMap fun t ↦ [t.1, t.2])[2 * k]? = pairs[k]?.map (·.1) ∧
      (pairs.flatMap fun t ↦ [t.1, t.2])[2 * k + 1]? = pairs[k]?.map (·.2) := by
  induction pairs generalizing k with
  | nil => exact ⟨rfl, rfl⟩
  | cons t pairs ih =>
      cases k with
      | zero => exact ⟨rfl, rfl⟩
      | succ k => exact ih k

/-- The first member of a pair. -/
theorem getElem?_interleave_left (pairs : Array (α × α)) (k : ℕ) :
    (interleave pairs)[2 * k]? = pairs[k]?.map (·.1) := by
  rw [← Array.getElem?_toList, ← Array.getElem?_toList]
  simpa [interleave, Array.toList_flatMap] using (getElem?_flatMap_pair pairs.toList k).1

/-- The second member of a pair. -/
theorem getElem?_interleave_right (pairs : Array (α × α)) (k : ℕ) :
    (interleave pairs)[2 * k + 1]? = pairs[k]?.map (·.2) := by
  rw [← Array.getElem?_toList, ← Array.getElem?_toList]
  simpa [interleave, Array.toList_flatMap] using (getElem?_flatMap_pair pairs.toList k).2

/-- An array of even size is interleaved from its pairs. -/
theorem interleave_pairs [Scalar α] {xs : Array α} (h : xs.size % 2 = 0) :
    interleave (Positions.pairs xs).data = xs := by
  have hsize : (Positions.pairs xs).data.size = xs.size / 2 := Array.size_ofFn
  have hpair {k : ℕ} (hk : k < xs.size / 2) :
      (Positions.pairs xs).data[k]? = some (Scalar.nth xs (2 * k), Scalar.nth xs (2 * k + 1)) := by
    rw [Array.getElem?_eq_getElem (hsize ▸ hk)]
    simp [Positions.pairs, ShapedArray.vector]
  refine Array.ext (by rw [size_interleave, hsize]; omega) fun j hj hj' ↦ ?_
  refine Option.some.inj ?_
  rw [← Array.getElem?_eq_getElem hj]
  obtain ⟨k, rfl | rfl⟩ := Nat.even_or_odd' j
  · rw [getElem?_interleave_left, hpair (by omega)]
    simp [Scalar.nth, hj']
  · rw [getElem?_interleave_right, hpair (by omega)]
    simp [Scalar.nth, hj']

/-- The pairs of interleaved pairs. -/
theorem pairs_interleave [Scalar α] (pairs : Array (α × α)) :
    (Positions.pairs (interleave pairs)).data = pairs := by
  have hsize : (Positions.pairs (interleave pairs)).data.size = pairs.size := by
    rw [Positions.pairs, ShapedArray.vector, Array.size_ofFn, size_interleave]
    omega
  refine Array.ext hsize fun k hk hk' ↦ ?_
  have hleft := getElem?_interleave_left pairs k
  have hright := getElem?_interleave_right pairs k
  rw [Array.getElem?_eq_getElem hk'] at hleft hright
  simp [Positions.pairs, ShapedArray.vector, Scalar.nth, Array.getD_eq_getD_getElem?, hleft, hright]

/-- The pairs of two blocks that hold their members. -/
theorem blocks_append [Scalar α] (shape : List ℕ) {pairs : Array (α × α)}
    (h : pairs.size = ShapedArray.volume shape) :
    (Positions.blocks shape (pairs.map (·.1) ++ pairs.map (·.2))).data = pairs := by
  refine Array.ext (by rw [Positions.blocks, Array.size_ofFn, h]) fun k hk hk' ↦ ?_
  have hleft : (pairs.map (·.1) ++ pairs.map (·.2))[k]? = some pairs[k].1 := by
    rw [Array.getElem?_append_left (by simpa using hk')]
    simp [hk']
  have hright : (pairs.map (·.1) ++ pairs.map (·.2))[ShapedArray.volume shape + k]? =
      some pairs[k].2 := by
    rw [Array.getElem?_append_right (by simp [h]), Array.size_map, h, Nat.add_sub_cancel_left,
      Array.getElem?_map, Array.getElem?_eq_getElem hk']
    rfl
  simp [Positions.blocks, Scalar.nth, Array.getD_eq_getD_getElem?, hleft, hright]

/-- An array of two blocks holds the members of their pairs. -/
theorem append_blocks [Scalar α] (shape : List ℕ) {xs : Array α}
    (h : xs.size = 2 * ShapedArray.volume shape) :
    (Positions.blocks shape xs).data.map (·.1) ++ (Positions.blocks shape xs).data.map (·.2) =
      xs := by
  have hsize : (Positions.blocks shape xs).data.size = ShapedArray.volume shape := Array.size_ofFn
  refine Array.ext (by simp [hsize]; omega) fun k hk hk' ↦ ?_
  rw [Array.getElem_append]
  split
  · simp [Positions.blocks, Scalar.nth, hk']
  · next hback =>
      simp only [Array.size_map, hsize, not_lt] at hback
      have hk'' : ShapedArray.volume shape + (k - ShapedArray.volume shape) = k := by omega
      simp [Positions.blocks, Scalar.nth, hk', hk'']

variable [ElementaryScalar α]

/-- The places of laid out positions are the points. -/
theorem places_positions (layout : Layout n) (points : Vector (α × α) n) :
    (layout.positions points).places = .ok (layout.places points) := by
  cases layout with
  | interleaved =>
      have heven : (interleave points.toArray).size % 2 = 0 := by
        rw [size_interleave, Nat.mul_mod_right]
      rw [positions, Positions.places, if_pos heven]
      refine congrArg Except.ok (ShapedArray.eq_of_data ?_ (pairs_interleave _))
      simp [Positions.pairs, ShapedArray.vector, places, shape]
  | blocks shape h =>
      rw [positions, Positions.places]
      refine congrArg Except.ok (ShapedArray.eq_of_data rfl ?_)
      exact blocks_append shape (points.size_toArray.trans h.symm)

/-- The check of the toroidal components decides whether points have tangents, which are in their
layout then. -/
theorem tangents_positions (field : MagneticField α) (layout : Layout n)
    (points : Vector (α × α) n) (y : α) (policy : DegeneracyPolicy) :
    field.tangents (layout.positions points) y policy =
      (MagneticField.checkDegeneracy (field.componentsAt y points.toArray) policy).map fun count ↦
        (layout.tangents (points.map fun p ↦ field.tangent ⟨p.1, p.2, y⟩),
          if count = 0 then 0 else 1) := by
  have hrates := field.rates_eq_map (layout.places_positions points) y policy
  unfold MagneticField.tangents
  simp only [hrates]
  show (Except.map _
    (MagneticField.checkDegeneracy (field.componentsAt y points.toArray) policy) >>= _) = _
  cases MagneticField.checkDegeneracy (field.componentsAt y points.toArray) policy with
  | error fault => rfl
  | ok count =>
      cases layout with
      | interleaved =>
          refine congrArg (fun rates ↦
            Except.ok (Tangents.flat (interleave rates), if count = 0 then 0 else 1)) ?_
          show (points.toArray.map fun p ↦ (field.tangent ⟨p.1, p.2, y⟩).1).zip
            (points.toArray.map fun p ↦ (field.tangent ⟨p.1, p.2, y⟩).2) = _
          rw [Vector.toArray_map, Array.zip, Array.zipWith_map, Array.zipWith_self]
      | blocks shape h =>
          refine congrArg (fun t ↦ Except.ok (t, if count = 0 then 0 else 1)) ?_
          refine congrArg₂ Tangents.split ?_ ?_
          · exact ShapedArray.eq_of_data rfl Array.map_map.symm
          · exact ShapedArray.eq_of_data rfl Array.map_map.symm

end Layout

/-! ## Positions without a layout -/

section Malformed

variable {α : Type} [ElementaryScalar α]

/-- Positions that hold no pairs, with what is wrong with their shape. -/
inductive Positions.IsMalformed : Positions α → ShapeFault → Prop where
  | odd (xs : Array α) (h : xs.size % 2 = 1) : IsMalformed (.flat xs) (.oddFlatLength xs.size)
  | notStacked (a : ShapedArray α) (h : a.shape.head? ≠ some 2) :
    IsMalformed (.stacked a) (.notStacked a.shape)

/-- Positions are points in a layout, or malformed. -/
theorem Positions.exists_layout_or_isMalformed (positions : Positions α) :
    (∃ n, ∃ (layout : Layout n) (points : Vector (α × α) n), positions = layout.positions points) ∨
      ∃ fault, positions.IsMalformed fault := by
  cases positions with
  | flat xs =>
      rcases Nat.mod_two_eq_zero_or_one xs.size with heven | hodd
      · refine .inl ⟨_, .interleaved, (pairs xs).data.toVector, ?_⟩
        exact congrArg Positions.flat (Layout.interleave_pairs heven).symm
      · exact .inr ⟨_, .odd xs hodd⟩
  | stacked a =>
      obtain ⟨shape, data, hsize⟩ := a
      by_cases hhead : shape.head? = some 2
      · obtain ⟨rest, rfl⟩ : ∃ rest, shape = 2 :: rest := by
          cases shape with
          | nil => cases hhead
          | cons m rest => exact ⟨rest, congrArg (· :: rest) (Option.some.inj hhead)⟩
        refine .inl ⟨_, .blocks rest (blocks rest data).size_eq.symm,
          (blocks rest data).data.toVector,
          congrArg Positions.stacked (ShapedArray.eq_of_data rfl ?_)⟩
        exact (Layout.append_blocks rest hsize).symm
      · exact .inr ⟨_, .notStacked _ hhead⟩

/-- Malformed positions are rejected for their shape. -/
theorem MagneticField.tangents_of_isMalformed (field : MagneticField α) {positions : Positions α}
    {fault : ShapeFault} (h : positions.IsMalformed fault) (y : α) (policy : DegeneracyPolicy) :
    field.tangents positions y policy = .error (.shape fault) := by
  have hplaces : positions.places = .error (.shape fault) := by
    cases h with
    | odd xs h => exact if_neg (by omega)
    | notStacked a h =>
        rw [Positions.places]
        split
        · next rest hshape => exact absurd (by rw [hshape]; rfl) h
        · rfl
  unfold MagneticField.tangents MagneticField.rates
  rw [hplaces]
  rfl

end Malformed

namespace MagneticField

variable {α : Type} [ElementaryScalar α]

/-- Interleaved positions have interleaved tangents. -/
theorem exists_flat_of_tangents {field : MagneticField α} {xs : Array α} {y : α}
    {policy : DegeneracyPolicy} {t : Tangents α} {warnings : ℕ}
    (h : field.tangents (.flat xs) y policy = .ok (t, warnings)) : ∃ rates, t = .flat rates := by
  obtain ⟨⟨dx, dz, _⟩, -, h⟩ := Outcome.bind_eq_ok_iff.mp h
  cases h
  exact ⟨_, rfl⟩

/-- The tangents along interleaved positions are those of the positions. -/
theorem tangentsAlong_eq (field : MagneticField α) (xs : Array α) (y : α)
    (policy : DegeneracyPolicy) :
    (∀ rates warnings, field.tangentsAlong xs y policy = .ok (rates, warnings) ↔
      field.tangents (.flat xs) y policy = .ok (.flat rates, warnings)) ∧
    ∀ fault, field.tangentsAlong xs y policy = .error fault ↔
      field.tangents (.flat xs) y policy = .error fault := by
  unfold tangentsAlong
  cases htangents : field.tangents (.flat xs) y policy with
  | error fault => simp [bind, Except.bind]
  | ok result =>
      obtain ⟨t, warnings⟩ := result
      obtain ⟨rates, rfl⟩ := exists_flat_of_tangents htangents
      simp [bind, Except.bind, pure, Except.pure]

/-- The same points have the same tangents in either layout, element by element, or, when a
degenerate point must not pass, fail with the same statistics; and the tangents along interleaved
positions are those of the positions. -/
theorem layouts_agree (field : MagneticField α) (shape : List ℕ)
    (points : Vector (α × α) (ShapedArray.volume shape)) (y : α) (policy : DegeneracyPolicy) :
    ((policy = .fail ∧ (∃ b ∈ field.componentsAt y points.toArray, isDegenerate b = true) ∧
        ∃ count least threshold,
          field.tangents (Layout.interleaved.positions points) y policy =
            .error (.degenerate count least threshold) ∧
          field.tangents ((Layout.blocks shape rfl).positions points) y policy =
            .error (.degenerate count least threshold)) ∨
      (policy = .warn ∨ ∀ b ∈ field.componentsAt y points.toArray, isDegenerate b = false) ∧
        ∃ dx dz rates warnings,
          field.tangents ((Layout.blocks shape rfl).positions points) y policy =
            .ok (.split dx dz, warnings) ∧ dx.shape = shape ∧ dz.shape = shape ∧
          field.tangents (Layout.interleaved.positions points) y policy =
            .ok (.flat rates, warnings) ∧ rates.size = 2 * ShapedArray.volume shape ∧
          ∀ k < ShapedArray.volume shape,
            rates[2 * k]? = dx.data[k]? ∧ rates[2 * k + 1]? = dz.data[k]?) ∧
    ∀ xs : Array α,
      (∀ rates warnings, field.tangentsAlong xs y policy = .ok (rates, warnings) ↔
        field.tangents (.flat xs) y policy = .ok (.flat rates, warnings)) ∧
      ∀ fault, field.tangentsAlong xs y policy = .error fault ↔
        field.tangents (.flat xs) y policy = .error fault := by
  refine ⟨?_, fun xs ↦ tangentsAlong_eq field xs y policy⟩
  rw [Layout.tangents_positions, Layout.tangents_positions]
  rcases fails_or_passes (field.componentsAt y points.toArray) policy with
    ⟨rfl, hdegenerate⟩ | hpass
  · rw [checkDegeneracy_eq_error hdegenerate]
    exact .inl ⟨rfl, hdegenerate, _, _, _, rfl, rfl⟩
  · rw [checkDegeneracy_eq_ok hpass]
    refine .inr ⟨hpass, _, _, _, _, rfl, rfl, rfl, rfl, ?_, fun k hk ↦ ⟨?_, ?_⟩⟩
    · rw [Layout.size_interleave, Vector.size_toArray]
    · rw [Layout.getElem?_interleave_left, Array.getElem?_map]
    · rw [Layout.getElem?_interleave_right, Array.getElem?_map]

end MagneticField

end PlasmaField
