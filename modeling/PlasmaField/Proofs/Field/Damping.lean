import Mathlib
import PlasmaField.Proofs.Extended
import PlasmaField.Proofs.Field.Layout

/-!
# Tangents of damped fields

A wrapper damps the poloidal components of the field inside and hands on everything else. The
tangents of the wrapped field are therefore those of the field inside, multiplied at each place by
the damping there, and they fail when those do and in the same way. Wrappers around wrappers
multiply by the product of their factors: `tangents_of_wrappers`. With exact arithmetic the order of
the multiplications does not matter, not even at places where the toroidal component is zero.
-/

namespace PlasmaField

variable {inner outer : MagneticField (Extended ℝ)}

/-- What a wrapper multiplies the poloidal components by. -/
noncomputable def EdgeDamping.weight (d : EdgeDamping (Extended ℝ)) (x z : Extended ℝ) :
    Extended ℝ :=
  match d.mode with
  | .passThrough => 1
  | .damped => d.factor x z

/-- A wrapper multiplies by its weight. -/
theorem EdgeDamping.apply_eq_mul (d : EdgeDamping (Extended ℝ)) (component x z : Extended ℝ) :
    d.apply component x z = component * d.weight x z := by
  unfold apply weight
  cases d.mode with
  | passThrough => exact (mul_one component).symm
  | damped => rfl

/-- The damping on a grid is in force if its parameters say so. -/
theorem EdgeDamping.mode_of_ofParameters {grid : Grid (Extended ℝ)} {p : DampingParameters}
    {d : EdgeDamping (Extended ℝ)} (h : ofParameters grid p = .ok d) : d.mode = p.mode := by
  unfold ofParameters at h
  split at h
  · cases h
  · cases h
    rfl

namespace MagneticField

/-- Damping a field puts it into a wrapper with the damping on the grid. -/
theorem smooth_eq_ok_iff {grid : Grid (Extended ℝ)} {p : DampingParameters} :
    inner.smooth grid p = .ok outer ↔
      ∃ d, EdgeDamping.ofParameters grid p = .ok d ∧ outer = .smoothed inner d := by
  unfold smooth
  cases EdgeDamping.ofParameters grid p <;> simp [Except.map, eq_comm]

/-- A field inside wrappers, the first of them being the innermost. -/
def wrap {α : Type} (inner : MagneticField α) (layers : List (EdgeDamping α)) : MagneticField α :=
  layers.foldl .smoothed inner

/-- Damps a field near the walls of the rectangles of several grids, one after the other. -/
def smoothAll {α : Type} [ElementaryScalar α] (inner : MagneticField α)
    (walls : List (Grid α × DampingParameters)) : Except (FieldError α) (MagneticField α) :=
  walls.foldlM (fun field wall ↦ field.smooth wall.1 wall.2) inner

/-- Damping a field on one grid after the other puts it into one wrapper after the other. -/
theorem exists_layers_of_smoothAll {walls : List (Grid (Extended ℝ) × DampingParameters)}
    (h : inner.smoothAll walls = .ok outer) :
    ∃ layers, walls.mapM (fun wall ↦ EdgeDamping.ofParameters wall.1 wall.2) = .ok layers ∧
      outer = inner.wrap layers := by
  induction walls generalizing inner with
  | nil =>
      cases h
      exact ⟨[], rfl, rfl⟩
  | cons wall walls ih =>
      rw [smoothAll, List.foldlM_cons] at h
      obtain ⟨mid, hmid, hrest⟩ := Outcome.bind_eq_ok_iff.mp h
      obtain ⟨d, hd, rfl⟩ := smooth_eq_ok_iff.mp hmid
      obtain ⟨layers, hlayers, rfl⟩ := ih hrest
      refine ⟨d :: layers, ?_, rfl⟩
      rw [List.mapM_cons, hd, hlayers]
      rfl

/-! ## What wrappers hand on -/

/-- A field has the toroidal component, the pressure, the geometry, the boundary and the attributes
of another one. -/
structure Forwards (inner outer : MagneticField (Extended ℝ)) : Prop where
  toroidal : ∀ batch, Batch.toroidal outer batch = Batch.toroidal inner batch
  pressure : ∀ batch, Batch.pressure outer batch = Batch.pressure inner batch
  majorRadius? : ∀ batch, Batch.majorRadius? outer batch = Batch.majorRadius? inner batch
  attribute? : ∀ name batch, Batch.attribute? outer name batch = Batch.attribute? inner name batch
  attributes : outer.attributes = inner.attributes
  boundary : outer.boundary = inner.boundary

section Wrapped

variable (inner : MagneticField (Extended ℝ)) (layers : List (EdgeDamping (Extended ℝ)))

/-- Wrappers hand on all but the poloidal components. -/
theorem forwards_wrap : Forwards inner (inner.wrap layers) := by
  induction layers generalizing inner with
  | nil => exact ⟨fun _ ↦ rfl, fun _ ↦ rfl, fun _ ↦ rfl, fun _ _ ↦ rfl, rfl, rfl⟩
  | cons d layers ih =>
      have h := ih (.smoothed inner d)
      exact ⟨h.toroidal, h.pressure, h.majorRadius?, h.attribute?, h.attributes, h.boundary⟩

/-- Wrappers hand on the toroidal component at a place. -/
theorem toroidal_wrap (p : Position (Extended ℝ)) :
    (inner.wrap layers).toroidal p = inner.toroidal p := by
  induction layers generalizing inner with
  | nil => rfl
  | cons d layers ih => exact ih (.smoothed inner d)

/-! ## Tangents -/

/-- What wrappers multiply the tangents by at a point: the product of their weights. -/
noncomputable def totalWeight (layers : List (EdgeDamping (Extended ℝ))) (x z : Extended ℝ) :
    Extended ℝ :=
  (layers.map fun d ↦ d.weight x z).prod

/-- One wrapper multiplies the tangent at a place by its weight. -/
theorem tangent_smoothed (d : EdgeDamping (Extended ℝ)) (p : Position (Extended ℝ)) :
    (MagneticField.smoothed inner d).tangent p =
      ((inner.tangent p).1 * d.weight p.x p.z, (inner.tangent p).2 * d.weight p.x p.z) := by
  have hscale : (MagneticField.smoothed inner d).scaleAt p = inner.scaleAt p := rfl
  unfold tangent
  rw [hscale, radial, vertical, d.apply_eq_mul, d.apply_eq_mul]
  exact congrArg₂ Prod.mk (mul_right_comm _ _ _) (mul_right_comm _ _ _)

/-- Wrappers multiply the tangent at a place by the product of their weights. -/
theorem tangent_wrap (p : Position (Extended ℝ)) : (inner.wrap layers).tangent p =
      ((inner.tangent p).1 * totalWeight layers p.x p.z,
        (inner.tangent p).2 * totalWeight layers p.x p.z) := by
  induction layers generalizing inner with
  | nil => exact congrArg₂ Prod.mk (mul_one _).symm (mul_one _).symm
  | cons d layers ih =>
      have hproduct : totalWeight (d :: layers) p.x p.z =
          d.weight p.x p.z * totalWeight layers p.x p.z := List.prod_cons
      refine (ih (.smoothed inner d)).trans ?_
      rw [tangent_smoothed, hproduct, mul_assoc, mul_assoc]

/-- The tangents of a field are those of another one, multiplied at each point by a weight. Where
those fail they fail in the same way. -/
def IsWeighted (weight : Extended ℝ → Extended ℝ → Extended ℝ)
    (inner outer : MagneticField (Extended ℝ)) : Prop :=
  ∀ positions y policy,
    (∃ fault, inner.tangents positions y policy = .error fault ∧
      outer.tangents positions y policy = .error fault) ∨
    ∃ n, ∃ (layout : Layout n) (points rates : Vector (Extended ℝ × Extended ℝ) n) (warnings : ℕ),
      positions = layout.positions points ∧
      inner.tangents positions y policy = .ok (layout.tangents rates, warnings) ∧
      outer.tangents positions y policy = .ok (layout.tangents (points.zipWith
        (fun p t ↦ (t.1 * weight p.1 p.2, t.2 * weight p.1 p.2)) rates), warnings)

/-- Wrappers weight the tangents by the product of their weights. -/
theorem isWeighted_wrap : IsWeighted (totalWeight layers) inner (inner.wrap layers) := by
  intro positions y policy
  rcases positions.exists_layout_or_isMalformed with ⟨n, layout, points, rfl⟩ | ⟨fault, hfault⟩
  · have hcomponents : (inner.wrap layers).componentsAt y points.toArray =
        inner.componentsAt y points.toArray :=
      List.map_congr_left fun p _ ↦ inner.toroidal_wrap layers _
    have hrates : (points.map fun p ↦ (inner.wrap layers).tangent ⟨p.1, p.2, y⟩) =
        points.zipWith (fun p t ↦ (t.1 * totalWeight layers p.1 p.2,
          t.2 * totalWeight layers p.1 p.2)) (points.map fun p ↦ inner.tangent ⟨p.1, p.2, y⟩) := by
      refine Vector.ext fun k hk ↦ ?_
      rw [Vector.getElem_map, Vector.getElem_zipWith, Vector.getElem_map, tangent_wrap]
    rw [Layout.tangents_positions, Layout.tangents_positions, hcomponents, hrates]
    cases checkDegeneracy (inner.componentsAt y points.toArray) policy with
    | error fault => exact .inl ⟨fault, rfl, rfl⟩
    | ok count => exact .inr ⟨n, layout, points, _, _, rfl, rfl, rfl⟩
  · exact .inl ⟨_, inner.tangents_of_isMalformed hfault y policy,
      (inner.wrap layers).tangents_of_isMalformed hfault y policy⟩

end Wrapped

/-- Tangents without weight are the same. -/
theorem IsWeighted.tangents_eq (h : IsWeighted (fun _ _ ↦ 1) inner outer)
    (positions : Positions (Extended ℝ)) (y : Extended ℝ) (policy : DegeneracyPolicy) :
    outer.tangents positions y policy = inner.tangents positions y policy := by
  rcases h positions y policy with ⟨fault, hinner, houter⟩ |
    ⟨n, layout, points, rates, warnings, -, hinner, houter⟩
  · rw [hinner, houter]
  · have hrates : points.zipWith (fun _ t ↦ (t.1 * 1, t.2 * 1)) rates = rates := by
      refine Vector.ext fun k hk ↦ ?_
      rw [Vector.getElem_zipWith, mul_one, mul_one]
    rw [hinner, houter, hrates]

/-- One wrapper weights the tangents by its weight. -/
theorem isWeighted_smoothed (inner : MagneticField (Extended ℝ)) (d : EdgeDamping (Extended ℝ)) :
    IsWeighted d.weight inner (.smoothed inner d) := by
  have hweight : totalWeight [d] = d.weight := funext₂ fun x z ↦ List.prod_singleton
  have h := isWeighted_wrap inner [d]
  rwa [hweight] at h

/-- Strips of one cell leave part of a grid of five rows and columns free. -/
theorem exists_ofParameters_five (mode : DampingMode) : ∃ d, EdgeDamping.ofParameters
    (Grid.uniform 5 5 0 4 0 4 : Grid (Extended ℝ)) ⟨1, 1, mode⟩ = .ok d := by
  have hcolumns : (Grid.uniform 5 5 0 4 0 4 : Grid (Extended ℝ)).nr = 5 := Array.size_ofFn
  have hrows : (Grid.uniform 5 5 0 4 0 4 : Grid (Extended ℝ)).nz = 5 := Array.size_ofFn
  refine ⟨_, if_neg ?_⟩
  rw [hcolumns, hrows]
  cases mode with
  | passThrough => decide
  | damped => decide

end MagneticField

end PlasmaField
