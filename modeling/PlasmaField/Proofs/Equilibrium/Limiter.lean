import Mathlib
import PlasmaField.Field
import PlasmaField.Proofs.Boundary.Winding
import PlasmaField.Proofs.Equilibrium.Flux

/-!
# The limiter of an axisymmetric equilibrium

An equilibrium is only built from data whose array lengths are consistent, over any scalars, and its
boundary is the polygon of all vertices of the limiter, `consistent_of_ofInput`. The one exception
is a limiter that is given by heights with an empty array of radii: it passes for a limiter without
vertices, and the domain is unbounded, `unbounded_of_heightsOnly`.
-/

namespace PlasmaField

open Outcome (bind_eq_ok_iff guard_eq_ok_iff map_eq_ok_iff)

variable {α : Type} [Scalar α]

/-- What the two arrays of a limiter ask for: no boundary if both are absent or both are empty, and
otherwise the polygon of three or more vertices, with as many radii as heights. -/
inductive LimitedBy : Option (Array α) → Option (Array α) → Boundary α → Prop
  | absent : LimitedBy none none .unbounded
  | empty : LimitedBy (some #[]) (some #[]) .unbounded
  | polygon {r z : Array α} : r.size = z.size → 3 ≤ r.size →
      LimitedBy (some r) (some z) (.within ⟨Polygon.close (Polygon.vertices r z)⟩)

namespace FluxInput

/-- The limiter has heights, but its array of radii is empty. -/
def HeightsOnly (input : FluxInput α) : Prop :=
  input.limiterR = some #[] ∧ ∃ z, input.limiterZ = some z ∧ z ≠ #[]

/-- The array lengths of the data are consistent, and the boundary is what the limiter asks for,
unless it has heights without radii: then the domain is unbounded. -/
structure Consistent (input : FluxInput α) (boundary : Boundary α) : Prop where
  fpol : input.fpol.size = input.psi.cols
  pressure : input.pressure.size = input.psi.cols
  core : input.coreR.size = input.coreZ.size
  three_le_core : 3 ≤ input.coreR.size
  limited : ¬ input.HeightsOnly → LimitedBy input.limiterR input.limiterZ boundary
  unlimited : input.HeightsOnly → boundary = .unbounded

end FluxInput

namespace FluxEquilibrium

/-- A domain is what the limiter asks for, unless this has heights without radii. -/
theorem limitedBy_of_limiterDomain {r z : Option (Array α)} {boundary : Boundary α}
    (h : limiterDomain r z = .ok boundary) : LimitedBy r z boundary ∨
      boundary = .unbounded ∧ r = some #[] ∧ ∃ heights, z = some heights ∧ heights ≠ #[] := by
  cases r with
  | none =>
      cases z with
      | none =>
          cases h
          exact .inl .absent
      | some z => cases h
  | some r =>
      cases z with
      | none => cases h
      | some z =>
          unfold limiterDomain at h
          dsimp only at h
          split at h
          next hempty =>
            obtain rfl := Array.isEmpty_iff.mp hempty
            cases h
            by_cases hz : z = #[]
            · rw [hz]
              exact .inl .empty
            · exact .inr ⟨rfl, rfl, z, rfl, hz⟩
          next =>
            obtain ⟨polygon, hpolygon, rfl⟩ := map_eq_ok_iff.mp h
            obtain ⟨hsize, hthree, -, -, rfl⟩ := Polygon.ofVertices_eq_ok_iff.mp hpolygon
            exact .inl (.polygon hsize hthree)

/-- The checks that an equilibrium has passed, and where its domain comes from. -/
theorem checks_of_ofInput {input : FluxInput α} {e : FluxEquilibrium α}
    (h : ofInput input = .ok e) : input.fpol.size = input.psi.cols ∧
      input.pressure.size = input.psi.cols ∧
      (∃ core, Polygon.ofVertices input.coreR input.coreZ = .ok core) ∧
      limiterDomain input.limiterR input.limiterZ = .ok e.domain := by
  unfold ofInput at h
  obtain ⟨_, -, h⟩ := bind_eq_ok_iff.mp h
  obtain ⟨-, h⟩ := guard_eq_ok_iff.mp h
  obtain ⟨_, hfpol, h⟩ := bind_eq_ok_iff.mp h
  obtain ⟨_, hpressure, h⟩ := bind_eq_ok_iff.mp h
  obtain ⟨_, -, h⟩ := bind_eq_ok_iff.mp h
  obtain ⟨core, hcore, h⟩ := bind_eq_ok_iff.mp h
  obtain ⟨_, -, h⟩ := bind_eq_ok_iff.mp h
  obtain ⟨_, -, h⟩ := bind_eq_ok_iff.mp h
  obtain ⟨_, -, h⟩ := bind_eq_ok_iff.mp h
  obtain ⟨domain, hdomain, h⟩ := bind_eq_ok_iff.mp h
  cases h
  exact ⟨checkProfile_eq_ok_iff.mp hfpol, checkProfile_eq_ok_iff.mp hpressure, ⟨core, hcore⟩,
    hdomain⟩

/-- An equilibrium is only built from consistent data, and its boundary is what the limiter asks
for. -/
theorem consistent_of_ofInput {input : FluxInput α} {e : FluxEquilibrium α}
    (h : ofInput input = .ok e) : input.Consistent (MagneticField.flux e).boundary := by
  obtain ⟨hfpol, hpressure, ⟨core, hcore⟩, hdomain⟩ := checks_of_ofInput h
  obtain ⟨hcoreSize, hthree, -⟩ := Polygon.ofVertices_eq_ok_iff.mp hcore
  exact {
    fpol := hfpol
    pressure := hpressure
    core := hcoreSize
    three_le_core := hthree
    limited := fun hboth ↦ (limitedBy_of_limiterDomain hdomain).resolve_right fun h ↦ hboth h.2
    unlimited := by
      rintro ⟨hr, z, hz, -⟩
      rw [hr, hz] at hdomain
      exact (Except.ok.inj hdomain).symm }

/-- The flux of one cell with a limiter. -/
def limited (r z : Array Float) : FluxInput Float where
  rLeft := 1
  rDim := 1
  zMid := 0
  zDim := 2
  psi := ⟨2, 2, #[0, 1, 0, 1], rfl⟩
  axisFlux := 0
  edgeFlux := 1
  fpol := #[1, 1]
  pressure := #[0, 0]
  coreR := #[1, 2, 1]
  coreZ := #[-1, 0, 1]
  limiterR := some r
  limiterZ := some z

/-- With a complete limiter the boundary is its polygon. -/
theorem consistent_limited : ∃ e, ofInput (limited #[0, 3, 0] #[-2, 0, 2]) = .ok e ∧
    (limited #[0, 3, 0] #[-2, 0, 2]).Consistent (MagneticField.flux e).boundary ∧
    (MagneticField.flux e).boundary = .within ⟨[⟨0, -2⟩, ⟨3, 0⟩, ⟨0, 2⟩, ⟨0, -2⟩]⟩ := by
  obtain ⟨e, he⟩ := Outcome.exists_of_isOk
    (show (ofInput (limited #[0, 3, 0] #[-2, 0, 2])).isOk = true by decide +kernel)
  have hopen : ¬ (⟨0, -2⟩ : Point Float).samePlace ⟨0, 2⟩ = true := by decide +kernel
  have hvertices : Polygon.vertices (#[0, 3, 0] : Array Float) #[-2, 0, 2] =
      ⟨0, -2⟩ :: [⟨3, 0⟩] ++ [⟨0, 2⟩] := rfl
  have hclosed : Polygon.close (Polygon.vertices (#[0, 3, 0] : Array Float) #[-2, 0, 2]) =
      [⟨0, -2⟩, ⟨3, 0⟩, ⟨0, 2⟩, ⟨0, -2⟩] := by
    rw [hvertices, Polygon.close_of_not_samePlace hopen]
    rfl
  have hconsistent := consistent_of_ofInput he
  refine ⟨e, he, hconsistent, ?_⟩
  have hlimited := hconsistent.limited fun hheights ↦ nomatch Option.some.inj hheights.1
  generalize (MagneticField.flux e).boundary = boundary at hlimited ⊢
  cases hlimited with
  | polygon => rw [hclosed]

/-- With heights only it is accepted as well. The domain is unbounded, which is not what the limiter
asks for. -/
theorem unbounded_of_heightsOnly : ∃ e, ofInput (limited #[] #[0, 1, 2]) = .ok e ∧
    (limited #[] #[0, 1, 2]).HeightsOnly ∧ (MagneticField.flux e).boundary = .unbounded ∧
    ¬ LimitedBy (limited #[] #[0, 1, 2]).limiterR (limited #[] #[0, 1, 2]).limiterZ
      (MagneticField.flux e).boundary := by
  obtain ⟨e, he⟩ := Outcome.exists_of_isOk
    (show (ofInput (limited #[] #[0, 1, 2])).isOk = true by decide +kernel)
  obtain ⟨-, -, -, hdomain⟩ := checks_of_ofInput he
  refine ⟨e, he, ⟨rfl, #[0, 1, 2], rfl, by simp⟩, (Except.ok.inj hdomain).symm, ?_⟩
  generalize (MagneticField.flux e).boundary = boundary
  intro hlimited
  cases hlimited with
  | polygon hsize => exact absurd hsize (by decide)

end FluxEquilibrium

end PlasmaField
