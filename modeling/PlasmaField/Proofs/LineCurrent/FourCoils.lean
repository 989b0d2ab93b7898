import Mathlib
import PlasmaField.Proofs.LineCurrent
import PlasmaField.Proofs.Outcome

/-!
# The symmetries of four coils

Four coils stand a quarter turn apart and carry alternating currents. A quarter of the period turns
every coil to the place of the next one, which carries the opposite current, so that the potential
and the in-plane field change their signs, and repeat after half the period. Point reflection
through the centre exchanges opposite coils, which carry the same current, so that the in-plane
field is odd and vanishes at the centre: `isFourfold_of_validate`.
-/

namespace PlasmaField

open Outcome (bind_eq_ok_iff)
open scoped Exact Elementary

/-- Parameters are accepted when the coils stand away from their centre and have a period. -/
theorem StellaratorParameters.validate_eq_ok_iff (p : StellaratorParameters ℝ) :
    p.validate = .ok () ↔ 0 < p.radius ∧ p.yPeriod ≠ 0 := by
  have hfinite : checkFinite .stellarator
      [p.xCentre, p.zCentre, p.radius, p.yPeriod, p.iCoil, p.bTor] = .ok () := rfl
  unfold validate
  rw [hfinite]
  rcases le_or_gt p.radius 0 with hr | hr
  · simp [hr, hr.not_gt, throw, throwThe, MonadExceptOf.throw, bind, Except.bind]
  · by_cases hy : p.yPeriod = 0
    · simp [hr.not_ge, hy, throw, throwThe, MonadExceptOf.throw, bind, Except.bind]
    · simp [hr, hr.not_ge, hy, bind, Except.bind, pure, Except.pure]

namespace Position

/-- The place at a toroidal angle that is larger by `d`. -/
noncomputable def advance (q : Position ℝ) (d : ℝ) : Position ℝ :=
  { q with phi := q.phi + d }

/-- The place on the other side of a centre at the same toroidal angle. -/
noncomputable def reflect (q : Position ℝ) (xCentre zCentre : ℝ) : Position ℝ :=
  ⟨2 * xCentre - q.x, 2 * zCentre - q.z, q.phi⟩

/-- Advances add up. -/
theorem advance_advance (q : Position ℝ) (d e : ℝ) :
    (q.advance d).advance e = q.advance (d + e) := by
  unfold advance
  rw [add_assoc]

/-- A centre is its own reflection. -/
theorem reflect_self (xCentre zCentre phi : ℝ) :
    (⟨xCentre, zCentre, phi⟩ : Position ℝ).reflect xCentre zCentre = ⟨xCentre, zCentre, phi⟩ := by
  unfold reflect
  rw [two_mul, two_mul, add_sub_cancel_right, add_sub_cancel_right]

end Position

namespace LineCurrent

/-- None of the currents passes through a place. -/
def Clear (coils : List (LineCurrent ℝ)) (q : Position ℝ) : Prop :=
  ∀ c ∈ coils, c.position q.phi ≠ (q.x, q.z)

/-! ## The coils around the circle -/

/-- Coil number `k` around the circle, a quarter turn after the one before and with the opposite
current. -/
noncomputable def coil (p : StellaratorParameters ℝ) (k : ℕ) : LineCurrent ℝ :=
  ⟨p.xCentre, p.zCentre, p.radius, Real.pi / 2 * k, p.iota, (-1) ^ k * p.iCoil⟩

variable (p : StellaratorParameters ℝ)

/-- The four coils are the first ones around the circle. -/
theorem fourCoils_eq : fourCoils p = (List.range 4).map (coil p) := by
  unfold fourCoils
  refine List.map_congr_left fun k _ ↦ ?_
  have hangle : (0.5 : ℝ) * Real.pi * k = Real.pi / 2 * k := by ring
  have hcurrent : (if k % 2 = 0 then p.iCoil else -p.iCoil) = (-1) ^ k * p.iCoil := by
    rcases Nat.even_or_odd k with h | h
    · rw [if_pos (Nat.even_iff.mp h), h.neg_one_pow, one_mul]
    · rw [if_neg (Nat.odd_iff.mp h ▸ one_ne_zero), h.neg_one_pow, neg_one_mul]
  rw [coil, ← hangle, ← hcurrent]
  rfl

/-- The next coil carries the opposite current. -/
theorem current_succ (k : ℕ) : (coil p (k + 1)).current = -(coil p k).current := by
  unfold coil
  ring

/-- The direction of a coil from the centre. -/
noncomputable def bearing (k : ℕ) (phi : ℝ) : ℝ :=
  Real.pi / 2 * k + 2 * Real.pi / p.yPeriod * phi

/-- A coil stands in its direction at its distance from the centre. -/
theorem position_coil (k : ℕ) (phi : ℝ) : (coil p k).position phi =
    (p.xCentre + p.radius * Real.cos (bearing p k phi),
      p.zCentre + p.radius * Real.sin (bearing p k phi)) := by
  have hiota : (coil p k).iota = 2 * Real.pi / p.yPeriod := by
    show @OfNat.ofNat ℝ 2 (Scalar.instOfNat 2) * Real.pi / p.yPeriod = _
    rw [Exact.literal_ofNat]
  unfold position bearing
  rw [hiota]
  rfl

/-- A quarter of the period takes a coil to the place of the next one. -/
theorem position_advance (hy : p.yPeriod ≠ 0) (k : ℕ) (phi : ℝ) :
    (coil p k).position (phi + p.yPeriod / 4) = (coil p (k + 1)).position phi := by
  have hbearing : bearing p k (phi + p.yPeriod / 4) = bearing p (k + 1) phi := by
    unfold bearing
    push_cast
    field_simp
    ring
  rw [position_coil, position_coil, hbearing]

/-- The coil after the next one stands opposite. -/
theorem position_opposite (k : ℕ) (phi : ℝ) : (coil p (k + 2)).position phi =
    (2 * p.xCentre - ((coil p k).position phi).1, 2 * p.zCentre - ((coil p k).position phi).2) := by
  have hbearing : bearing p (k + 2) phi = bearing p k phi + Real.pi := by
    unfold bearing
    push_cast
    ring
  rw [position_coil, position_coil, hbearing, Real.cos_add_pi, Real.sin_add_pi]
  exact Prod.ext (by ring) (by ring)

/-- The fourth coil after a coil stands at its place. -/
theorem position_add_four (k : ℕ) (phi : ℝ) :
    (coil p (k + 4)).position phi = (coil p k).position phi := by
  rw [position_opposite, position_opposite]
  exact Prod.ext (sub_sub_cancel _ _) (sub_sub_cancel _ _)

/-- No coil passes through a place when none of those around the circle does. -/
theorem clear_iff (q : Position ℝ) :
    Clear (fourCoils p) q ↔ ∀ k, (coil p k).position q.phi ≠ (q.x, q.z) := by
  have hmod : ∀ k, (coil p (k % 4)).position q.phi = (coil p k).position q.phi := by
    intro k
    induction k using Nat.strong_induction_on with
    | _ k ih =>
        rcases Nat.lt_or_ge k 4 with h | h
        · rw [Nat.mod_eq_of_lt h]
        · obtain ⟨j, rfl⟩ := Nat.exists_eq_add_of_le' h
          rw [Nat.add_mod_right, ih j (by omega), position_add_four]
  unfold Clear
  rw [fourCoils_eq]
  constructor
  · intro h k
    rw [← hmod]
    exact h _ (List.mem_map_of_mem (List.mem_range.mpr (Nat.mod_lt k (by omega))))
  · intro h c hc
    obtain ⟨k, -, rfl⟩ := List.mem_map.mp hc
    exact h k

/-- Where no coil passes, none passes a quarter of the period later. -/
theorem Clear.advance {q : Position ℝ} (hy : p.yPeriod ≠ 0) (h : Clear (fourCoils p) q) :
    Clear (fourCoils p) (q.advance (p.yPeriod / 4)) := by
  rw [clear_iff] at h ⊢
  intro k
  exact (position_advance p hy k q.phi).trans_ne (h (k + 1))

/-- Where no coil passes, none passes on the other side of the centre. -/
theorem Clear.reflect {q : Position ℝ} (h : Clear (fourCoils p) q) :
    Clear (fourCoils p) (q.reflect p.xCentre p.zCentre) := by
  rw [clear_iff] at h ⊢
  intro k heq
  refine h (k + 2) ?_
  rw [position_opposite, show (coil p k).position q.phi = _ from heq]
  exact Prod.ext (sub_sub_cancel _ _) (sub_sub_cancel _ _)

/-- No coil passes through the centre. -/
theorem clear_centre (hr : 0 < p.radius) (phi : ℝ) :
    Clear (fourCoils p) ⟨p.xCentre, p.zCentre, phi⟩ := by
  rw [clear_iff]
  intro k heq
  rw [position_coil, Prod.mk.injEq, add_eq_left, add_eq_left] at heq
  have hcos := (mul_eq_zero.mp heq.1).resolve_left hr.ne'
  have hsin := (mul_eq_zero.mp heq.2).resolve_left hr.ne'
  have hone := Real.cos_sq_add_sin_sq (bearing p k phi)
  rw [hcos, hsin] at hone
  norm_num at hone

/-! ## Sums over the coils -/

/-- What coil number `k` contributes at a place, for a law `F` of the offsets from the coil. -/
noncomputable def share (F : ℝ → ℝ → ℝ) (q : Position ℝ) (k : ℕ) : ℝ :=
  (coil p k).current * F ((coil p k).offsetX q) ((coil p k).offsetZ q)

/-- A quarter of the period turns a share to minus the share of the next coil. -/
theorem share_advance (hy : p.yPeriod ≠ 0) (F : ℝ → ℝ → ℝ) (q : Position ℝ) (k : ℕ) :
    share p F (q.advance (p.yPeriod / 4)) k = -share p F q (k + 1) := by
  have hposition := position_advance p hy k q.phi
  have hx : (coil p k).offsetX (q.advance (p.yPeriod / 4)) = (coil p (k + 1)).offsetX q :=
    congrArg (fun place ↦ q.x - place.1) hposition
  have hz : (coil p k).offsetZ (q.advance (p.yPeriod / 4)) = (coil p (k + 1)).offsetZ q :=
    congrArg (fun place ↦ q.z - place.2) hposition
  unfold share
  rw [hx, hz, current_succ, neg_mul, neg_neg]

/-- Reflection turns a share to that of the opposite coil, with the offsets reversed. -/
theorem share_reflect (F : ℝ → ℝ → ℝ) (q : Position ℝ) (k : ℕ) :
    share p F (q.reflect p.xCentre p.zCentre) k = share p (fun a b ↦ F (-a) (-b)) q (k + 2) := by
  have hposition := position_opposite p k q.phi
  have hcurrent : (coil p (k + 2)).current = (coil p k).current := by
    rw [current_succ, current_succ, neg_neg]
  have hx : (coil p k).offsetX (q.reflect p.xCentre p.zCentre) = -(coil p (k + 2)).offsetX q := by
    unfold offsetX
    rw [hposition]
    show 2 * p.xCentre - q.x - ((coil p k).position q.phi).1 = _
    ring
  have hz : (coil p k).offsetZ (q.reflect p.xCentre p.zCentre) = -(coil p (k + 2)).offsetZ q := by
    unfold offsetZ
    rw [hposition]
    show 2 * p.zCentre - q.z - ((coil p k).position q.phi).2 = _
    ring
  unfold share
  rw [hx, hz, hcurrent]

/-- The fourth coil after a coil has the same share. -/
theorem share_add_four (F : ℝ → ℝ → ℝ) (q : Position ℝ) (k : ℕ) :
    share p F q (k + 4) = share p F q k := by
  have hposition := position_add_four p k q.phi
  have hcurrent : (coil p (k + 4)).current = (coil p k).current := by
    rw [current_succ, current_succ, current_succ, current_succ, neg_neg, neg_neg]
  unfold share offsetX offsetZ
  rw [hposition, hcurrent]

/-- What the four coils contribute at a place. -/
noncomputable def total (F : ℝ → ℝ → ℝ) (q : Position ℝ) : ℝ :=
  ((fourCoils p).map fun c ↦ c.current * F (c.offsetX q) (c.offsetZ q)).sum

/-- A sum over the four coils is what they contribute, when each term is. -/
theorem sum_eq_total {F : ℝ → ℝ → ℝ} {q : Position ℝ} {term : LineCurrent ℝ → ℝ}
    (h : ∀ c, term c = c.current * F (c.offsetX q) (c.offsetZ q)) :
    ((fourCoils p).map term).sum = total p F q :=
  congrArg List.sum (List.map_congr_left fun c _ ↦ h c)

/-- The contribution of the four coils may be summed from any coil on. -/
theorem total_eq (F : ℝ → ℝ → ℝ) (q : Position ℝ) (n : ℕ) :
    total p F q = ∑ k ∈ Finset.range 4, share p F q (k + n) := by
  induction n with
  | zero =>
      unfold total
      rw [fourCoils_eq, List.map_map]
      rfl
  | succ n ih =>
      have hsum := Finset.sum_range_succ' (fun k ↦ share p F q (k + n)) 4
      rw [Finset.sum_range_succ, add_comm 4 n, share_add_four, zero_add, add_left_inj] at hsum
      rw [ih, hsum]
      exact Finset.sum_congr rfl fun k _ ↦ congrArg _ (by omega)

/-- A quarter of the period reverses the contribution of the four coils. -/
theorem total_advance (hy : p.yPeriod ≠ 0) (F : ℝ → ℝ → ℝ) (q : Position ℝ) :
    total p F (q.advance (p.yPeriod / 4)) = -total p F q := by
  rw [total_eq p F _ 0, total_eq p F q 1, ← Finset.sum_neg_distrib]
  exact Finset.sum_congr rfl fun k _ ↦ share_advance p hy F q k

/-- The law with the opposite sign gives the opposite contribution. -/
theorem total_neg (F : ℝ → ℝ → ℝ) (q : Position ℝ) :
    total p (fun a b ↦ -F a b) q = -total p F q := by
  unfold total
  rw [List.sum_neg, List.map_map]
  exact congrArg List.sum (List.map_congr_left fun c _ ↦ mul_neg _ _)

/-- Reflection reverses the offsets in the contribution of the four coils. -/
theorem total_reflect (F : ℝ → ℝ → ℝ) (q : Position ℝ) :
    total p F (q.reflect p.xCentre p.zCentre) = total p (fun a b ↦ F (-a) (-b)) q := by
  rw [total_eq p F _ 0, total_eq p _ q 2]
  exact Finset.sum_congr rfl fun k _ ↦ share_reflect p F q k

end LineCurrent

namespace MagneticField

open LineCurrent (Clear fourCoils total)

/-- A field with coils has the potential and the in-plane components of their line currents. -/
theorem eq_of_coils {field : MagneticField ℝ} {coils : List (LineCurrent ℝ)}
    (h : field.coils? = some coils) :
    field.attribute? "A" = some (fun q ↦ (LineCurrent.potential coils q.x q.z q.phi).value) ∧
      field.radial = (lineCurrents coils).radial ∧
      field.vertical = (lineCurrents coils).vertical := by
  cases field with
  | lineCurrents coils | straightStellarator coils | rotatingEllipse coils bTor =>
      cases h
      exact ⟨rfl, rfl, rfl⟩
  | uniform | slab | curvedSlab | flux | spectral | smoothed => cases h

/-- The place `q'` is clear of the coils and has the potential and the in-plane field of the place
`q`, up to a sign. -/
structure Repeats (coils : List (LineCurrent ℝ)) (field : MagneticField ℝ)
    (potential : Position ℝ → ℝ) (sign : ℝ) (q q' : Position ℝ) : Prop where
  clear : Clear coils q'
  potential_eq : potential q' = sign * potential q
  radial_eq : field.radial q' = sign * field.radial q
  vertical_eq : field.vertical q' = sign * field.vertical q

/-- The signs of repetitions multiply. -/
theorem Repeats.trans {coils : List (LineCurrent ℝ)} {field : MagneticField ℝ}
    {potential : Position ℝ → ℝ} {s s' : ℝ} {q q' q'' : Position ℝ}
    (h : Repeats coils field potential s q q') (h' : Repeats coils field potential s' q' q'') :
    Repeats coils field potential (s' * s) q q'' where
  clear := h'.clear
  potential_eq := by rw [h'.potential_eq, h.potential_eq, mul_assoc]
  radial_eq := by rw [h'.radial_eq, h.radial_eq, mul_assoc]
  vertical_eq := by rw [h'.vertical_eq, h.vertical_eq, mul_assoc]

/-- The symmetries of the field of four coils and of its potential, away from the coils: they change
their signs with a quarter of the period, repeat with half of it and with the whole, and the
in-plane field is odd about the centre and vanishes there. -/
structure IsFourfold (p : StellaratorParameters ℝ) (field : MagneticField ℝ)
    (potential : Position ℝ → ℝ) : Prop where
  quarter : ∀ q, Clear (fourCoils p) q →
    Repeats (fourCoils p) field potential (-1) q (q.advance (p.yPeriod / 4))
  half : ∀ q, Clear (fourCoils p) q →
    Repeats (fourCoils p) field potential 1 q (q.advance (p.yPeriod / 2))
  full : ∀ q, Clear (fourCoils p) q →
    Repeats (fourCoils p) field potential 1 q (q.advance p.yPeriod)
  odd : ∀ q, Clear (fourCoils p) q → Clear (fourCoils p) (q.reflect p.xCentre p.zCentre) ∧
    field.radial (q.reflect p.xCentre p.zCentre) = -field.radial q ∧
    field.vertical (q.reflect p.xCentre p.zCentre) = -field.vertical q
  centre : ∀ phi, Clear (fourCoils p) ⟨p.xCentre, p.zCentre, phi⟩ ∧
    field.radial ⟨p.xCentre, p.zCentre, phi⟩ = 0 ∧ field.vertical ⟨p.xCentre, p.zCentre, phi⟩ = 0

section FourCoils

variable {p : StellaratorParameters ℝ} {field : MagneticField ℝ}
  (hfield : field.coils? = some (fourCoils p))

include hfield

/-- The potential as a contribution of the four coils. -/
theorem exists_potential : ∃ potential, field.attribute? "A" = some potential ∧
    ∀ q, potential q = total p (fun a b ↦ -(0.1 * Real.log (a ^ 2 + b ^ 2))) q := by
  refine ⟨_, (eq_of_coils hfield).1, fun q ↦ ?_⟩
  rw [LineCurrent.potential_eq, LineCurrent.total_neg]
  refine congrArg Neg.neg (LineCurrent.sum_eq_total p fun c ↦ ?_)
  show 0.1 * c.current * Real.log (c.offsetX q ^ 2 + c.offsetZ q ^ 2) = _
  ring

/-- The radial component as a contribution of the four coils. -/
theorem radial_eq_total (q : Position ℝ) :
    field.radial q = total p (fun a b ↦ 0.2 * b / (a ^ 2 + b ^ 2)) q := by
  rw [(eq_of_coils hfield).2.1, radial_lineCurrents]
  refine LineCurrent.sum_eq_total p fun c ↦ ?_
  show 0.2 * c.current * c.offsetZ q / (c.offsetX q ^ 2 + c.offsetZ q ^ 2) = _
  ring

/-- The vertical component as a contribution of the four coils. -/
theorem vertical_eq_total (q : Position ℝ) :
    field.vertical q = total p (fun a b ↦ -(0.2 * a / (a ^ 2 + b ^ 2))) q := by
  rw [(eq_of_coils hfield).2.2, vertical_lineCurrents, LineCurrent.total_neg]
  refine congrArg Neg.neg (LineCurrent.sum_eq_total p fun c ↦ ?_)
  show 0.2 * c.current * c.offsetX q / (c.offsetX q ^ 2 + c.offsetZ q ^ 2) = _
  ring

/-- The in-plane field of the four coils is odd about their centre. -/
theorem odd_of_coils (q : Position ℝ) :
    field.radial (q.reflect p.xCentre p.zCentre) = -field.radial q ∧
      field.vertical (q.reflect p.xCentre p.zCentre) = -field.vertical q := by
  rw [radial_eq_total hfield, radial_eq_total hfield, vertical_eq_total hfield,
    vertical_eq_total hfield, LineCurrent.total_reflect, LineCurrent.total_reflect,
    ← LineCurrent.total_neg, ← LineCurrent.total_neg]
  constructor
  · refine congrArg (total p · q) (funext₂ fun a b ↦ ?_)
    rw [neg_sq, neg_sq, mul_neg, neg_div]
  · refine congrArg (total p · q) (funext₂ fun a b ↦ ?_)
    rw [neg_sq, neg_sq, mul_neg, neg_div]

variable {potential : Position ℝ → ℝ}
  (hpotential : ∀ q, potential q = total p (fun a b ↦ -(0.1 * Real.log (a ^ 2 + b ^ 2))) q)

include hpotential

/-- A quarter of the period changes the signs of the potential and of the in-plane field. -/
theorem repeats_quarter (hy : p.yPeriod ≠ 0) {q : Position ℝ} (hq : Clear (fourCoils p) q) :
    Repeats (fourCoils p) field potential (-1) q (q.advance (p.yPeriod / 4)) where
  clear := hq.advance p hy
  potential_eq := by
    rw [hpotential, hpotential, LineCurrent.total_advance p hy, neg_one_mul]
  radial_eq := by
    rw [radial_eq_total hfield, radial_eq_total hfield, LineCurrent.total_advance p hy,
      neg_one_mul]
  vertical_eq := by
    rw [vertical_eq_total hfield, vertical_eq_total hfield, LineCurrent.total_advance p hy,
      neg_one_mul]

/-- Half of the period repeats the potential and the in-plane field. -/
theorem repeats_half (hy : p.yPeriod ≠ 0) {q : Position ℝ} (hq : Clear (fourCoils p) q) :
    Repeats (fourCoils p) field potential 1 q (q.advance (p.yPeriod / 2)) := by
  have hquarter := repeats_quarter hfield hpotential hy hq
  have htwice := hquarter.trans (repeats_quarter hfield hpotential hy hquarter.clear)
  have hadd : p.yPeriod / 4 + p.yPeriod / 4 = p.yPeriod / 2 := by ring
  rwa [Position.advance_advance, hadd, neg_mul_neg, one_mul] at htwice

/-- The whole period repeats the potential and the in-plane field. -/
theorem repeats_full (hy : p.yPeriod ≠ 0) {q : Position ℝ} (hq : Clear (fourCoils p) q) :
    Repeats (fourCoils p) field potential 1 q (q.advance p.yPeriod) := by
  have hhalf := repeats_half hfield hpotential hy hq
  have htwice := hhalf.trans (repeats_half hfield hpotential hy hhalf.clear)
  rwa [Position.advance_advance, add_halves, one_mul] at htwice

/-- A field with the four coils of accepted parameters has their symmetries. -/
theorem isFourfold_of_coils (hr : 0 < p.radius) (hy : p.yPeriod ≠ 0) :
    IsFourfold p field potential where
  quarter _ hq := repeats_quarter hfield hpotential hy hq
  half _ hq := repeats_half hfield hpotential hy hq
  full _ hq := repeats_full hfield hpotential hy hq
  odd q hq := ⟨hq.reflect p, odd_of_coils hfield q⟩
  centre phi := by
    -- the centre is its own reflection, so that each component is its own opposite there
    have hodd := odd_of_coils hfield ⟨p.xCentre, p.zCentre, phi⟩
    rw [Position.reflect_self] at hodd
    exact ⟨LineCurrent.clear_centre p hr phi, self_eq_neg.mp hodd.1, self_eq_neg.mp hodd.2⟩

end FourCoils

/-- **The symmetries of four coils.** For accepted parameters both stellarators can be built, and
away from the coils a quarter of the period changes the signs of the potential and of the in-plane
field, which repeat after half of the period and after the whole; the in-plane field is odd about
the centre and vanishes there. -/
theorem isFourfold_of_validate {p : StellaratorParameters ℝ} (h : p.validate = .ok ()) :
    ∀ kind ∈ [AnalyticField.straightStellarator p, AnalyticField.rotatingEllipse p],
      ∃ field potential, build kind = .ok field ∧ field.coils? = some (fourCoils p) ∧
        field.attribute? "A" = some potential ∧ IsFourfold p field potential := by
  obtain ⟨hr, hy⟩ := p.validate_eq_ok_iff.mp h
  have hcheck : LineCurrent.check (fourCoils p) = .ok (fourCoils p) := rfl
  have hbuild : ∀ kind ∈ [AnalyticField.straightStellarator p, AnalyticField.rotatingEllipse p],
      ∃ field, build kind = .ok field ∧ field.coils? = some (fourCoils p) := by
    intro kind hkind
    rcases List.mem_pair.mp hkind with rfl | rfl
    · exact ⟨_, bind_eq_ok_iff.mpr ⟨(), h, bind_eq_ok_iff.mpr ⟨_, hcheck, rfl⟩⟩, rfl⟩
    · exact ⟨_, bind_eq_ok_iff.mpr ⟨(), h, bind_eq_ok_iff.mpr ⟨_, hcheck, rfl⟩⟩, rfl⟩
  intro kind hkind
  obtain ⟨field, hok, hfield⟩ := hbuild kind hkind
  obtain ⟨potential, hattribute, hpotential⟩ := exists_potential hfield
  exact ⟨field, potential, hok, hfield, hattribute, isFourfold_of_coils hfield hpotential hr hy⟩

/-- Coils that turn backwards, once in every two units of `y`. -/
noncomputable def reversedCoils : StellaratorParameters ℝ := ⟨1, 2, 1 / 2, -2, 1 / 3, 1⟩

/-- Coils that turn backwards have the symmetries, also for their negative period. -/
theorem isFourfold_reversedCoils : reversedCoils.validate = .ok () ∧
    Clear (fourCoils reversedCoils) ⟨3, 2, 1 / 2⟩ ∧
    ∃ field potential, build (.rotatingEllipse reversedCoils) = .ok field ∧
      field.attribute? "A" = some potential ∧ IsFourfold reversedCoils field potential := by
  have hvalid : reversedCoils.validate = .ok () :=
    (StellaratorParameters.validate_eq_ok_iff _).mpr ⟨by norm_num [reversedCoils],
      by norm_num [reversedCoils]⟩
  have hclear : Clear (fourCoils reversedCoils) ⟨3, 2, 1 / 2⟩ := by
    rw [LineCurrent.clear_iff]
    intro k heq
    rw [LineCurrent.position_coil] at heq
    have hx : 1 + 1 / 2 * Real.cos (LineCurrent.bearing reversedCoils k (1 / 2)) = 3 :=
      congrArg Prod.fst heq
    have hcos := Real.cos_le_one (LineCurrent.bearing reversedCoils k (1 / 2))
    linarith
  obtain ⟨field, potential, hbuild, -, hattribute, hfourfold⟩ :=
    isFourfold_of_validate hvalid _ (List.mem_pair.mpr (.inr rfl))
  exact ⟨hvalid, hclear, field, potential, hbuild, hattribute, hfourfold⟩

end MagneticField

end PlasmaField
