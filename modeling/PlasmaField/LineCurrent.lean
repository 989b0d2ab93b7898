import PlasmaField.Dual
import PlasmaField.Parameters

/-!
# Rotating line currents

A straight current that circles its centre with the toroidal angle has the potential
`-0.1 · I · ln r²` in the poloidal plane. The potential of several currents is summed in dual
numbers, so its gradient, which gives the field, comes with it.
-/

namespace PlasmaField

/-- A line current at distance `radius` from its centre, at the angle `angle + iota · φ`. -/
structure LineCurrent (α : Type) where
  xCentre : α
  zCentre : α
  radius : α
  angle : α
  iota : α
  current : α

namespace LineCurrent

variable {α : Type} [ElementaryScalar α]

/-- The factor of the potential: a current `I` at distance `r` makes a field of `0.2 · I / r`. -/
def potentialFactor : α := 0.1

/-- Where the current crosses the poloidal plane at a toroidal angle. -/
def position (c : LineCurrent α) (phi : α) : α × α :=
  let a := c.angle + c.iota * phi
  (c.xCentre + c.radius * ElementaryScalar.cos a, c.zCentre + c.radius * ElementaryScalar.sin a)

/-- All parameters of the current are finite. -/
def isFinite (c : LineCurrent α) : Bool :=
  [c.xCentre, c.zCentre, c.radius, c.angle, c.iota, c.current].all Scalar.isFinite

/-- The current's share of the potential, without its sign, at a place given by duals. -/
def logPotential (c : LineCurrent α) (x z : Dual α) (phi : α) : Dual α :=
  let (xc, zc) := c.position phi
  (Dual.log ((x.subScalar xc).pow 2 + (z.subScalar zc).pow 2)).mulScalar
    (c.current * potentialFactor)

/-- The potential of a list of currents at a point, with its gradient. -/
def potential (coils : List (LineCurrent α)) (x z phi : α) : Dual α :=
  coils.foldl (fun a c ↦ a - c.logPotential (Dual.varX x) (Dual.varZ z) phi) (Dual.constant 0)

/-- Accepts a list of currents if all their parameters are finite. -/
def check (coils : List (LineCurrent α)) : Except (FieldError α) (List (LineCurrent α)) :=
  if coils.all isFinite then .ok coils else .error (.config (.notFinite .lineCurrent))

/-- The four coils of a stellarator, a quarter turn apart, with alternating currents. -/
def fourCoils (p : StellaratorParameters α) : List (LineCurrent α) :=
  (List.range 4).map fun i ↦
    ⟨p.xCentre, p.zCentre, p.radius, 0.5 * ElementaryScalar.pi * Scalar.ofNat i, p.iota,
      if i % 2 = 0 then p.iCoil else -p.iCoil⟩

end LineCurrent

end PlasmaField
