import PlasmaField.Scalar

/-!
# Dual numbers in two variables

A `Dual` carries a value together with its derivatives along the two coordinates of the poloidal
plane. Arithmetic on duals follows the rules of differentiation, so evaluating an expression on the
variables gives its value and its gradient.
-/

namespace PlasmaField

/-- A value with its derivatives along `x` and `z`. -/
structure Dual (α : Type) where
  value : α
  dx : α
  dz : α

namespace Dual

variable {α : Type}

section Arithmetic

variable [Scalar α]

/-- A constant, whose derivatives vanish. -/
def constant (v : α) : Dual α := ⟨v, 0, 0⟩

/-- The variable `x` at a value. -/
def varX (v : α) : Dual α := ⟨v, 1, 0⟩

/-- The variable `z` at a value. -/
def varZ (v : α) : Dual α := ⟨v, 0, 1⟩

/-- The chain rule: a function's value and slope at the dual's value. -/
def chain (a : Dual α) (value slope : α) : Dual α :=
  ⟨value, slope * a.dx, slope * a.dz⟩

/-- The sum rule. -/
instance : Add (Dual α) := ⟨fun a b ↦ ⟨a.value + b.value, a.dx + b.dx, a.dz + b.dz⟩⟩

/-- The difference rule. -/
instance : Sub (Dual α) := ⟨fun a b ↦ ⟨a.value - b.value, a.dx - b.dx, a.dz - b.dz⟩⟩

/-- The product rule. -/
instance : Mul (Dual α) := ⟨fun a b ↦
  ⟨a.value * b.value, a.dx * b.value + a.value * b.dx, a.dz * b.value + a.value * b.dz⟩⟩

/-- The quotient rule, with the quotient computed through the inverse of the divisor. -/
instance : Div (Dual α) := ⟨fun a b ↦
  let inv := 1 / b.value
  let q := a.value * inv
  ⟨q, (a.dx - q * b.dx) * inv, (a.dz - q * b.dz) * inv⟩⟩

/-- The sign rule. -/
instance : Neg (Dual α) := ⟨fun a ↦ ⟨-a.value, -a.dx, -a.dz⟩⟩

/-- A dual plus a plain number. -/
def addScalar (a : Dual α) (v : α) : Dual α := ⟨a.value + v, a.dx, a.dz⟩

/-- A dual minus a plain number. -/
def subScalar (a : Dual α) (v : α) : Dual α := ⟨a.value - v, a.dx, a.dz⟩

/-- A dual times a plain number. -/
def mulScalar (a : Dual α) (v : α) : Dual α := ⟨a.value * v, a.dx * v, a.dz * v⟩

/-- A plain number times a dual. -/
def scalarMul (v : α) (a : Dual α) : Dual α := a.mulScalar v

/-- The integer power. The power zero is the constant one; the exponent of the slope is one less,
in 32-bit words. -/
def pow (a : Dual α) (n : Int32) : Dual α :=
  if n = 0 then constant 1
  else a.chain (Scalar.pow a.value n.toInt)
    (Scalar.ofInt n.toInt * Scalar.pow a.value (n - 1).toInt)

end Arithmetic

variable [ElementaryScalar α]

open ElementaryScalar

/-- The natural logarithm. -/
def log (a : Dual α) : Dual α := a.chain (ElementaryScalar.log a.value) (1 / a.value)

/-- The square root. -/
def sqrt (a : Dual α) : Dual α :=
  let s := ElementaryScalar.sqrt a.value
  a.chain s (0.5 / s)

/-- The sine. -/
def sin (a : Dual α) : Dual α :=
  a.chain (ElementaryScalar.sin a.value) (ElementaryScalar.cos a.value)

/-- The cosine. -/
def cos (a : Dual α) : Dual α :=
  a.chain (ElementaryScalar.cos a.value) (-ElementaryScalar.sin a.value)

end Dual

end PlasmaField
