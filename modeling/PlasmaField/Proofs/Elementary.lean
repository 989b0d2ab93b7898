import Mathlib
import PlasmaField.Proofs.Exact

/-!
# Real scalars

The real numbers, with their square root, sine, cosine and logarithm, are scalars on which every
computation of the library can be read without rounding.
-/

namespace PlasmaField.Elementary

open scoped Exact

/-- Exact scalars with the elementary functions of the real numbers. -/
noncomputable scoped instance realScalar : ElementaryScalar ℝ where
  toScalar := Exact.exactScalar
  sqrt := Real.sqrt
  sin := Real.sin
  cos := Real.cos
  log := Real.log
  pi := Real.pi

end PlasmaField.Elementary
