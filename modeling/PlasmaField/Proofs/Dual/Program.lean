import Mathlib
import PlasmaField.Proofs.Dual.Gradient

/-!
# Straight-line programs on duals

A straight-line program makes one variable after another from the variables that it already has, and
adds to or subtracts from variables in place. Run on duals at a point of the plane, with the duals
of the two coordinates, every variable ends with the value and the exact partial derivatives of the
real function that the program computes, wherever the program is defined. The induction over the
program is `Program.carries`, with one rule for each operation in `Operation.carries`.
-/

namespace PlasmaField.Dual

/-- An operation that makes a new variable, in a program with `n` variables. -/
inductive Operation (α : Type) (n : ℕ) where
  | constant (v : α)
  | varX
  | varZ
  | copy (a : Fin n)
  | add (a b : Fin n)
  | sub (a b : Fin n)
  | mul (a b : Fin n)
  | div (a b : Fin n)
  | neg (a : Fin n)
  | addScalar (a : Fin n) (v : α)
  | subScalar (a : Fin n) (v : α)
  | mulScalar (a : Fin n) (v : α)
  | scalarMul (v : α) (a : Fin n)
  | log (a : Fin n)
  | sqrt (a : Fin n)
  | sin (a : Fin n)
  | cos (a : Fin n)
  | pow (a : Fin n) (exponent : Int32)

/-- A straight-line program that ends with `n` variables. -/
inductive Program (α : Type) : ℕ → Type where
  | empty : Program α 0
  | push {n : ℕ} (p : Program α n) (op : Operation α n) : Program α (n + 1)
  | addAssign {n : ℕ} (p : Program α n) (target source : Fin n) : Program α n
  | subAssign {n : ℕ} (p : Program α n) (target source : Fin n) : Program α n

section Evaluation

variable {α : Type} [ElementaryScalar α] {n : ℕ}

/-- The operation on the variables' duals, at the point `(x, z)`. -/
def Operation.dual (x z : α) (memory : Fin n → Dual α) : Operation α n → Dual α
  | .constant v => Dual.constant v
  | .varX => Dual.varX x
  | .varZ => Dual.varZ z
  | .copy a => memory a
  | .add a b => memory a + memory b
  | .sub a b => memory a - memory b
  | .mul a b => memory a * memory b
  | .div a b => memory a / memory b
  | .neg a => -memory a
  | .addScalar a v => (memory a).addScalar v
  | .subScalar a v => (memory a).subScalar v
  | .mulScalar a v => (memory a).mulScalar v
  | .scalarMul v a => Dual.scalarMul v (memory a)
  | .log a => (memory a).log
  | .sqrt a => (memory a).sqrt
  | .sin a => (memory a).sin
  | .cos a => (memory a).cos
  | .pow a exponent => (memory a).pow exponent

/-- The duals of the variables after the program has run at the point `(x, z)`. -/
def Program.duals (x z : α) {n : ℕ} : Program α n → Fin n → Dual α
  | .empty => Fin.elim0
  | .push p op => Fin.snoc (p.duals x z) (op.dual x z (p.duals x z))
  | .addAssign p target source =>
    Function.update (p.duals x z) target (p.duals x z target + p.duals x z source)
  | .subAssign p target source =>
    Function.update (p.duals x z) target (p.duals x z target - p.duals x z source)

end Evaluation

/-! ## The real functions that programs compute -/

variable {n : ℕ}

/-- The operation on the variables' real values, at the point `q`. -/
noncomputable def Operation.real (q : ℝ × ℝ) (memory : Fin n → ℝ) : Operation ℝ n → ℝ
  | .constant v => v
  | .varX => q.1
  | .varZ => q.2
  | .copy a => memory a
  | .add a b => memory a + memory b
  | .sub a b => memory a - memory b
  | .mul a b => memory a * memory b
  | .div a b => memory a / memory b
  | .neg a => -memory a
  | .addScalar a v => memory a + v
  | .subScalar a v => memory a - v
  | .mulScalar a v => memory a * v
  | .scalarMul v a => v * memory a
  | .log a => Real.log (memory a)
  | .sqrt a => √(memory a)
  | .sin a => Real.sin (memory a)
  | .cos a => Real.cos (memory a)
  | .pow a exponent => memory a ^ exponent.toInt

/-- The real values of the variables after the program has run at the point `q`. -/
noncomputable def Program.reals {n : ℕ} (q : ℝ × ℝ) : Program ℝ n → Fin n → ℝ
  | .empty => Fin.elim0
  | .push p op => Fin.snoc (p.reals q) (op.real q (p.reals q))
  | .addAssign p target source =>
    Function.update (p.reals q) target (p.reals q target + p.reals q source)
  | .subAssign p target source =>
    Function.update (p.reals q) target (p.reals q target - p.reals q source)

/-- The operation is defined for the variables' values: a divisor is not zero, the argument of a
logarithm or of a square root is positive, and an exponent has a predecessor among the 32-bit words
and is negative only for a base other than zero. -/
def Operation.InDomain (memory : Fin n → ℝ) : Operation ℝ n → Prop
  | .div _ b => memory b ≠ 0
  | .log a => 0 < memory a
  | .sqrt a => 0 < memory a
  | .pow a exponent => exponent ≠ Int32.minValue ∧ (exponent < 0 → memory a ≠ 0)
  | _ => True

/-- Every operation of the program is defined when the program runs at the point `q`. -/
def Program.InDomain {n : ℕ} (q : ℝ × ℝ) : Program ℝ n → Prop
  | .empty => True
  | .push p op => op.InDomain (p.reals q) ∧ p.InDomain q
  | .addAssign p _ _ => p.InDomain q
  | .subAssign p _ _ => p.InDomain q

/-! ## Gradients of programs -/

open scoped Exact Elementary

/-- An operation on duals that carry functions gives a dual that carries the operation on these
functions, where it is defined. There is one rule of differentiation for each operation. -/
theorem Operation.carries {q : ℝ × ℝ} {memory : Fin n → Dual ℝ} {f : Fin n → ℝ × ℝ → ℝ}
    (h : ∀ i, (memory i).Carries (f i) q) (op : Operation ℝ n) (hop : op.InDomain (f · q)) :
    (op.dual q.1 q.2 memory).Carries (fun p ↦ op.real p (f · p)) q := by
  have hvalue : ∀ i, (memory i).value = f i q := fun i ↦ (h i).value_eq
  cases op with
  | constant v => exact carries_constant v
  | varX => exact carries_varX
  | varZ => exact carries_varZ
  | copy a => exact h a
  | add a b => exact (h a).add (h b)
  | sub a b => exact (h a).sub (h b)
  | mul a b => exact (h a).mul (h b)
  | div a b => exact (h a).div (h b) ((hvalue b).trans_ne hop)
  | neg a => exact (h a).neg
  | addScalar a v => exact (h a).addScalar v
  | subScalar a v => exact (h a).subScalar v
  | mulScalar a v => exact (h a).mulScalar v
  | scalarMul v a => exact (h a).scalarMul v
  | log a => exact (h a).log (hop.trans_eq (hvalue a).symm)
  | sqrt a => exact (h a).sqrt (hop.trans_eq (hvalue a).symm)
  | sin a => exact (h a).sin
  | cos a => exact (h a).cos
  | pow a exponent =>
      exact (h a).pow hop.1 fun hneg ↦ (hvalue a).trans_ne (hop.2 hneg)

/-- Where a program is defined, each of its duals carries the real function that the program
computes for the variable. The induction is on the program: an operation makes a variable, and an
assignment changes one and leaves the others. -/
theorem Program.carries {n : ℕ} (p : Program ℝ n) {q : ℝ × ℝ} (h : p.InDomain q) (i : Fin n) :
    (p.duals q.1 q.2 i).Carries (fun r ↦ p.reals r i) q := by
  induction p with
  | empty => exact i.elim0
  | push p op ih =>
      refine Fin.lastCases ?_ (fun j ↦ ?_) i
      · simpa [Program.duals, Program.reals] using op.carries (fun j ↦ ih h.2 j) h.1
      · simpa [Program.duals, Program.reals] using ih h.2 j
  | addAssign p target source ih =>
      by_cases hi : i = target
      · subst hi
        simpa [Program.duals, Program.reals] using (ih h i).add (ih h source)
      · simpa [Program.duals, Program.reals, hi] using ih h i
  | subAssign p target source ih =>
      by_cases hi : i = target
      · subst hi
        simpa [Program.duals, Program.reals] using (ih h i).sub (ih h source)
      · simpa [Program.duals, Program.reals, hi] using ih h i

/-- Where a straight-line program is defined, running it on duals gives for every variable the value
of the real function that the program computes, and its partial derivatives along both
coordinates. -/
theorem Program.duals_eq_and_hasDerivAt {n : ℕ} (p : Program ℝ n) {x z : ℝ}
    (h : p.InDomain (x, z)) (i : Fin n) : (p.duals x z i).value = p.reals (x, z) i ∧
      HasDerivAt (fun x' ↦ p.reals (x', z) i) (p.duals x z i).dx x ∧
      HasDerivAt (fun z' ↦ p.reals (x, z') i) (p.duals x z i).dz z := by
  have hcarries := p.carries h i
  exact ⟨hcarries.value_eq, hcarries.hasDerivAt_x, hcarries.hasDerivAt_z⟩

/-! ## A program with shared variables -/

/-- The program for `sin (x · z) / (cos x + 1) + √z - z⁻²`, which it gathers in its variable `6`. -/
noncomputable def quotientProgram : Program ℝ 9 :=
  (((((((((Program.empty.push .varX).push .varZ).push (.mul 0 1)).push (.sin 2)).push
    (.cos 0)).push (.addScalar 4 1)).push (.div 3 5)).push (.sqrt 1)).push
      (.pow 1 (-2))).addAssign 6 7 |>.subAssign 6 8

/-- The program's value and its partial derivatives at `(0, 4)`. -/
theorem duals_quotientProgram : quotientProgram.InDomain (0, 4) ∧
    (quotientProgram.duals 0 4 6).value =
      Real.sin (0 * 4) / (Real.cos 0 + 1) + √4 - 4 ^ (-2 : ℤ) ∧
    HasDerivAt (fun x ↦ Real.sin (x * 4) / (Real.cos x + 1) + √4 - 4 ^ (-2 : ℤ))
      (quotientProgram.duals 0 4 6).dx 0 ∧
    HasDerivAt (fun z ↦ Real.sin (0 * z) / (Real.cos 0 + 1) + √z - z ^ (-2 : ℤ))
      (quotientProgram.duals 0 4 6).dz 4 := by
  have hbase : (0 : ℝ) < 4 := by norm_num
  have hdivisor : Real.cos 0 + 1 ≠ 0 := by norm_num
  have hdomain : quotientProgram.InDomain (0, 4) :=
    ⟨⟨by decide, fun _ ↦ hbase.ne'⟩, hbase, hdivisor, trivial, trivial, trivial, trivial, trivial,
      trivial, trivial⟩
  exact ⟨hdomain, quotientProgram.duals_eq_and_hasDerivAt hdomain 6⟩

end PlasmaField.Dual
