import Mathlib
import PlasmaField.Proofs.Binary64.Natural
import PlasmaField.Proofs.Equilibrium.Coefficients

/-!
# Counts and resolutions

The numbers of modes of an equilibrium are given as doubles. A count is taken if its double is a
natural number, `count?_eq_ok_iff`. Not every natural double fits into a word: the greatest word
stands for all those from `2 ^ 64` on. A resolution takes the numbers of modes where no angles are
asked for, one more along the torus, and is refused if the sum does not fit into a word,
`resolution_eq_ok_iff`. Together they say how the given numbers arrive in a resolution,
`carriesCounts_of_ofNamed`.
-/

namespace PlasmaField.SpectralInput

open Binary64 (value)

section

variable {α : Type}

/-- A word that is not zero follows another one just if it is the next number. -/
theorem add_one_eq_iff {n m : UInt64} (h : 1 ≤ m.toNat) : n + 1 = m ↔ n.toNat + 1 = m.toNat := by
  have hn := n.toNat_lt
  have hm := m.toNat_lt
  rw [← UInt64.toNat_inj, UInt64.toNat_add, UInt64.toNat_one]
  omega

/-- The angles that a resolution tries: those that are asked for, or else those that the numbers of
modes give. -/
theorem resolution_eq (input : SpectralInput α) (p : RegridParameters) : input.resolution p =
    match p.nTheta.or input.mpol, p.nZeta.or (input.ntor.map (· + 1)) with
    | none, _ => .error (.missingArray "mpol")
    | some _, none => .error (.missingArray "ntor")
    | some nTheta, some nZeta =>
      if nTheta < 2 || nZeta < 1 then .error (.config (.angularResolution nTheta nZeta))
      else .ok (nTheta, nZeta) := by
  unfold resolution
  cases p.nTheta <;> cases input.mpol <;> cases p.nZeta <;> cases input.ntor <;> rfl

/-- Angles along the torus, if there are any, are counted as natural numbers are. -/
theorem or_map_add_one_eq_some_iff {asked ntor : Option UInt64} {n : UInt64} (h : 1 ≤ n.toNat) :
    asked.or (ntor.map (· + 1)) = some n ↔
      (asked.map UInt64.toNat).or (ntor.map (·.toNat + 1)) = some n.toNat := by
  cases asked with
  | some a => simp [UInt64.toNat_inj]
  | none =>
    cases ntor with
    | none => simp
    | some a => simpa using add_one_eq_iff h

/-- A resolution has two poloidal angles or more and a toroidal one, as many as are asked for, or
else as many as there are poloidal modes, and one more than toroidal ones. The sum is that of the
natural numbers. -/
theorem resolution_eq_ok_iff {input : SpectralInput α} {p : RegridParameters}
    {nTheta nZeta : UInt64} : input.resolution p = .ok (nTheta, nZeta) ↔
      (2 ≤ nTheta.toNat ∧ 1 ≤ nZeta.toNat) ∧ p.nTheta.or input.mpol = some nTheta ∧
        (p.nZeta.map UInt64.toNat).or (input.ntor.map (·.toNat + 1)) = some nZeta.toNat := by
  have henough (a b : UInt64) : ¬ (a < 2 || b < 1) = true ↔ 2 ≤ a.toNat ∧ 1 ≤ b.toNat := by
    simp only [Bool.or_eq_true, decide_eq_true_eq, not_or, UInt64.not_lt, UInt64.le_iff_toNat_le]
    rfl
  rw [and_congr_right fun h ↦ and_congr_right fun _ ↦ (or_map_add_one_eq_some_iff h.2).symm,
    ← henough, resolution_eq]
  cases p.nTheta.or input.mpol with
  | none => simp
  | some a =>
    cases p.nZeta.or (input.ntor.map (· + 1)) with
    | none => simp
    | some b =>
      dsimp only
      split
      next hrefused =>
        refine iff_of_false nofun ?_
        rintro ⟨henough, ⟨⟩, ⟨⟩⟩
        exact henough hrefused
      next henough =>
        constructor
        · rintro ⟨⟩
          exact ⟨henough, rfl, rfl⟩
        · rintro ⟨-, ⟨⟩, ⟨⟩⟩
          rfl

end

/-! ## Counts that are doubles -/

/-- A word stands for a double: the double is a natural number, and the word is that number just if
it is below `2 ^ 64`. The greatest word stands for all others. -/
structure StandsFor (n : UInt64) (v : Float) : Prop where
  finite : v.isFinite = true
  natural : ∃ k : ℕ, value v = k
  exact_iff : (n.toNat : ℚ) = value v ↔ value v < 2 ^ 64
  greatest : 2 ^ 64 ≤ value v → n.toNat = 2 ^ 64 - 1

/-- There is no count where nothing stands under the name. Otherwise the count stands for the number
that does. -/
structure IsCount (arrays : Dataset Float) (name : String) (count : Option UInt64) : Prop where
  none_iff : count = none ↔ arrays.contains name = false
  given : ∀ n ∈ count, ∃ v, arrays.scalar name = .ok v ∧ StandsFor n v

/-- The numbers of modes are counts of the named arrays, and decide every resolution. Toroidal
angles that are not asked for are exactly one more than the number that is given. -/
structure CarriesCounts (arrays : Dataset Float) (input : SpectralInput Float) : Prop where
  mpol : IsCount arrays "mpol" input.mpol
  ntor : IsCount arrays "ntor" input.ntor
  resolution : ∀ p nTheta nZeta, input.resolution p = .ok (nTheta, nZeta) ↔
    (2 ≤ nTheta.toNat ∧ 1 ≤ nZeta.toNat) ∧ p.nTheta.or input.mpol = some nTheta ∧
      (p.nZeta.map UInt64.toNat).or (input.ntor.map (·.toNat + 1)) = some nZeta.toNat
  toroidal_exact : ∀ p nTheta nZeta, input.resolution p = .ok (nTheta, nZeta) → p.nZeta = none →
    ∃ v, arrays.scalar "ntor" = .ok v ∧ (nZeta.toNat : ℚ) = value v + 1

/-- A number or the greatest word, whichever is less, stands for a double with that number. -/
theorem standsFor_of_natural? {n : UInt64} {v : Float} {k : ℕ} (hk : Scalar.natural? v = some k)
    (hn : n.toNat = min k (2 ^ 64 - 1)) : StandsFor n v := by
  obtain ⟨hfinite, hvalue⟩ := Binary64.natural?_eq_some_iff.mp hk
  have hword : value v < 2 ^ 64 ↔ k < 2 ^ 64 := by
    rw [hvalue]
    norm_cast
  refine ⟨hfinite, ⟨k, hvalue⟩, ?_, fun hlarge ↦ ?_⟩
  · rw [hword, hvalue, Nat.cast_inj, hn]
    omega
  · have hlong := mt hword.mpr (not_lt.mpr hlarge)
    omega

/-- The counts of named arrays. -/
theorem isCount_of_count? {arrays : Dataset Float} {name : String} {count : Option UInt64}
    (h : count? arrays name = .ok count) : IsCount arrays name count := by
  obtain ⟨rfl, habsent⟩ | ⟨n, v, k, rfl, hv, hk, hn⟩ := count?_eq_ok_iff.mp h
  · exact ⟨iff_of_true rfl habsent, nofun⟩
  · refine ⟨iff_of_false nofun (Bool.not_eq_false _ ▸ Dataset.contains_of_scalar hv), ?_⟩
    rintro _ ⟨⟩
    exact ⟨v, hv, standsFor_of_natural? hk hn⟩

/-- The counts of data that are taken from named arrays are carried into every resolution. -/
theorem carriesCounts_of_ofNamed {arrays : Dataset Float} {input : SpectralInput Float}
    {warnings : ℕ} (h : ofNamed arrays = .ok (input, warnings)) : CarriesCounts arrays input := by
  have hreads := reads_of_ofNamed h
  have hntor := isCount_of_count? hreads.ntor
  refine ⟨isCount_of_count? hreads.mpol, hntor, fun _ _ _ ↦ resolution_eq_ok_iff,
    fun p nTheta nZeta hresolution hasked ↦ ?_⟩
  obtain ⟨-, -, hangles⟩ := resolution_eq_ok_iff.mp hresolution
  rw [hasked, Option.map_none, Option.none_or] at hangles
  obtain ⟨n, hn, hsum⟩ := Option.map_eq_some_iff.mp hangles
  obtain ⟨v, hv, hstands⟩ := hntor.given n hn
  refine ⟨v, hv, ?_⟩
  -- the greatest word has no successor
  have hnext := nZeta.toNat_lt
  have hsmall : value v < 2 ^ 64 := by
    by_contra hlarge
    have hgreatest := hstands.greatest (not_lt.mp hlarge)
    omega
  rw [← hsum, ← hstands.exact_iff.mpr hsmall, Nat.cast_add, Nat.cast_one]

section Example

/-- One mode on three surfaces, with the given numbers of modes. -/
def oneMode (mpol ntor : Float) : Dataset Float where
  entries :=
    let coefficients : ShapedArray Float := .replicate [3, 1] 1
    [("xm", .vector #[0]), ("xn", .vector #[0]), ("rmnc", coefficients), ("zmns", coefficients),
      ("bsupumnc", coefficients), ("bsupvmnc", coefficients), ("mpol", .scalar mpol),
      ("ntor", .scalar ntor)]

/-- Five poloidal modes and two toroidal ones are resolved by five and three angles. -/
theorem carriesCounts_oneMode : ∃ input warnings, ofNamed (oneMode 5 2) = .ok (input, warnings) ∧
    CarriesCounts (oneMode 5 2) input ∧
    ∀ nr nz retainMesh, input.resolution ⟨none, none, nr, nz, retainMesh⟩ = .ok (5, 3) := by
  obtain ⟨⟨input, warnings⟩, h⟩ :=
    Outcome.exists_of_isOk (show (ofNamed (oneMode 5 2)).isOk = true by decide +kernel)
  have hcarries := carriesCounts_of_ofNamed h
  have hreads := reads_of_ofNamed h
  have hfive : count? (oneMode 5 2) "mpol" = .ok (some 5) :=
    count?_eq_ok_iff.mpr (.inr ⟨5, 5, 5, rfl, rfl, by decide +kernel, rfl⟩)
  have htwo : count? (oneMode 5 2) "ntor" = .ok (some 2) :=
    count?_eq_ok_iff.mpr (.inr ⟨2, 2, 2, rfl, rfl, by decide +kernel, rfl⟩)
  refine ⟨input, warnings, h, hcarries, fun nr nz retainMesh ↦ (hcarries.resolution _ _ _).mpr ?_⟩
  rw [← Except.ok.inj (hfive.symm.trans hreads.mpol),
    ← Except.ok.inj (htwo.symm.trans hreads.ntor)]
  exact ⟨by decide, rfl, rfl⟩

/-- A number of poloidal modes that does not fit into a word is accepted, and carried as the
greatest word. -/
theorem hugeCount_carried : ∃ input warnings n v,
    ofNamed (oneMode 100000000000000000000 2) = .ok (input, warnings) ∧ input.mpol = some n ∧
      (oneMode 100000000000000000000 2).scalar "mpol" = .ok v ∧ value v = 10 ^ 20 ∧
        n.toNat = 2 ^ 64 - 1 := by
  obtain ⟨⟨input, warnings⟩, h⟩ := Outcome.exists_of_isOk
    (show (ofNamed (oneMode 100000000000000000000 2)).isOk = true by decide +kernel)
  have hnatural : Scalar.natural? (100000000000000000000 : Float) = some (10 ^ 20) := by
    decide +kernel
  have hcount : count? (oneMode 100000000000000000000 2) "mpol" =
      .ok (some 18446744073709551615) :=
    count?_eq_ok_iff.mpr (.inr ⟨_, _, _, rfl, rfl, hnatural, rfl⟩)
  refine ⟨input, warnings, 18446744073709551615, 100000000000000000000, h, ?_, rfl, ?_, rfl⟩
  · exact Except.ok.inj ((reads_of_ofNamed h).mpol.symm.trans hcount)
  · exact_mod_cast (Binary64.natural?_eq_some_iff.mp hnatural).2

end Example

end PlasmaField.SpectralInput
