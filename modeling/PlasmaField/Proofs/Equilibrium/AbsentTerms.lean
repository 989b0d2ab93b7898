import Mathlib
import PlasmaField.Equilibrium.Regridded
import PlasmaField.Proofs.Equilibrium.Shapes
import PlasmaField.Proofs.Harmonics.ZeroTerms

/-!
# Absent asymmetric terms

An equilibrium whose asymmetric terms are all absent is the same with and without the flag `iasym`
that asks for them, and an absent term is the same as one that is given as zeros,
`RegriddedField.ofNamed_absentTerms`. The first rests on `SurfaceMesh.synthesize_zeroTerms`: the
series of zeros that are added to the surfaces and their derivatives change nothing. The second
needs no arithmetic, as the same terms are taken from both bundles of arrays.
-/

namespace PlasmaField

open Outcome (Alike bind_eq_ok_iff)
open Scalar (nth)
open HarmonicBasis (finiteFactors_xm finiteFactors_xn vanishesOn_scaleColumns vanishesOn_zeroTable
  zipWith_zeroSeries)

variable {α : Type} [ElementaryScalar α]

/-- Asymmetric terms that are all zero. -/
def AsymmetricTerms.zero (ns mn : ℕ) : AsymmetricTerms α :=
  ⟨zeroTable ns mn, zeroTable ns mn⟩

namespace HarmonicBasis

/-- Factors are finite with either sign. -/
theorem FiniteFactors.negated [NeutralZero α] {b : HarmonicBasis α} {factor : Array α}
    (h : b.FiniteFactors factor) : b.FiniteFactors (SurfaceMesh.negated factor) where
  size := (Array.size_map ..).trans h.size
  finite t v hregular k hk := by
    have hk' : k < factor.size := h.size ▸ hk
    have hentry : nth (SurfaceMesh.negated factor) k = -nth factor k := by
      simp [nth, SurfaceMesh.negated, hk']
    rw [hentry, NeutralZero.isFinite_neg]
    exact h.finite t v hregular k hk

end HarmonicBasis

/-! ## The mesh -/

namespace SurfaceMesh

variable [NeutralZero α] {input : SpectralInput α}

/-- Asymmetric terms that are zero add nothing to the surfaces and their derivatives. -/
theorem add_asymmetricGeometry_zero {basis : HarmonicBasis α} (hxm : basis.xm = input.xm)
    (hxn : basis.xn = input.xn) (h : input.Consistent) {g g' : Geometry α}
    (hg : symmetricGeometry input basis = .ok g)
    (hg' : asymmetricGeometry input basis (.zero input.surfaces basis.modes) = .ok g') :
    g.add g' = g := by
  obtain ⟨r, hr, hg⟩ := bind_eq_ok_iff.mp hg
  obtain ⟨z, hz, hg⟩ := bind_eq_ok_iff.mp hg
  obtain ⟨drTheta, hdrTheta, hg⟩ := bind_eq_ok_iff.mp hg
  obtain ⟨drZeta, hdrZeta, hg⟩ := bind_eq_ok_iff.mp hg
  obtain ⟨dzTheta, hdzTheta, hg⟩ := bind_eq_ok_iff.mp hg
  obtain ⟨dzZeta, hdzZeta, hg⟩ := bind_eq_ok_iff.mp hg
  cases hg
  obtain ⟨r', hr', hg'⟩ := bind_eq_ok_iff.mp hg'
  obtain ⟨drTheta', hdrTheta', hg'⟩ := bind_eq_ok_iff.mp hg'
  obtain ⟨drZeta', hdrZeta', hg'⟩ := bind_eq_ok_iff.mp hg'
  obtain ⟨z', hz', hg'⟩ := bind_eq_ok_iff.mp hg'
  obtain ⟨dzTheta', hdzTheta', hg'⟩ := bind_eq_ok_iff.mp hg'
  obtain ⟨dzZeta', hdzZeta', hg'⟩ := bind_eq_ok_iff.mp hg'
  cases hg'
  have hsize : basis.xm.size = basis.xn.size := by rw [hxm, hxn, h.xn_size]
  have hm : basis.FiniteFactors input.xm := hxm ▸ finiteFactors_xm
  have hn : basis.FiniteFactors input.xn := hxn ▸ finiteFactors_xn hsize
  have hcos := basis.neutral_cosineAt
  have hsin := basis.neutral_sineAt
  have hheight : input.surfaces = input.zSine.rows := h.zSine.1.symm
  unfold Geometry.add
  congr 1
  · exact zipWith_zeroSeries hcos hsin hr hr' rfl vanishesOn_zeroTable
  · exact zipWith_zeroSeries hsin hcos hz hz' hheight vanishesOn_zeroTable
  · exact zipWith_zeroSeries hsin hcos hdrTheta hdrTheta' rfl (vanishesOn_scaleColumns hm)
  · exact zipWith_zeroSeries hsin hcos hdrZeta hdrZeta' rfl (vanishesOn_scaleColumns hn)
  · exact zipWith_zeroSeries hcos hsin hdzTheta hdzTheta' hheight
      (vanishesOn_scaleColumns hm.negated)
  · exact zipWith_zeroSeries hcos hsin hdzZeta hdzZeta' hheight
      (vanishesOn_scaleColumns hn.negated)

/-- An equilibrium with asymmetric terms that are zero has the mesh of the one without. -/
theorem synthesize_zeroTerms (h : input.Consistent) (hnone : input.asymmetric = none)
    (nTheta nZeta : ℕ) :
    synthesize { input with asymmetric := some (.zero input.surfaces input.xm.size) } nTheta nZeta =
      synthesize input nTheta nZeta := by
  let flagged : SpectralInput α :=
    { input with asymmetric := some (.zero input.surfaces input.xm.size) }
  have hflagged : flagged.Consistent := { h with
    asymmetric := by
      rintro _ ⟨⟩
      exact ⟨⟨rfl, rfl⟩, rfl, rfl⟩ }
  have hgeometry : geometryOf flagged (closedBasis nTheta nZeta input.xm input.xn) =
      geometryOf input (closedBasis nTheta nZeta input.xm input.xn) := by
    obtain ⟨g, hg, -⟩ := exists_symmetricGeometry h nTheta nZeta
    obtain ⟨g', hg', -⟩ := exists_asymmetricGeometry hflagged nTheta nZeta rfl
    have hleft : geometryOf flagged (closedBasis nTheta nZeta input.xm input.xn) =
        .ok (g.add g') := by
      refine bind_eq_ok_iff.mpr ⟨g, hg, ?_⟩
      show addAsymmetric _ _ _ _ = _
      rw [addAsymmetric_eq]
      exact bind_eq_ok_iff.mpr ⟨g', hg', rfl⟩
    have hright : geometryOf input (closedBasis nTheta nZeta input.xm input.xn) = .ok g := by
      refine bind_eq_ok_iff.mpr ⟨g, hg, ?_⟩
      rw [hnone]
      rfl
    rw [hleft, hright, add_asymmetricGeometry_zero rfl rfl h hg hg']
  rw [synthesize_eq, synthesize_eq]
  refine Outcome.bind_congr fun basis hbasis ↦ ?_
  obtain rfl := eq_closedBasis hbasis
  exact Outcome.bind_congr fun fieldBasis _ ↦
    congrArg (· >>= meshOf input _ fieldBasis) hgeometry

end SurfaceMesh

/-! ## Bundles of arrays -/

namespace SpectralInput

section Queries

variable {arrays arrays' : Dataset α} {name : String}

section Congruence

variable (h : arrays.get? name = arrays'.get? name)
include h

/-- The count under a name only depends on what stands there. -/
theorem count?_congr : count? arrays name = count? arrays' name := by
  unfold count?
  rw [Dataset.optional_congr h (Dataset.scalar_congr h)]

/-- The coefficients under a name only depend on what stands there. -/
theorem coefficients_congr (ns mn : ℕ) :
    coefficients arrays name ns mn = coefficients arrays' name ns mn := by
  unfold coefficients
  rw [Dataset.table_congr h]

/-- Coefficients that may be absent only depend on what stands under their name. -/
theorem coefficientsOrZero_congr (ns mn : ℕ) :
    coefficientsOrZero arrays name ns mn = coefficientsOrZero arrays' name ns mn := by
  unfold coefficientsOrZero
  rw [Dataset.optional_congr h (Dataset.table_congr h)]

end Congruence

/-- Absent coefficients are zero. -/
theorem coefficientsOrZero_of_absent (h : arrays.contains name = false) (ns mn : ℕ) :
    coefficientsOrZero arrays name ns mn = .ok (zeroTable ns mn, 1) := by
  unfold coefficientsOrZero
  rw [Dataset.optional_of_absent Dataset.table h]
  rfl

end Queries

/-- The names of the arrays from which the asymmetric terms are taken. -/
def asymmetricNames : List String :=
  ["iasym", "rmns", "zmnc"]

omit [ElementaryScalar α] in
/-- Inserting one of these arrays leaves all others in place. -/
theorem get?_insert_asymmetric (arrays : Dataset α) {name : String}
    (hname : name ∈ asymmetricNames) (a : ShapedArray α) (other : String)
    (hother : other ∉ asymmetricNames) :
    arrays.get? other = (arrays.insert name a).get? other := by
  refine (Dataset.get?_insert_of_ne arrays ?_ a).symm
  rintro rfl
  exact hother hname

/-- Bundles that have all arrays in common but those from which the asymmetric terms are taken give
data that have all else in common. The asymmetric terms are related if they are for each number of
surfaces and modes. -/
theorem alike_ofNamed {arrays arrays' : Dataset α}
    (hagree : ∀ name, name ∉ asymmetricNames → arrays.get? name = arrays'.get? name)
    {r : ℕ → ℕ → Option (AsymmetricTerms α) → Option (AsymmetricTerms α) → Prop}
    (hterms : ∀ xm t, arrays.vector "xm" = .ok xm → arrays.table "rmnc" = .ok t →
      Alike (fun a a' ↦ r t.rows xm.size a.1 a'.1) (asymmetric? arrays t.rows xm.size)
        (asymmetric? arrays' t.rows xm.size)) :
    Alike (fun a a' ↦ a'.1 = { a.1 with asymmetric := a'.1.asymmetric } ∧
        r a.1.surfaces a.1.xm.size a.1.asymmetric a'.1.asymmetric)
      (ofNamed arrays) (ofNamed arrays') := by
  have hfieldModes : fieldModes? arrays = fieldModes? arrays' := by
    have hxm := hagree "xm_nyq" (by decide)
    have hxn := hagree "xn_nyq" (by decide)
    unfold fieldModes?
    rw [Dataset.optional_congr hxm (Dataset.vector_congr hxm),
      Dataset.optional_congr hxn (Dataset.vector_congr hxn)]
  refine .step (Dataset.vector_congr (hagree "xm" (by decide))) fun xm hxm ↦ ?_
  refine .step (Dataset.vector_congr (hagree "xn" (by decide))) fun xn _ ↦ ?_
  refine .guard fun _ ↦ ?_
  refine .step (Dataset.table_congr (hagree "rmnc" (by decide))) fun rCosine hrCosine ↦ ?_
  refine .step (count?_congr (hagree "ns" (by decide))) fun count _ ↦ ?_
  refine .guard fun _ ↦ ?_
  refine .step rfl fun _ hcheck ↦ ?_
  -- the number of surfaces that was checked is the number of rows
  have hns : rCosine.rows = (count.map UInt64.toNat).getD rCosine.rows :=
    (checkCoefficients_eq_ok_iff.mp hcheck).1.1
  dsimp only
  rw [← hns]
  refine .step (coefficients_congr (hagree "zmns" (by decide)) _ _) fun zSine _ ↦ ?_
  refine .step hfieldModes fun modes _ ↦ ?_
  refine .step (coefficients_congr (hagree "bsupumnc" (by decide)) _ _) fun poloidal _ ↦ ?_
  refine .step (coefficients_congr (hagree "bsupvmnc" (by decide)) _ _) fun toroidal _ ↦ ?_
  refine .bind (hterms xm rCosine hxm hrCosine) fun a a' _ _ hr ↦ ?_
  refine .step (count?_congr (hagree "mpol" (by decide))) fun mpol _ ↦ ?_
  refine .step (count?_congr (hagree "ntor" (by decide))) fun ntor _ ↦ ?_
  exact .ok ⟨rfl, hr⟩

section Bundles

variable [OrdinaryZero α] {arrays : Dataset α}

/-- There are no asymmetric terms without the flag. -/
theorem asymmetric?_of_absent (h : arrays.contains "iasym" = false) (ns mn : ℕ) :
    asymmetric? arrays ns mn = .ok (none, 0) := by
  refine bind_eq_ok_iff.mpr ⟨none, Dataset.optional_of_absent Dataset.scalar h, ?_⟩
  exact if_pos OrdinaryZero.beq_self

omit [OrdinaryZero α] in
/-- Asymmetric terms that are absent are zero, if the flag asks for any. -/
theorem asymmetric?_of_flag {v : α} (hflag : arrays.scalar "iasym" = .ok v)
    (hrSine : arrays.contains "rmns" = false) (hzCosine : arrays.contains "zmnc" = false)
    (ns mn : ℕ) : asymmetric? arrays ns mn =
      .ok (if v == 0 then (none, 0) else (some (.zero ns mn), 2)) := by
  refine bind_eq_ok_iff.mpr ⟨some v, Dataset.optional_scalar hflag, ?_⟩
  dsimp only [Option.getD_some]
  split
  next => rfl
  next =>
    refine bind_eq_ok_iff.mpr ⟨_, coefficientsOrZero_of_absent hrSine ns mn, ?_⟩
    exact bind_eq_ok_iff.mpr ⟨_, coefficientsOrZero_of_absent hzCosine ns mn, rfl⟩

/-- Bundles with no flag and with one are alike if there are no asymmetric terms: with the flag the
terms may be there, and then they are zero. -/
theorem alike_flagged (habsent : ∀ name ∈ asymmetricNames, arrays.contains name = false)
    {flag : ShapedArray α} (hflag : flag.size = 1) :
    Alike (fun a a' ↦ a.1.asymmetric = none ∧ (a'.1 = a.1 ∨
        a'.1 = { a.1 with asymmetric := some (.zero a.1.surfaces a.1.xm.size) }))
      (ofNamed arrays) (ofNamed (arrays.insert "iasym" flag)) := by
  have hstays : ∀ name ∈ ["rmns", "zmnc"],
      (arrays.insert "iasym" flag).contains name = false := by
    intro name hname
    have hne : name ≠ "iasym" := by
      rintro rfl
      simp at hname
    rw [Dataset.contains_congr (Dataset.get?_insert_of_ne arrays hne flag)]
    exact habsent name (List.mem_cons_of_mem _ hname)
  obtain ⟨v, hv⟩ := Dataset.exists_scalar_insert_self arrays "iasym" hflag
  have halike := alike_ofNamed (get?_insert_asymmetric arrays List.mem_cons_self flag)
    (r := fun ns mn x y ↦ x = none ∧ (y = none ∨ y = some (.zero ns mn))) fun xm t _ _ ↦ ?_
  · refine halike.imp fun a a' _ _ ⟨hsame, hnone, hterms⟩ ↦ ⟨hnone, ?_⟩
    rw [hsame]
    rcases hterms with hterms | hterms
    · exact .inl (by rw [hterms, ← hnone])
    · exact .inr (by rw [hterms])
  · rw [asymmetric?_of_absent (habsent "iasym" List.mem_cons_self),
      asymmetric?_of_flag hv (hstays "rmns" (by simp)) (hstays "zmnc" (by simp))]
    refine .ok ⟨rfl, ?_⟩
    split
    · exact .inl rfl
    · exact .inr rfl

/-- Zeros that are supplied for absent coefficients are taken in their place. -/
theorem alike_coefficientsOrZero {missing : String} (habsent : arrays.contains missing = false)
    (name : String) (ns mn : ℕ) :
    Alike (fun a a' ↦ a.1 = a'.1) (coefficientsOrZero arrays name ns mn)
      (coefficientsOrZero (arrays.insert missing (.replicate [ns, mn] 0)) name ns mn) := by
  by_cases hname : name = missing
  · subst hname
    have htable : (arrays.insert name (.replicate [ns, mn] 0)).table name =
        .ok (zeroTable ns mn) := by
      refine bind_eq_ok_iff.mpr ⟨_, Dataset.array_eq_ok_iff.mpr (Dataset.get?_insert_self ..), ?_⟩
      rw [Table.ofShaped?_replicate]
      rfl
    have hgiven := Dataset.optional_of_present (Dataset.contains_insert_self ..) htable
    have hsupplied : coefficientsOrZero (arrays.insert name (.replicate [ns, mn] 0)) name ns mn =
        .ok (zeroTable ns mn, 0) :=
      coefficientsOrZero_of_some hgiven ⟨rfl, rfl⟩ (all_isFinite_zero ns mn)
    rw [coefficientsOrZero_of_absent habsent, hsupplied]
    exact .ok rfl
  · rw [← coefficientsOrZero_congr (Dataset.get?_insert_of_ne arrays hname _).symm]
    refine .refl ?_ _
    intro a
    rfl

/-- Bundles are alike if one has zeros under the name of an asymmetric term that the other does not
have. -/
theorem alike_supplied {missing : String} (hmissing : missing ∈ ["rmns", "zmnc"])
    (habsent : arrays.contains missing = false) {ns mn : ℕ}
    (hns : ∀ t, arrays.table "rmnc" = .ok t → t.rows = ns)
    (hmn : ∀ xm, arrays.vector "xm" = .ok xm → xm.size = mn) :
    Alike (fun a a' ↦ a.1 = a'.1) (ofNamed arrays)
      (ofNamed (arrays.insert missing (.replicate [ns, mn] 0))) := by
  have hflag : "iasym" ≠ missing := by
    rintro rfl
    simp at hmissing
  have halike := alike_ofNamed
    (get?_insert_asymmetric arrays (List.mem_cons_of_mem _ hmissing) (.replicate [ns, mn] 0))
    (r := fun _ _ x y ↦ x = y) fun xm t hxm ht ↦ ?_
  · refine halike.imp fun a a' _ _ ⟨hsame, hterms⟩ ↦ ?_
    rw [hsame, ← hterms]
  · rw [hns t ht, hmn xm hxm]
    have hsame := (Dataset.get?_insert_of_ne arrays hflag (.replicate [ns, mn] 0)).symm
    refine .step (Dataset.optional_congr hsame (Dataset.scalar_congr hsame)) fun iasym _ ↦ ?_
    dsimp only
    split
    · exact .ok rfl
    · refine .bind (alike_coefficientsOrZero habsent "rmns" ns mn) fun a a' _ _ hrSine ↦ ?_
      refine .bind (alike_coefficientsOrZero habsent "zmnc" ns mn) fun c c' _ _ hzCosine ↦ ?_
      exact .ok (by rw [hrSine, hzCosine])

end Bundles

end SpectralInput

/-! ## The resampled field -/

namespace RegriddedField

/-- The resampled field only depends on the asymmetric terms by the mesh. -/
theorem ofInput_congr {input : SpectralInput α} {asymmetric : Option (AsymmetricTerms α)}
    (h : ∀ nTheta nZeta,
      SurfaceMesh.synthesize { input with asymmetric := asymmetric } nTheta nZeta =
        SurfaceMesh.synthesize input nTheta nZeta) (p : RegridParameters) :
    ofInput { input with asymmetric := asymmetric } p = ofInput input p := by
  unfold ofInput
  simp only [h]
  rfl

/-- Bundles of arrays have one outcome if the data that are taken from them have. -/
theorem ofNamed_congr {arrays arrays' : Dataset α} (p : RegridParameters)
    (h : Alike (fun a a' ↦ ofInput a.1 p = ofInput a'.1 p) (SpectralInput.ofNamed arrays)
      (SpectralInput.ofNamed arrays')) :
    (ofNamed arrays p).map Prod.fst = (ofNamed arrays' p).map Prod.fst := by
  have halike : Alike (fun a a' ↦ a.1 = a'.1) (ofNamed arrays p) (ofNamed arrays' p) := by
    refine .bind h fun a a' _ _ hfield ↦ ?_
    exact .step hfield fun field _ ↦ .ok rfl
  exact halike.map_eq fun _ _ hfield ↦ hfield

/-- Absent asymmetric terms mean no correction. If arrays without the flag and without both terms
are accepted, they are accepted with any flag, and for all parameters the outcome is the same: the
same failure, or the same field with the same mesh. If one term is absent, the outcome is that of
the arrays with zeros in its place. -/
theorem ofNamed_absentTerms [NeutralZero α] (arrays : Dataset α) :
    (∀ input warnings, SpectralInput.ofNamed arrays = .ok (input, warnings) →
      (∀ name ∈ ["iasym", "rmns", "zmnc"], arrays.contains name = false) →
      ∀ flag : ShapedArray α, flag.size = 1 →
        (∃ r, SpectralInput.ofNamed (arrays.insert "iasym" flag) = .ok r) ∧
        ∀ p, (ofNamed (arrays.insert "iasym" flag) p).map Prod.fst =
          (ofNamed arrays p).map Prod.fst) ∧
    ∀ missing ∈ ["rmns", "zmnc"], arrays.contains missing = false →
      ∀ ns mn, (∀ t, arrays.table "rmnc" = .ok t → t.rows = ns) →
        (∀ xm, arrays.vector "xm" = .ok xm → xm.size = mn) →
        ∀ p, (ofNamed arrays p).map Prod.fst =
          (ofNamed (arrays.insert missing (.replicate [ns, mn] 0)) p).map Prod.fst := by
  refine ⟨fun input warnings h habsent flag hflag ↦ ?_,
    fun missing hmissing habsent ns mn hns hmn p ↦ ?_⟩
  · have halike := SpectralInput.alike_flagged habsent hflag
    refine ⟨?_, fun p ↦ ?_⟩
    · rw [h] at halike
      cases hflagged : SpectralInput.ofNamed (arrays.insert "iasym" flag) with
      | ok r => exact ⟨r, rfl⟩
      | error e =>
          rw [hflagged] at halike
          cases halike
    · refine (ofNamed_congr p (halike.imp fun a a' ha _ ⟨hnone, hsame⟩ ↦ ?_)).symm
      rcases hsame with hsame | hsame
      · rw [hsame]
      · have hconsistent := SpectralInput.consistent_of_ofNamed ha
        rw [hsame]
        exact (ofInput_congr (SurfaceMesh.synthesize_zeroTerms hconsistent hnone) p).symm
  · exact ofNamed_congr p ((SpectralInput.alike_supplied hmissing habsent hns hmn).imp
      fun a a' _ _ hsame ↦ by rw [hsame])

/-! ## The tilted equilibrium without its asymmetric terms -/

section Untilted

open SurfaceMesh (tiltedArrays tilted asymmetric?_tiltedArrays ofNamed_tiltedArrays)
open scoped Exact Elementary

/-- The arrays of the tilted equilibrium without the flag and both asymmetric terms. -/
def untiltedArrays : Dataset ℝ where
  entries := tiltedArrays.entries.take 8

/-- All other arrays are the same. -/
theorem get?_untiltedArrays {name : String} (h : name ∉ SpectralInput.asymmetricNames) :
    untiltedArrays.get? name = tiltedArrays.get? name := by
  have hnames : (tiltedArrays.entries.drop 8).map Prod.fst = SpectralInput.asymmetricNames := rfl
  have hlookup : (tiltedArrays.entries.drop 8).lookup name = none := by
    refine List.lookup_eq_none_iff.mpr fun entry hentry ↦ bne_iff_ne.mpr ?_
    rintro rfl
    exact h (hnames ▸ List.mem_map_of_mem hentry)
  have happend : tiltedArrays.get? name =
      ((tiltedArrays.entries.take 8).lookup name).or
        ((tiltedArrays.entries.drop 8).lookup name) := by
    rw [← List.lookup_append, List.take_append_drop]
    rfl
  rw [happend, hlookup, Option.or_none]
  rfl

/-- The arrays are accepted. -/
theorem exists_ofNamed_untiltedArrays : ∃ warnings,
    SpectralInput.ofNamed untiltedArrays = .ok ({ tilted with asymmetric := none }, warnings) := by
  have halike := SpectralInput.alike_ofNamed (fun _ ↦ get?_untiltedArrays)
    (r := fun _ _ x _ ↦ x = none) fun xm t hxm ht ↦ ?_
  · rw [ofNamed_tiltedArrays] at halike
    cases houtcome : SpectralInput.ofNamed untiltedArrays with
    | error e =>
        rw [houtcome] at halike
        cases halike
    | ok r =>
        obtain ⟨input, warnings⟩ := r
        rw [houtcome] at halike
        cases halike with
        | ok h =>
            have hnone : input.asymmetric = none := h.2
            have hsame := congrArg (fun i : SpectralInput ℝ ↦ { i with asymmetric := none }) h.1
            refine ⟨warnings, congrArg Except.ok (congrArg (·, warnings) ?_)⟩
            exact (show input = { input with asymmetric := none } by rw [← hnone]).trans hsame.symm
  · obtain rfl : #[1, 2] = xm := Except.ok.inj hxm
    obtain rfl : tilted.rCosine = t := Except.ok.inj ht
    rw [SpectralInput.asymmetric?_of_absent rfl, show SpectralInput.asymmetric? tiltedArrays
      tilted.rCosine.rows (#[1, 2] : Array ℝ).size = _ from asymmetric?_tiltedArrays]
    exact .ok rfl

/-- The arrays of the untilted equilibrium with the flag and one of the asymmetric terms. -/
def halfTiltedArrays : Dataset ℝ :=
  (untiltedArrays.insert "iasym" (.scalar 1)).insert "rmns" (.replicate [3, 2] 5)

/-- The untilted equilibrium is accepted with the flag too, with the same field. If one asymmetric
term is given with the flag, zeros stand for the other. -/
theorem untilted_absentTerms :
    (∃ r, SpectralInput.ofNamed (untiltedArrays.insert "iasym" (.scalar 1)) = .ok r) ∧
    (∀ p, (ofNamed (untiltedArrays.insert "iasym" (.scalar 1)) p).map Prod.fst =
      (ofNamed untiltedArrays p).map Prod.fst) ∧
    ∀ p, (ofNamed halfTiltedArrays p).map Prod.fst =
      (ofNamed (halfTiltedArrays.insert "zmnc" (.replicate [3, 2] 0)) p).map Prod.fst := by
  obtain ⟨warnings, hnamed⟩ := exists_ofNamed_untiltedArrays
  have habsent : ∀ name ∈ ["iasym", "rmns", "zmnc"], untiltedArrays.contains name = false := by
    decide
  obtain ⟨haccepted, hfield⟩ :=
    (ofNamed_absentTerms untiltedArrays).1 _ _ hnamed habsent (.scalar 1) rfl
  have hsupplied := (ofNamed_absentTerms halfTiltedArrays).2 "zmnc" (by simp) rfl 3 2
    (fun t ht ↦ ?_) fun xm hxm ↦ ?_
  · rw [Exact.literal_zero] at hsupplied
    exact ⟨haccepted, hfield, hsupplied⟩
  · obtain rfl : tilted.rCosine = t := Except.ok.inj ht
    rfl
  · obtain rfl : #[1, 2] = xm := Except.ok.inj hxm
    rfl

end Untilted

end RegriddedField

end PlasmaField
