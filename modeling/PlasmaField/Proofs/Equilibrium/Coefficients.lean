import Mathlib
import PlasmaField.Equilibrium.Spectral
import PlasmaField.Proofs.Outcome
import PlasmaField.Proofs.Zero

/-!
# Consistent coefficients

Data that are taken from named arrays fit together: every table of coefficients has one row per
surface and one column per mode, and the mode numbers come in pairs, `consistent_of_ofNamed`. The
synthesis relies on nothing else. `wellFormed_of_ofNamed` says in full what the checks establish and
where the data come from.
-/

namespace PlasmaField.SpectralInput

open Outcome (bind_eq_ok_iff guard_eq_ok_iff)

variable {α : Type}

/-- A table with the given numbers of rows and columns. -/
def HasShape (t : Table α) (rows cols : ℕ) : Prop :=
  t.rows = rows ∧ t.cols = cols

/-- The poloidal mode numbers of the field: its own ones, or else those of the surfaces. -/
def fieldXm (input : SpectralInput α) : Array α :=
  input.fieldModes.elim input.xm (·.1)

/-- The toroidal mode numbers of the field: its own ones, or else those of the surfaces. -/
def fieldXn (input : SpectralInput α) : Array α :=
  input.fieldModes.elim input.xn (·.2)

/-- Three or more surfaces, with one row of coefficients for each and one column for every mode. -/
structure Consistent (input : SpectralInput α) : Prop where
  three_le : 3 ≤ input.surfaces
  xn_size : input.xm.size = input.xn.size
  rCosine : HasShape input.rCosine input.surfaces input.xm.size
  zSine : HasShape input.zSine input.surfaces input.xm.size
  fieldXn_size : input.fieldXm.size = input.fieldXn.size
  poloidal : HasShape input.poloidal input.surfaces input.fieldXm.size
  toroidal : HasShape input.toroidal input.surfaces input.fieldXm.size
  asymmetric : ∀ terms ∈ input.asymmetric,
    HasShape terms.rSine input.surfaces input.xm.size ∧
      HasShape terms.zCosine input.surfaces input.xm.size

variable [Scalar α]

/-- A table that stands under a name, or is zero where nothing stands under the name. -/
def IsGivenOrZero (arrays : Dataset α) (name : String) (t : Table α) : Prop :=
  arrays.table name = .ok t ∨
    arrays.contains name = false ∧ t = Table.ofFn t.rows t.cols fun _ _ ↦ 0

/-- Asymmetric terms that were taken from named arrays: there are some if `iasym` is given and not
zero; those that are not given are zero. -/
structure AsymmetricGiven (arrays : Dataset α) (ns mn : ℕ)
    (asymmetric : Option (AsymmetricTerms α)) : Prop where
  isSome_iff : asymmetric.isSome = true ↔ ∃ v, arrays.scalar "iasym" = .ok v ∧ (v == 0) = false
  shape : ∀ terms ∈ asymmetric, HasShape terms.rSine ns mn ∧ HasShape terms.zCosine ns mn
  finite : ∀ terms ∈ asymmetric,
    terms.rSine.data.all Scalar.isFinite = true ∧ terms.zCosine.data.all Scalar.isFinite = true
  given : ∀ terms ∈ asymmetric,
    IsGivenOrZero arrays "rmns" terms.rSine ∧ IsGivenOrZero arrays "zmnc" terms.zCosine

/-- Consistent data with finite coefficients that were taken from named arrays. A number of surfaces
that is given is that of the tables: counts saturate at 64 bits, but no array is so long. -/
structure WellFormed (arrays : Dataset α) (input : SpectralInput α) : Prop
    extends input.Consistent where
  modes_given : arrays.vector "xm" = .ok input.xm ∧ arrays.vector "xn" = .ok input.xn
  fieldModes_given :
    Dataset.optional Dataset.vector arrays "xm_nyq" = .ok (input.fieldModes.map (·.1)) ∧
      Dataset.optional Dataset.vector arrays "xn_nyq" = .ok (input.fieldModes.map (·.2))
  rCosine_given : arrays.table "rmnc" = .ok input.rCosine
  zSine_given : arrays.table "zmns" = .ok input.zSine
  poloidal_given : arrays.table "bsupumnc" = .ok input.poloidal
  toroidal_given : arrays.table "bsupvmnc" = .ok input.toroidal
  finite : ∀ t ∈ [input.rCosine, input.zSine, input.poloidal, input.toroidal],
    t.data.all Scalar.isFinite = true
  asymmetric_given : AsymmetricGiven arrays input.surfaces input.xm.size input.asymmetric
  count_given : input.surfaces < 2 ^ 63 → ∀ v, arrays.scalar "ns" = .ok v →
    Scalar.natural? v = some input.surfaces

/-- Coefficients pass the check if they have the right shape and are finite. -/
theorem checkCoefficients_eq_ok_iff {name : String} {t : Table α} {ns mn : ℕ} :
    checkCoefficients name t ns mn = .ok () ↔
      HasShape t ns mn ∧ t.data.all Scalar.isFinite = true := by
  have hshape : ¬ (t.rows != ns || t.cols != mn) = true ↔ HasShape t ns mn := by
    simp [HasShape]
  unfold checkCoefficients
  rw [guard_eq_ok_iff, hshape]
  refine and_congr_right fun _ ↦ ?_
  cases t.data.all Scalar.isFinite <;>
    simp [throw, throwThe, MonadExceptOf.throw, pure, Except.pure]

/-- Coefficients are taken if there is a table that passes the check. -/
theorem coefficients_eq_ok_iff {arrays : Dataset α} {name : String} {ns mn : ℕ} {t : Table α} :
    coefficients arrays name ns mn = .ok t ↔
      arrays.table name = .ok t ∧ HasShape t ns mn ∧ t.data.all Scalar.isFinite = true := by
  constructor
  · intro h
    obtain ⟨t', htable, h⟩ := bind_eq_ok_iff.mp h
    obtain ⟨_, hcheck, h⟩ := bind_eq_ok_iff.mp h
    cases h
    exact ⟨htable, checkCoefficients_eq_ok_iff.mp hcheck⟩
  · rintro ⟨htable, hcheck⟩
    exact bind_eq_ok_iff.mpr
      ⟨t, htable, bind_eq_ok_iff.mpr ⟨(), checkCoefficients_eq_ok_iff.mpr hcheck, rfl⟩⟩

/-- Coefficients that are given are taken, without a warning, if they pass the check. -/
theorem coefficientsOrZero_of_some {arrays : Dataset α} {name : String} {ns mn : ℕ} {t : Table α}
    (h : Dataset.optional Dataset.table arrays name = .ok (some t)) (hshape : HasShape t ns mn)
    (hfinite : t.data.all Scalar.isFinite = true) :
    coefficientsOrZero arrays name ns mn = .ok (t, 0) :=
  bind_eq_ok_iff.mpr ⟨some t, h,
    bind_eq_ok_iff.mpr ⟨(), checkCoefficients_eq_ok_iff.mpr ⟨hshape, hfinite⟩, rfl⟩⟩

/-- Coefficients that are all zero are finite. -/
theorem all_isFinite_zero [OrdinaryZero α] (ns mn : ℕ) :
    (Table.ofFn ns mn fun _ _ ↦ (0 : α)).data.all Scalar.isFinite = true := by
  refine Array.all_eq_true'.mpr fun x hx ↦ ?_
  obtain ⟨_, rfl⟩ := Array.mem_ofFn.mp hx
  exact OrdinaryZero.isFinite

/-- Coefficients that are taken, or are zero where there are none, have the right shape and are
finite. -/
theorem checked_of_coefficientsOrZero [OrdinaryZero α] {arrays : Dataset α} {name : String}
    {ns mn : ℕ} {r : Table α × ℕ} (h : coefficientsOrZero arrays name ns mn = .ok r) :
    HasShape r.1 ns mn ∧ r.1.data.all Scalar.isFinite = true ∧
      IsGivenOrZero arrays name r.1 := by
  obtain ⟨given, hgiven, h⟩ := bind_eq_ok_iff.mp h
  cases given with
  | none =>
      cases h
      exact ⟨⟨rfl, rfl⟩, all_isFinite_zero ns mn,
        .inr ⟨Dataset.absent_of_optional hgiven, rfl⟩⟩
  | some t =>
      obtain ⟨_, hcheck, h⟩ := bind_eq_ok_iff.mp h
      cases h
      obtain ⟨hshape, hfinite⟩ := checkCoefficients_eq_ok_iff.mp hcheck
      exact ⟨hshape, hfinite, .inl (Dataset.eq_ok_of_optional hgiven)⟩

omit [Scalar α] in
/-- The mode numbers of the field are given in pairs, or not at all. -/
theorem given_of_fieldModes? {arrays : Dataset α} {modes : Option (Array α × Array α)}
    (h : fieldModes? arrays = .ok modes) :
    Dataset.optional Dataset.vector arrays "xm_nyq" = .ok (modes.map (·.1)) ∧
      Dataset.optional Dataset.vector arrays "xn_nyq" = .ok (modes.map (·.2)) ∧
      ∀ m ∈ modes, m.1.size = m.2.size := by
  obtain ⟨xm, hxm, h⟩ := bind_eq_ok_iff.mp h
  obtain ⟨xn, hxn, h⟩ := bind_eq_ok_iff.mp h
  rw [hxm, hxn]
  cases xm with
  | none =>
      cases xn with
      | none =>
          cases h
          exact ⟨rfl, rfl, fun _ hm ↦ nomatch hm⟩
      | some xn => cases h
  | some xm =>
      cases xn with
      | none => cases h
      | some xn =>
          dsimp only at h
          split at h
          next hsize =>
            cases h
            refine ⟨rfl, rfl, ?_⟩
            rintro _ ⟨⟩
            exact hsize
          next => cases h

/-- The asymmetric terms are taken from the arrays. -/
theorem asymmetricGiven_of_asymmetric? [OrdinaryZero α] {arrays : Dataset α} {ns mn : ℕ}
    {r : Option (AsymmetricTerms α) × ℕ} (h : asymmetric? arrays ns mn = .ok r) :
    AsymmetricGiven arrays ns mn r.1 := by
  obtain ⟨iasym, hiasym, h⟩ := bind_eq_ok_iff.mp h
  dsimp only at h
  split at h
  next hzero =>
    cases h
    refine ⟨⟨fun h ↦ absurd h Bool.false_ne_true, ?_⟩, by rintro _ ⟨⟩, by rintro _ ⟨⟩,
      by rintro _ ⟨⟩⟩
    rintro ⟨v, hv, hne⟩
    -- the number under the name is the one that was tested
    obtain rfl : some v = iasym := Except.ok.inj ((Dataset.optional_scalar hv).symm.trans hiasym)
    exact absurd (hne.symm.trans hzero) Bool.false_ne_true
  next hne =>
    obtain ⟨rSine, hr, h⟩ := bind_eq_ok_iff.mp h
    obtain ⟨zCosine, hz, h⟩ := bind_eq_ok_iff.mp h
    cases h
    obtain ⟨hrShape, hrFinite, hrGiven⟩ := checked_of_coefficientsOrZero hr
    obtain ⟨hzShape, hzFinite, hzGiven⟩ := checked_of_coefficientsOrZero hz
    refine ⟨iff_of_true rfl ?_, ?_, ?_, ?_⟩
    · cases iasym with
      | none => exact absurd OrdinaryZero.beq_self hne
      | some v => exact ⟨v, Dataset.eq_ok_of_optional hiasym, Bool.eq_false_iff.mpr hne⟩
    · rintro _ ⟨⟩
      exact ⟨hrShape, hzShape⟩
    · rintro _ ⟨⟩
      exact ⟨hrFinite, hzFinite⟩
    · rintro _ ⟨⟩
      exact ⟨hrGiven, hzGiven⟩

/-- A count is absent with its number, and is otherwise the number or the greatest word, whichever
is less. -/
theorem count?_eq_ok_iff {arrays : Dataset α} {name : String} {count : Option UInt64} :
    count? arrays name = .ok count ↔
      count = none ∧ arrays.contains name = false ∨
      ∃ n v k, count = some n ∧ arrays.scalar name = .ok v ∧ Scalar.natural? v = some k ∧
        n.toNat = min k (2 ^ 64 - 1) := by
  have hword (k : ℕ) : (UInt64.ofNat (min k (2 ^ 64 - 1))).toNat = min k (2 ^ 64 - 1) :=
    UInt64.toNat_ofNat_of_lt' (show min k (2 ^ 64 - 1) < 2 ^ 64 by omega)
  constructor
  · intro h
    obtain ⟨given, hgiven, h⟩ := bind_eq_ok_iff.mp h
    cases given with
    | none =>
        cases h
        exact .inl ⟨rfl, Dataset.absent_of_optional hgiven⟩
    | some v =>
        dsimp only at h
        split at h
        next k hk =>
          cases h
          exact .inr ⟨_, v, k, rfl, Dataset.eq_ok_of_optional hgiven, hk, hword k⟩
        next => cases h
  · rintro (⟨rfl, habsent⟩ | ⟨n, v, k, rfl, hv, hk, hn⟩)
    · exact bind_eq_ok_iff.mpr ⟨none, Dataset.optional_of_absent Dataset.scalar habsent, rfl⟩
    · refine bind_eq_ok_iff.mpr ⟨some v, Dataset.optional_scalar hv, ?_⟩
      obtain rfl : UInt64.ofNat (min k (2 ^ 64 - 1)) = n :=
        UInt64.toNat.inj ((hword k).trans hn.symm)
      dsimp only
      rw [hk]
      rfl

/-- A count that agrees with a number below the greatest word is that number. -/
theorem natural?_of_count? {arrays : Dataset α} {name : String} {count : Option UInt64} {v : α}
    {rows : ℕ} (h : count? arrays name = .ok count) (hv : arrays.scalar name = .ok v)
    (hrows : ∀ n ∈ count, n.toNat = rows) (hlong : rows < 2 ^ 63) :
    Scalar.natural? v = some rows := by
  obtain ⟨-, habsent⟩ | ⟨n, w, k, rfl, hw, hk, hn⟩ := count?_eq_ok_iff.mp h
  · exact absurd (Dataset.contains_of_scalar hv) (habsent ▸ Bool.false_ne_true)
  · obtain rfl : w = v := Except.ok.inj (hw.symm.trans hv)
    have hmin : n.toNat = rows := hrows n rfl
    rw [hk]
    exact congrArg some (by omega)

/-! ## What is read -/

/-- What every query for data from named arrays has given. -/
structure Reads (arrays : Dataset α) (input : SpectralInput α) (warnings : ℕ) : Prop where
  xm : arrays.vector "xm" = .ok input.xm
  xn : arrays.vector "xn" = .ok input.xn
  xn_size : input.xm.size = input.xn.size
  rCosine : arrays.table "rmnc" = .ok input.rCosine
  count : ∃ count, count? arrays "ns" = .ok count ∧ ∀ n ∈ count, n.toNat = input.surfaces
  three_le : 3 ≤ input.surfaces
  rCosine_checked :
    checkCoefficients "rmnc" input.rCosine input.surfaces input.xm.size = .ok ()
  zSine : coefficients arrays "zmns" input.surfaces input.xm.size = .ok input.zSine
  fieldModes : fieldModes? arrays = .ok input.fieldModes
  poloidal : coefficients arrays "bsupumnc" input.surfaces input.fieldXm.size = .ok input.poloidal
  toroidal : coefficients arrays "bsupvmnc" input.surfaces input.fieldXm.size = .ok input.toroidal
  asymmetric :
    asymmetric? arrays input.surfaces input.xm.size = .ok (input.asymmetric, warnings)
  mpol : count? arrays "mpol" = .ok input.mpol
  ntor : count? arrays "ntor" = .ok input.ntor

/-- Data are taken from named arrays by queries, and from nothing else. -/
theorem reads_of_ofNamed {arrays : Dataset α} {input : SpectralInput α} {warnings : ℕ}
    (h : ofNamed arrays = .ok (input, warnings)) : Reads arrays input warnings := by
  obtain ⟨xm, hxm, h⟩ := bind_eq_ok_iff.mp h
  obtain ⟨xn, hxn, h⟩ := bind_eq_ok_iff.mp h
  obtain ⟨hmodes, h⟩ := guard_eq_ok_iff.mp h
  obtain ⟨rCosine, hrCosine, h⟩ := bind_eq_ok_iff.mp h
  obtain ⟨count, hcount, h⟩ := bind_eq_ok_iff.mp h
  obtain ⟨hthree, h⟩ := guard_eq_ok_iff.mp h
  obtain ⟨_, hcheck, h⟩ := bind_eq_ok_iff.mp h
  obtain ⟨zSine, hz, h⟩ := bind_eq_ok_iff.mp h
  obtain ⟨modes, hfield, h⟩ := bind_eq_ok_iff.mp h
  obtain ⟨poloidal, hpoloidal, h⟩ := bind_eq_ok_iff.mp h
  obtain ⟨toroidal, htoroidal, h⟩ := bind_eq_ok_iff.mp h
  obtain ⟨asymmetric, hasymmetric, h⟩ := bind_eq_ok_iff.mp h
  obtain ⟨mpol, hmpol, h⟩ := bind_eq_ok_iff.mp h
  obtain ⟨ntor, hntor, h⟩ := bind_eq_ok_iff.mp h
  cases h
  -- the number of surfaces that was checked is the number of rows
  have hns := (checkCoefficients_eq_ok_iff.mp hcheck).1.1
  have hrows : ∀ n ∈ count, n.toNat = rCosine.rows := by
    rintro n ⟨⟩
    exact hns.symm
  generalize (count.map UInt64.toNat).getD rCosine.rows = ns at *
  subst hns
  have hfieldCount : modes.elim xm.size (·.1.size) = (modes.elim xm (·.1)).size := by
    cases modes <;> rfl
  rw [hfieldCount] at hpoloidal htoroidal
  exact ⟨hxm, hxn, by simpa using hmodes, hrCosine, ⟨count, hcount, hrows⟩, not_lt.mp hthree,
    hcheck, hz, hfield, hpoloidal, htoroidal, hasymmetric, hmpol, hntor⟩

/-- Data that are taken from named arrays fit together, and everything was checked. -/
theorem wellFormed_of_ofNamed [OrdinaryZero α] {arrays : Dataset α} {input : SpectralInput α}
    {warnings : ℕ} (h : ofNamed arrays = .ok (input, warnings)) : WellFormed arrays input := by
  have hreads := reads_of_ofNamed h
  obtain ⟨count, hcount, hrows⟩ := hreads.count
  obtain ⟨hr, hrFinite⟩ := checkCoefficients_eq_ok_iff.mp hreads.rCosine_checked
  obtain ⟨hzTable, hzShape, hzFinite⟩ := coefficients_eq_ok_iff.mp hreads.zSine
  obtain ⟨hpTable, hpShape, hpFinite⟩ := coefficients_eq_ok_iff.mp hreads.poloidal
  obtain ⟨htTable, htShape, htFinite⟩ := coefficients_eq_ok_iff.mp hreads.toroidal
  obtain ⟨hfieldXm, hfieldXn, hfieldSize⟩ := given_of_fieldModes? hreads.fieldModes
  have hterms := asymmetricGiven_of_asymmetric? hreads.asymmetric
  exact {
    three_le := hreads.three_le
    xn_size := hreads.xn_size
    rCosine := hr
    zSine := hzShape
    fieldXn_size := by
      unfold fieldXm fieldXn
      cases hmodes : input.fieldModes with
      | none => exact hreads.xn_size
      | some modes => exact hfieldSize modes hmodes
    poloidal := hpShape
    toroidal := htShape
    asymmetric := hterms.shape
    modes_given := ⟨hreads.xm, hreads.xn⟩
    fieldModes_given := ⟨hfieldXm, hfieldXn⟩
    rCosine_given := hreads.rCosine
    zSine_given := hzTable
    poloidal_given := hpTable
    toroidal_given := htTable
    finite := by
      intro t ht
      simp only [List.mem_cons, List.not_mem_nil, or_false] at ht
      rcases ht with rfl | rfl | rfl | rfl
      exacts [hrFinite, hzFinite, hpFinite, htFinite]
    asymmetric_given := hterms
    count_given := fun hlong v hv ↦ natural?_of_count? hcount hv hrows hlong }

/-- Data that are taken from named arrays fit together. -/
theorem consistent_of_ofNamed [OrdinaryZero α] {arrays : Dataset α} {input : SpectralInput α}
    {warnings : ℕ} (h : ofNamed arrays = .ok (input, warnings)) : input.Consistent :=
  (wellFormed_of_ofNamed h).toConsistent

end PlasmaField.SpectralInput
