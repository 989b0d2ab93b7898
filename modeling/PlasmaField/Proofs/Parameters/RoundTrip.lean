import Mathlib
import PlasmaField.Proofs.Field.Construction

/-!
# Parameters read back from their documents

A document that a parameter set is written as has one member for each name of the set, in the set's
order. It is read by looking up each name, and gives the value that was written if no name occurs
twice, `Json.exists_record?`. Each set follows from this, since every member is read as the
parameter that it was written for. Numbers are read back if they are finite; one that is not finite
is written as `null`, which no number is read from. The document of an analytic field has a further
member, its kind, which is no parameter's name.

Fields whose parameters pass the check have finite parameters only, and are read back and accepted:
`AnalyticField.documents_readBack`.
-/

namespace PlasmaField

open Outcome (bind_eq_ok_iff)

namespace Json

variable {α : Type}

/-! ## Records -/

/-- A member is found under its name if no name occurs twice. -/
theorem lookup_of_mem {members : List (String × Json α)} (hnodup : (members.map Prod.fst).Nodup)
    {m : String × Json α} (h : m ∈ members) : members.lookup m.1 = some m.2 := by
  induction members with
  | nil => cases h
  | cons first rest ih =>
      obtain ⟨hfirst, hrest⟩ := List.nodup_cons.mp hnodup
      rcases List.mem_cons.mp h with rfl | h
      · exact List.lookup_cons_self
      · have hne : (m.1 == first.1) = false := by
          rw [beq_eq_false_iff_ne]
          rintro heq
          exact hfirst (heq ▸ List.mem_map_of_mem h)
        rw [List.lookup_cons, hne]
        exact ih hrest h

/-- What is read under a name is what the given value is read as. -/
def Gives (record : List (String × Json α)) (name : String) (v : Json α) : Prop :=
  ∀ {β : Type} (read : Json α → Option β) (default : β),
    parameter? record name read default = read v

/-- An object with one member for each name of a set gives every parameter the value that was
written under its name, if no name occurs twice. -/
theorem exists_record? {names : List String} (hnodup : names.Nodup) {values : List (Json α)}
    (hlength : values.length = names.length) :
    ∃ record, record? names (.object (names.zip values)) = some record ∧
      List.Forall₂ (Gives record) names values := by
  have hnames : (names.zip values).map Prod.fst = names := List.map_fst_zip hlength.ge
  have hknown : (names.zip values).filter (fun m ↦ names.contains m.1) = names.zip values :=
    List.filter_eq_self.mpr fun m hm ↦ List.contains_iff_mem.mpr (List.of_mem_zip hm).1
  have honce : ∀ name, ((names.zip values).filter (·.1 == name)).length ≤ 1 := by
    intro name
    have hcount := List.nodup_iff_count_le_one.mp (hnames.symm ▸ hnodup) name
    rw [List.count, List.countP_map] at hcount
    rwa [← List.countP_eq_length_filter]
  refine ⟨names.zip values, ?_, List.forall₂_iff_zip.mpr ⟨hlength.symm, ?_⟩⟩
  · unfold record?
    simp only [hknown]
    exact if_pos (List.all_eq_true.mpr fun name _ ↦ decide_eq_true (honce name))
  · intro name v hm β read default
    have hlookup : (names.zip values).lookup name = some v :=
      lookup_of_mem (hnames.symm ▸ hnodup) hm
    unfold parameter?
    rw [hlookup]

/-! ## Members -/

section Number

variable [Scalar α] {x : α}

/-- A finite number is read back. -/
theorem toNumber?_ofNumber (h : Scalar.isFinite x = true) : toNumber? (ofNumber x) = some x := by
  unfold ofNumber
  rw [if_pos h]
  rfl

/-- A written number is within bounds. -/
theorem withinBounds_ofNumber (x : α) : (ofNumber x).withinBounds = true := by
  unfold ofNumber
  split <;> rfl

end Number

/-- A count, or that there is none, is read back. -/
theorem toOptionalCount?_ofOptionalCount (n : Option UInt64) :
    toOptionalCount? (ofOptionalCount n : Json α) = some n := by
  cases n <;> rfl

/-- A count, or that there is none, is within bounds. -/
theorem withinBounds_ofOptionalCount (n : Option UInt64) :
    (ofOptionalCount n : Json α).withinBounds = true := by
  cases n <;> rfl

/-- An object is within bounds if all its members are. -/
theorem withinBounds_object_iff {members : List (String × Json α)} :
    (object members).withinBounds = true ↔ ∀ m ∈ members, m.2.withinBounds = true := by
  show membersWithinBounds members = true ↔ _
  induction members with
  | nil => simp [membersWithinBounds]
  | cons m members ih => simp [membersWithinBounds, ih]

/-- An object is within bounds if the values of its members are. -/
theorem withinBounds_zip {names : List String} {values : List (Json α)}
    (h : ∀ v ∈ values, v.withinBounds = true) :
    (object (names.zip values)).withinBounds = true :=
  withinBounds_object_iff.mpr fun m hm ↦ h m.2 (List.of_mem_zip hm).2

end Json

/-- A value is read back from the document that it is written as, no part of which is out of
bounds. -/
structure ReadsBack {α β : Type} (write : β → Json α) (read : Json α → Option β) (x : β) :
    Prop where
  withinBounds : (write x).withinBounds = true
  read_write : read (write x) = some x

open Json (Gives exists_record? toNumber?_ofNumber
  toOptionalCount?_ofOptionalCount withinBounds_ofNumber withinBounds_ofOptionalCount
  withinBounds_object_iff withinBounds_zip)

/-! ## The parameter sets -/

namespace SlabParameters

variable {α : Type} [Scalar α] {p : SlabParameters α}

/-- All parameters are finite. -/
def IsFinite (p : SlabParameters α) : Prop :=
  ∀ x ∈ [p.bY, p.bZ, p.xCentre, p.bZPrime], Scalar.isFinite x = true

/-- Finite parameters are read back. -/
theorem readsBack (h : p.IsFinite) : ReadsBack toJson ofJson? p where
  withinBounds := withinBounds_zip (by simp [withinBounds_ofNumber])
  read_write := by
    obtain ⟨record, hrecord, hread⟩ : ∃ record, Json.record? names p.toJson = some record ∧
        List.Forall₂ (Gives record) _ _ := exists_record? (by decide) rfl
    simp only [names, Gives, List.forall₂_cons, List.forall₂_nil_left_iff, and_true] at hread
    obtain ⟨hbY, hbZ, hxCentre, hbZPrime⟩ := hread
    simp only [IsFinite, List.forall_mem_cons] at h
    unfold ofJson?
    simp [hrecord, hbY, hbZ, hxCentre, hbZPrime, toNumber?_ofNumber, h]

/-- Parameters that pass the check are finite. -/
theorem isFinite_of_validate (h : p.validate = .ok ()) : p.IsFinite :=
  checkFinite_eq_ok_iff.mp h

end SlabParameters

namespace CurvedSlabParameters

variable {α : Type} [Scalar α] {p : CurvedSlabParameters α}

/-- All parameters are finite. -/
def IsFinite (p : CurvedSlabParameters α) : Prop :=
  ∀ x ∈ [p.bY, p.bZ, p.xCentre, p.bZPrime, p.rMaj], Scalar.isFinite x = true

/-- Finite parameters are read back. -/
theorem readsBack (h : p.IsFinite) : ReadsBack toJson ofJson? p where
  withinBounds := withinBounds_zip (by simp [withinBounds_ofNumber])
  read_write := by
    obtain ⟨record, hrecord, hread⟩ : ∃ record, Json.record? names p.toJson = some record ∧
        List.Forall₂ (Gives record) _ _ := exists_record? (by decide) rfl
    simp only [names, Gives, List.forall₂_cons, List.forall₂_nil_left_iff, and_true] at hread
    obtain ⟨hbY, hbZ, hxCentre, hbZPrime, hrMaj⟩ := hread
    simp only [IsFinite, List.forall_mem_cons] at h
    unfold ofJson?
    simp [hrecord, hbY, hbZ, hxCentre, hbZPrime, hrMaj, toNumber?_ofNumber, h]

/-- Parameters that pass the check are finite. -/
theorem isFinite_of_validate (h : p.validate = .ok ()) : p.IsFinite := by
  obtain ⟨_, hfinite, -⟩ := bind_eq_ok_iff.mp h
  exact checkFinite_eq_ok_iff.mp hfinite

end CurvedSlabParameters

namespace StellaratorParameters

variable {α : Type} [ElementaryScalar α] {p : StellaratorParameters α}

/-- All parameters are finite. -/
def IsFinite (p : StellaratorParameters α) : Prop :=
  ∀ x ∈ [p.xCentre, p.zCentre, p.radius, p.yPeriod, p.iCoil, p.bTor], Scalar.isFinite x = true

/-- Finite parameters are read back. -/
theorem readsBack (h : p.IsFinite) : ReadsBack toJson ofJson? p where
  withinBounds := withinBounds_zip (by simp [withinBounds_ofNumber])
  read_write := by
    obtain ⟨record, hrecord, hread⟩ : ∃ record, Json.record? names p.toJson = some record ∧
        List.Forall₂ (Gives record) _ _ := exists_record? (by decide) rfl
    simp only [names, Gives, List.forall₂_cons, List.forall₂_nil_left_iff, and_true] at hread
    obtain ⟨hxCentre, hzCentre, hradius, hyPeriod, hiCoil, hbTor⟩ := hread
    simp only [IsFinite, List.forall_mem_cons] at h
    unfold ofJson?
    simp [hrecord, hxCentre, hzCentre, hradius, hyPeriod, hiCoil, hbTor, toNumber?_ofNumber, h]

/-- Parameters that pass the check are finite. -/
theorem isFinite_of_validate (h : p.validate = .ok ()) : p.IsFinite := by
  obtain ⟨_, hfinite, -⟩ := bind_eq_ok_iff.mp h
  exact checkFinite_eq_ok_iff.mp hfinite

end StellaratorParameters

/-- Resolutions are read back, whether or not the numbers of angles are given. -/
theorem RegridParameters.readsBack {α : Type} (p : RegridParameters) :
    ReadsBack (α := α) toJson ofJson? p where
  withinBounds := withinBounds_zip (by simp [withinBounds_ofOptionalCount, Json.withinBounds])
  read_write := by
    obtain ⟨record, hrecord, hread⟩ : ∃ record, Json.record? names (p.toJson : Json α) =
        some record ∧ List.Forall₂ (Gives record) _ _ := exists_record? (by decide) rfl
    simp only [names, Gives, List.forall₂_cons, List.forall₂_nil_left_iff, and_true] at hread
    obtain ⟨hnTheta, hnZeta, hnr, hnz, hretainMesh⟩ := hread
    unfold ofJson?
    simp [hrecord, hnTheta, hnZeta, hnr, hnz, hretainMesh, toOptionalCount?_ofOptionalCount,
      Json.toCount?, Json.toBool?]

/-- A mode is read back from its name. -/
theorem DampingMode.ofName?_name (mode : DampingMode) : ofName? mode.name = some mode := by
  cases mode <;> rfl

/-- The widths of damped strips are read back, whatever they are. -/
theorem DampingParameters.readsBack {α : Type} (p : DampingParameters) :
    ReadsBack (α := α) toJson ofJson? p where
  withinBounds := withinBounds_zip (by simp [Json.withinBounds])
  read_write := by
    obtain ⟨record, hrecord, hread⟩ : ∃ record, Json.record? names (p.toJson : Json α) =
        some record ∧ List.Forall₂ (Gives record) _ _ := exists_record? (by decide) rfl
    simp only [names, Gives, List.forall₂_cons, List.forall₂_nil_left_iff, and_true] at hread
    obtain ⟨hxBoundary, hzBoundary, hmode⟩ := hread
    unfold ofJson?
    simp [hrecord, hxBoundary, hzBoundary, hmode, Json.toCount?, DampingMode.ofJson?,
      DampingMode.ofName?_name]

/-! ## Analytic fields -/

namespace AnalyticField

variable {α : Type} [ElementaryScalar α] {field : AnalyticField α}

/-- All parameters are finite. -/
def IsFinite : AnalyticField α → Prop
  | .uniform => True
  | .slab p => p.IsFinite
  | .curvedSlab p => p.IsFinite
  | .straightStellarator p => p.IsFinite
  | .rotatingEllipse p => p.IsFinite

/-- A field whose parameters pass the check has finite parameters. -/
theorem isFinite_of_validate (h : field.validate = .ok ()) : field.IsFinite := by
  cases field with
  | uniform => trivial
  | slab p => exact SlabParameters.isFinite_of_validate h
  | curvedSlab p => exact CurvedSlabParameters.isFinite_of_validate h
  | straightStellarator p => exact StellaratorParameters.isFinite_of_validate h
  | rotatingEllipse p => exact StellaratorParameters.isFinite_of_validate h

/-- The members for the parameters are within bounds, and the parameters are read back from them,
given the kind. -/
theorem ofKind?_members (h : field.IsFinite) :
    (Json.object field.members).withinBounds = true ∧
      ofKind? field.kind (.object field.members) = some field := by
  cases field with
  | uniform => exact ⟨rfl, rfl⟩
  | slab p =>
      obtain ⟨hbounds, hread⟩ := SlabParameters.readsBack h
      exact ⟨hbounds, congrArg (Option.map slab) hread⟩
  | curvedSlab p =>
      obtain ⟨hbounds, hread⟩ := CurvedSlabParameters.readsBack h
      exact ⟨hbounds, congrArg (Option.map curvedSlab) hread⟩
  | straightStellarator p =>
      obtain ⟨hbounds, hread⟩ := StellaratorParameters.readsBack h
      exact ⟨hbounds, congrArg (Option.map straightStellarator) hread⟩
  | rotatingEllipse p =>
      obtain ⟨hbounds, hread⟩ := StellaratorParameters.readsBack h
      exact ⟨hbounds, congrArg (Option.map rotatingEllipse) hread⟩

/-- No parameter has the name of the member for the kind. -/
theorem ne_kind_of_mem_members {m : String × Json α} (h : m ∈ field.members) :
    m.1 ≠ "kind" := by
  have hnames : ∀ names ∈ [SlabParameters.names, CurvedSlabParameters.names,
      StellaratorParameters.names], ∀ name ∈ names, name ≠ "kind" := by
    decide
  cases field with
  | uniform => cases h
  | slab p => exact hnames _ (by simp) _ (List.of_mem_zip h).1
  | curvedSlab p => exact hnames _ (by simp) _ (List.of_mem_zip h).1
  | straightStellarator p => exact hnames _ (by simp) _ (List.of_mem_zip h).1
  | rotatingEllipse p => exact hnames _ (by simp) _ (List.of_mem_zip h).1

/-- A field with finite parameters is read back. -/
theorem readsBack (h : field.IsFinite) : ReadsBack toJson ofJson? field where
  withinBounds := by
    have hmembers := withinBounds_object_iff.mp (ofKind?_members h).1
    exact withinBounds_object_iff.mpr (List.forall_mem_cons.mpr ⟨rfl, hmembers⟩)
  read_write := by
    have hkind : field.members.filter (·.1 == "kind") = [] :=
      List.filter_eq_nil_iff.mpr fun m hm ↦ by simpa using ne_kind_of_mem_members hm
    have hrest : field.members.filter (·.1 != "kind") = field.members :=
      List.filter_eq_self.mpr fun m hm ↦ by simpa using ne_kind_of_mem_members hm
    unfold toJson ofJson?
    simp [hkind, hrest, (ofKind?_members h).2]

/-- A field is read back and accepted, from its document and from every text of the document. -/
structure LoadsBack (field : AnalyticField Float) : Prop where
  readsBack : ReadsBack toJson ofJson? field
  load_eq : load field.toJson = .ok field
  loadText_eq : ∀ text, Json.ofText? text = some field.toJson → loadText text = .ok field

/-- A field whose parameters pass the check is read back and accepted. -/
theorem loadsBack_of_validate {field : AnalyticField Float} (h : field.validate = .ok ()) :
    field.LoadsBack := by
  have hread := readsBack (isFinite_of_validate h)
  have hload : load field.toJson = .ok field := by
    unfold load
    rw [hread.read_write]
    show field.validate.map _ = _
    rw [h]
    rfl
  refine ⟨hread, hload, fun text htext ↦ ?_⟩
  unfold loadText
  rw [htext, Option.filter_some, if_pos hread.withinBounds]
  exact hload

/-- Analytic fields whose parameters pass the check are read back from their documents and accepted.
Sets of finite parameters, resolutions and damped strips are read back from theirs. -/
theorem documents_readBack :
    (∀ field : AnalyticField Float, field.validate = .ok () → field.LoadsBack) ∧
    (∀ p : SlabParameters Float, p.IsFinite →
      ReadsBack SlabParameters.toJson SlabParameters.ofJson? p) ∧
    (∀ p : CurvedSlabParameters Float, p.IsFinite →
      ReadsBack CurvedSlabParameters.toJson CurvedSlabParameters.ofJson? p) ∧
    (∀ p : StellaratorParameters Float, p.IsFinite →
      ReadsBack StellaratorParameters.toJson StellaratorParameters.ofJson? p) ∧
    (∀ p : RegridParameters,
      ReadsBack (α := Float) RegridParameters.toJson RegridParameters.ofJson? p) ∧
    (∀ p : DampingParameters,
      ReadsBack (α := Float) DampingParameters.toJson DampingParameters.ofJson? p) :=
  ⟨fun _ h ↦ loadsBack_of_validate h, fun _ h ↦ SlabParameters.readsBack h,
    fun _ h ↦ CurvedSlabParameters.readsBack h, fun _ h ↦ StellaratorParameters.readsBack h,
    RegridParameters.readsBack, DampingParameters.readsBack⟩

/-- A uniform field is loaded from its text. A stellarator with the default parameters is read back,
and so are strips of the greatest width. -/
theorem documents_readBack_defaults :
    loadText "\x7b\"kind\":\"uniform\"\x7d" = .ok .uniform ∧
    LoadsBack (.rotatingEllipse StellaratorParameters.default) ∧
    ReadsBack (α := Float) SlabParameters.toJson SlabParameters.ofJson? SlabParameters.default ∧
    ReadsBack (α := Float) DampingParameters.toJson DampingParameters.ofJson?
      ⟨18446744073709551615, 0, .passThrough⟩ := by
  obtain ⟨hfields, hslabs, -, -, -, hstrips⟩ := documents_readBack
  have hvalid : (.rotatingEllipse StellaratorParameters.default : AnalyticField Float).validate =
      .ok () := by
    decide +kernel
  have hfinite : (SlabParameters.default : SlabParameters Float).IsFinite :=
    SlabParameters.isFinite_of_validate (by decide +kernel)
  have htext : Json.ofText? "\x7b\"kind\":\"uniform\"\x7d" =
      some (.uniform : AnalyticField Float).toJson := by
    cbv
  exact ⟨(hfields .uniform rfl).loadText_eq _ htext, hfields _ hvalid, hslabs _ hfinite,
    hstrips _⟩

end AnalyticField

end PlasmaField
