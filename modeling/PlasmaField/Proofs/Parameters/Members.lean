import Mathlib
import PlasmaField.Proofs.Parameters.RoundTrip

/-!
# The members that a parameter document is read from

An object gives a parameter by the members with its name, and no other member has a part in it. Two
objects are therefore read alike if they have the same members under every parameter's name, in any
order, or if one of them has none there and the other has the default, `Json.readAlike_of_given`. A
name that occurs twice is refused.

For analytic fields this also concerns the member `kind`, which selects the names of the parameters.
The order of the members, members with other names, and defaults that are written out make no
difference to the field that is loaded or to the error, `AnalyticField.loadsAlike_of_members`.
-/

namespace PlasmaField

namespace Json

variable {α : Type}

/-! ## Members with a name -/

/-- The members with a given name, in their order. -/
def named (members : List (String × Json α)) (name : String) : List (String × Json α) :=
  members.filter (·.1 == name)

section Named

variable {members members' : List (String × Json α)} {name : String}

/-- A value is looked up in the first member with its name. -/
theorem lookup_eq_head?_named :
    members.lookup name = (named members name).head?.map Prod.snd := by
  induction members with
  | nil => rfl
  | cons m members ih =>
      by_cases hname : m.1 = name
      · subst hname
        rw [List.lookup_cons_self, named, List.filter_cons_of_pos (by simp)]
        rfl
      · have hlookup : (name == m.1) = false := beq_eq_false_iff_ne.mpr (Ne.symm hname)
        rw [List.lookup_cons, hlookup, ih, named, named, List.filter_cons_of_neg (by simpa)]

/-- Leaving out members with other names does not change which members have a name. -/
theorem named_filter {keep : String × Json α → Bool} (h : ∀ m, m.1 = name → keep m = true) :
    named (members.filter keep) name = named members name := by
  unfold named
  rw [List.filter_filter]
  refine List.filter_congr fun m _ ↦ ?_
  by_cases hname : m.1 = name
  · simp [h m hname]
  · simp [hname]

/-- The order of the members only matters to the order of those with a name. -/
theorem named_perm (h : members.Perm members') : (named members name).Perm (named members' name) :=
  h.filter _

/-- There is no member with a name that no member has. -/
theorem named_eq_nil (h : ∀ m ∈ members, m.1 ≠ name) : named members name = [] :=
  List.filter_eq_nil_iff.mpr fun m hm ↦ by simpa using h m hm

end Named

/-! ## Records -/

section Record

variable {names : List String} {members : List (String × Json α)}

/-- An object is refused if one of the names occurs twice, and otherwise has the members with these
names. -/
theorem record?_object : record? names (.object members) =
    if ∀ name ∈ names, (named members name).length ≤ 1 then
      some (members.filter fun m ↦ names.contains m.1) else none := by
  have hknown : ∀ name ∈ names, (members.filter fun m ↦ names.contains m.1).filter (·.1 == name) =
      named members name := fun name hname ↦
    named_filter fun m hm ↦ by simpa [hm] using hname
  unfold record?
  simp only [List.all_eq_true, decide_eq_true_eq]
  refine if_congr (forall₂_congr fun name hname ↦ ?_) rfl rfl
  rw [hknown name hname]

/-- A parameter has the value of the first member with its name, and its default if there is
none. -/
theorem parameter?_known {β : Type} {name : String} (hname : name ∈ names)
    (read : Json α → Option β) (default : β) :
    parameter? (members.filter fun m ↦ names.contains m.1) name read default =
      (named members name).head?.elim (some default) fun m ↦ read m.2 := by
  unfold parameter?
  rw [lookup_eq_head?_named, named_filter fun m hm ↦ by simpa [hm] using hname]
  cases (named members name).head? with
  | none => rfl
  | some m => rfl

/-- A repeated name is refused. -/
theorem record?_eq_none {name : String} (hname : name ∈ names)
    (h : 2 ≤ (named members name).length) : record? names (.object members) = none := by
  refine record?_object.trans (if_neg fun honce ↦ ?_)
  have hlength := honce name hname
  omega

end Record

variable [Scalar α]

/-- What is read as a number is within bounds. -/
theorem withinBounds_of_toNumber? {v : Json α} {x : α} (h : toNumber? v = some x) :
    v.withinBounds = true := by
  cases v with
  | natural n => rfl
  | number y => rfl
  | null | bool | text | list | object | outOfBounds => cases h

/-- The members with a parameter's name give it alike: they are the same up to their order, or there
is none and a single one with the default. -/
inductive GivenAlike (default : α) : List (String × Json α) → List (String × Json α) → Prop
  | perm {l l' : List (String × Json α)} (h : l.Perm l') : GivenAlike default l l'
  | default {name : String} {v : Json α} (h : toNumber? v = some default) :
      GivenAlike default [] [(name, v)]

namespace GivenAlike

variable {default : α} {l l' : List (String × Json α)} (h : GivenAlike default l l')
include h

/-- A name occurs twice on both sides or on none. -/
theorem length_le_one_iff : l.length ≤ 1 ↔ l'.length ≤ 1 := by
  cases h with
  | perm h => rw [h.length_eq]
  | default h => simp

/-- The parameter that is read from members with its name is the same. -/
theorem elim_eq (hlength : l.length ≤ 1) :
    l.head?.elim (some default) (fun m ↦ toNumber? m.2) =
      l'.head?.elim (some default) fun m ↦ toNumber? m.2 := by
  cases h with
  | perm h =>
      match l, hlength with
      | [], _ => rw [List.nil_perm.mp h]
      | [m], _ => rw [List.singleton_perm.mp h]
  | default h => exact h.symm

end GivenAlike

/-- Two objects are read alike as parameters with the given defaults: both are refused, or every
parameter that they give is the same. -/
inductive ReadAlike (defaults : List (String × α)) (members members' : List (String × Json α)) :
    Prop
  | refused (h : record? (defaults.map Prod.fst) (.object members) = none)
      (h' : record? (defaults.map Prod.fst) (.object members') = none)
  | given {record record' : List (String × Json α)}
      (h : record? (defaults.map Prod.fst) (.object members) = some record)
      (h' : record? (defaults.map Prod.fst) (.object members') = some record')
      (hread : ∀ d ∈ defaults,
        parameter? record d.1 toNumber? d.2 = parameter? record' d.1 toNumber? d.2)

/-- Objects that give every parameter alike are read alike. -/
theorem readAlike_of_given {defaults : List (String × α)}
    {members members' : List (String × Json α)}
    (h : ∀ d ∈ defaults, GivenAlike d.2 (named members d.1) (named members' d.1)) :
    ReadAlike defaults members members' := by
  have honce : (∀ name ∈ defaults.map Prod.fst, (named members name).length ≤ 1) ↔
      ∀ name ∈ defaults.map Prod.fst, (named members' name).length ≤ 1 := by
    simp only [List.forall_mem_map]
    exact forall₂_congr fun d hd ↦ (h d hd).length_le_one_iff
  by_cases hlength : ∀ name ∈ defaults.map Prod.fst, (named members name).length ≤ 1
  · refine .given (record?_object.trans (if_pos hlength))
      (record?_object.trans (if_pos (honce.mp hlength))) fun d hd ↦ ?_
    have hname : d.1 ∈ defaults.map Prod.fst := List.mem_map_of_mem hd
    rw [parameter?_known hname, parameter?_known hname]
    exact (h d hd).elim_eq (hlength d.1 hname)
  · exact .refused (record?_object.trans (if_neg hlength))
      (record?_object.trans (if_neg (mt honce.mpr hlength)))

end Json

open Json (named named_filter named_perm named_eq_nil record? ReadAlike GivenAlike
  readAlike_of_given record?_eq_none toNumber? withinBounds_object_iff
  withinBounds_of_toNumber?)

/-! ## The parameter sets -/

namespace SlabParameters

variable {α : Type} [Scalar α] {document : Json α} {members members' : List (String × Json α)}

/-- The parameters with their names, in their order. -/
def values (p : SlabParameters α) : List (String × α) :=
  names.zip [p.bY, p.bZ, p.xCentre, p.bZPrime]

/-- A document that is refused gives no parameters. -/
theorem ofJson?_eq_none (h : record? names document = none) : ofJson? document = none := by
  unfold ofJson?
  rw [h]
  rfl

/-- Objects that are read alike give the same parameters. -/
theorem ofJson?_congr (h : ReadAlike (values default) members members') :
    ofJson? (.object members) = ofJson? (.object members') := by
  cases h with
  | refused h h' => exact (ofJson?_eq_none h).trans (ofJson?_eq_none h').symm
  | @given record record' h h' hread =>
      have hrecord : record? names (.object members) = some record := h
      have hrecord' : record? names (.object members') = some record' := h'
      simp only [values, names, List.zip_cons_cons, List.forall_mem_cons] at hread
      obtain ⟨hbY, hbZ, hxCentre, hbZPrime, -⟩ := hread
      unfold ofJson?
      simp only [hrecord, hrecord', hbY, hbZ, hxCentre, hbZPrime, Option.bind_eq_bind,
        Option.bind_some]

end SlabParameters

namespace CurvedSlabParameters

variable {α : Type} [Scalar α] {document : Json α} {members members' : List (String × Json α)}

/-- The parameters with their names, in their order. -/
def values (p : CurvedSlabParameters α) : List (String × α) :=
  names.zip [p.bY, p.bZ, p.xCentre, p.bZPrime, p.rMaj]

/-- A document that is refused gives no parameters. -/
theorem ofJson?_eq_none (h : record? names document = none) : ofJson? document = none := by
  unfold ofJson?
  rw [h]
  rfl

/-- Objects that are read alike give the same parameters. -/
theorem ofJson?_congr (h : ReadAlike (values default) members members') :
    ofJson? (.object members) = ofJson? (.object members') := by
  cases h with
  | refused h h' => exact (ofJson?_eq_none h).trans (ofJson?_eq_none h').symm
  | @given record record' h h' hread =>
      have hrecord : record? names (.object members) = some record := h
      have hrecord' : record? names (.object members') = some record' := h'
      simp only [values, names, List.zip_cons_cons, List.forall_mem_cons] at hread
      obtain ⟨hbY, hbZ, hxCentre, hbZPrime, hrMaj, -⟩ := hread
      unfold ofJson?
      simp only [hrecord, hrecord', hbY, hbZ, hxCentre, hbZPrime, hrMaj, Option.bind_eq_bind,
        Option.bind_some]

end CurvedSlabParameters

namespace StellaratorParameters

variable {α : Type} {document : Json α} {members members' : List (String × Json α)}

/-- The parameters with their names, in their order. -/
def values (p : StellaratorParameters α) : List (String × α) :=
  names.zip [p.xCentre, p.zCentre, p.radius, p.yPeriod, p.iCoil, p.bTor]

variable [ElementaryScalar α]

/-- A document that is refused gives no parameters. -/
theorem ofJson?_eq_none (h : record? names document = none) : ofJson? document = none := by
  unfold ofJson?
  rw [h]
  rfl

/-- Objects that are read alike give the same parameters. -/
theorem ofJson?_congr (h : ReadAlike (values default) members members') :
    ofJson? (.object members) = ofJson? (.object members') := by
  cases h with
  | refused h h' => exact (ofJson?_eq_none h).trans (ofJson?_eq_none h').symm
  | @given record record' h h' hread =>
      have hrecord : record? names (.object members) = some record := h
      have hrecord' : record? names (.object members') = some record' := h'
      simp only [values, names, List.zip_cons_cons, List.forall_mem_cons] at hread
      obtain ⟨hxCentre, hzCentre, hradius, hyPeriod, hiCoil, hbTor, -⟩ := hread
      unfold ofJson?
      simp only [hrecord, hrecord', hxCentre, hzCentre, hradius, hyPeriod, hiCoil, hbTor,
        Option.bind_eq_bind, Option.bind_some]

end StellaratorParameters

/-! ## Analytic fields -/

namespace AnalyticField

variable {α : Type}

/-- The parameters with their names, in their order. -/
def values : AnalyticField α → List (String × α)
  | .uniform => []
  | .slab p => p.values
  | .curvedSlab p => p.values
  | .straightStellarator p => p.values
  | .rotatingEllipse p => p.values

/-- The member `kind` stands once and has the given name for its value. -/
def Selects (members : List (String × Json α)) (kind : String) : Prop :=
  named members "kind" = [("kind", .text kind)]

section Selects

variable {kind kind' : String} {members members' : List (String × Json α)}

/-- At most one kind is selected. -/
theorem Selects.unique (h : Selects members kind) (h' : Selects members kind') : kind = kind' := by
  simpa using h.symm.trans h'

/-- The kind that is selected does not depend on the order of the members. -/
theorem selects_congr (h : (named members "kind").Perm (named members' "kind")) :
    Selects members kind ↔ Selects members' kind := by
  unfold Selects
  constructor
  · intro hkind
    exact (List.singleton_perm.mp (hkind ▸ h)).symm
  · intro hkind
    exact List.perm_singleton.mp (hkind ▸ h)

end Selects

variable [ElementaryScalar α]

/-- The field of the given kind with the parameters that hold where none are given. -/
def default? : String → Option (AnalyticField α)
  | "uniform" => some .uniform
  | "slab" => some (.slab .default)
  | "curved_slab" => some (.curvedSlab .default)
  | "straight_stellarator" => some (.straightStellarator .default)
  | "rotating_ellipse" => some (.rotatingEllipse .default)
  | _ => none

/-- The parameters of a kind with their defaults; none for a name that is no kind. -/
def defaultsOf (α : Type) [ElementaryScalar α] (kind : String) : List (String × α) :=
  (default? kind).elim [] values

section Kind

variable {kind : String} {members members' : List (String × Json α)}

/-- A kind has the parameters of one of the sets, or none. -/
theorem map_fst_defaultsOf (kind : String) : (defaultsOf α kind).map Prod.fst ∈
    [[], SlabParameters.names, CurvedSlabParameters.names, StellaratorParameters.names] := by
  unfold defaultsOf default?
  split <;> simp [values, SlabParameters.values, SlabParameters.names, CurvedSlabParameters.values,
    CurvedSlabParameters.names, StellaratorParameters.values, StellaratorParameters.names]

/-- No parameter has the name of the member for the kind. -/
theorem ne_kind_of_mem_defaultsOf {d : String × α} (h : d ∈ defaultsOf α kind) :
    d.1 ≠ "kind" := by
  have hnames : ∀ names ∈ [[], SlabParameters.names, CurvedSlabParameters.names,
      StellaratorParameters.names], ∀ name ∈ names, name ≠ "kind" := by
    decide
  exact hnames _ (map_fst_defaultsOf kind) _ (List.mem_map_of_mem h)

/-- The parameters of a kind are told apart by their names. -/
theorem eq_of_mem_defaultsOf {d d' : String × α} (h : d ∈ defaultsOf α kind)
    (h' : d' ∈ defaultsOf α kind) (hname : d.1 = d'.1) : d = d' := by
  have hnames : ∀ names ∈ [[], SlabParameters.names, CurvedSlabParameters.names,
      StellaratorParameters.names], names.Nodup := by
    decide
  exact List.inj_on_of_nodup_map (hnames _ (map_fst_defaultsOf kind)) h h' hname

/-- Objects that are read alike with the defaults of a kind give the same field of the kind. -/
theorem ofKind?_congr (h : ReadAlike (defaultsOf α kind) members members') :
    ofKind? kind (.object members) = ofKind? kind (.object members') := by
  unfold ofKind?
  split
  · rfl
  · exact congrArg (Option.map slab) (SlabParameters.ofJson?_congr h)
  · exact congrArg (Option.map curvedSlab) (CurvedSlabParameters.ofJson?_congr h)
  · exact congrArg (Option.map straightStellarator) (StellaratorParameters.ofJson?_congr h)
  · exact congrArg (Option.map rotatingEllipse) (StellaratorParameters.ofJson?_congr h)
  · rfl

/-- An object that repeats a parameter's name gives no field of the kind. -/
theorem ofKind?_eq_none {d : String × α} (hd : d ∈ defaultsOf α kind)
    (h : 2 ≤ (named members d.1).length) :
    (ofKind? kind (.object members) : Option (AnalyticField α)) = none := by
  have hrefused : record? ((defaultsOf α kind).map Prod.fst) (.object members) =
      none := record?_eq_none (List.mem_map_of_mem hd) h
  unfold defaultsOf default? at hd hrefused
  unfold ofKind?
  split at hd
  · cases hd
  · exact congrArg (Option.map slab) (SlabParameters.ofJson?_eq_none hrefused)
  · exact congrArg (Option.map curvedSlab) (CurvedSlabParameters.ofJson?_eq_none hrefused)
  · exact congrArg (Option.map straightStellarator)
      (StellaratorParameters.ofJson?_eq_none hrefused)
  · exact congrArg (Option.map rotatingEllipse) (StellaratorParameters.ofJson?_eq_none hrefused)
  · cases hd

/-- Where a kind is selected, the other members give its parameters. -/
theorem ofJson?_of_selects (h : Selects members kind) :
    ofJson? (.object members) =
      ofKind? (α := α) kind (.object (members.filter (·.1 != "kind"))) := by
  have hkind : members.filter (·.1 == "kind") = [("kind", .text kind)] := h
  unfold ofJson?
  simp only [hkind]

/-- Where no kind is selected, there is no field. -/
theorem ofJson?_of_not_selects (h : ∀ kind, ¬ Selects members kind) :
    (ofJson? (.object members) : Option (AnalyticField α)) = none := by
  unfold ofJson?
  dsimp only
  split
  next name kind hkind =>
    have hmem : (name, Json.text kind) ∈ members.filter (·.1 == "kind") := by simp [hkind]
    obtain rfl : name = "kind" := by simpa using (List.mem_filter.mp hmem).2
    exact absurd hkind (h kind)
  next => rfl

/-- Objects that select one kind and give its parameters alike are read as the same field. -/
theorem ofJson?_congr (hkind : (named members "kind").Perm (named members' "kind"))
    (h : ∀ kind, Selects members kind → ∀ d ∈ defaultsOf α kind,
      GivenAlike d.2 (named members d.1) (named members' d.1)) :
    ofJson? (.object members) = ofJson? (.object members') := by
  by_cases hselects : ∃ kind, Selects members kind
  · obtain ⟨kind, hselects⟩ := hselects
    rw [ofJson?_of_selects hselects, ofJson?_of_selects ((selects_congr hkind).mp hselects)]
    refine ofKind?_congr (readAlike_of_given fun d hd ↦ ?_)
    have hne := ne_kind_of_mem_defaultsOf hd
    rw [named_filter fun m hm ↦ by simpa [hm] using hne,
      named_filter fun m hm ↦ by simpa [hm] using hne]
    exact h kind hselects d hd
  · have hnone : ∀ kind, ¬ Selects members kind := not_exists.mp hselects
    rw [ofJson?_of_not_selects hnone,
      ofJson?_of_not_selects fun kind ↦ mt (selects_congr hkind).mpr (hnone kind)]

/-- The member `kind` or a parameter of the kind that is selected occurs twice. -/
def Repeats (members : List (String × Json α)) : Prop :=
  2 ≤ (named members "kind").length ∨ ∃ kind, Selects members kind ∧
    ∃ d ∈ defaultsOf α kind, 2 ≤ (named members d.1).length

/-- An object with a repetition is read as no field. -/
theorem ofJson?_eq_none (h : Repeats members) :
    (ofJson? (.object members) : Option (AnalyticField α)) = none := by
  rcases h with hkind | ⟨kind, hselects, d, hd, hlength⟩
  · refine ofJson?_of_not_selects fun kind hselects ↦ ?_
    rw [hselects] at hkind
    simp at hkind
  · rw [ofJson?_of_selects hselects]
    refine ofKind?_eq_none hd ?_
    have hne := ne_kind_of_mem_defaultsOf hd
    rwa [named_filter fun m hm ↦ by simpa [hm] using hne]

/-- A name has no part in the field: it is neither `kind` nor the name of a parameter of the kind
that is selected. -/
def Ignored (members : List (String × Json α)) (name : String) : Prop :=
  name ≠ "kind" ∧
    ∀ kind, Selects members kind → ∀ d ∈ defaultsOf α kind, d.1 ≠ name

/-- Members with other names are ignored, wherever they stand. -/
theorem ofJson?_of_ignored {extra : List (String × Json α)} (h : ∀ m ∈ extra, Ignored members m.1)
    (hperm : members'.Perm (extra ++ members)) :
    ofJson? (.object members) = ofJson? (.object members') := by
  have hnamed : ∀ name, (∀ m ∈ extra, m.1 ≠ name) →
      (named members name).Perm (named members' name) := by
    intro name hname
    have happend : named (extra ++ members) name = named members name := by
      rw [named, List.filter_append, ← named, named_eq_nil hname, List.nil_append, named]
    exact happend ▸ (named_perm hperm).symm
  refine ofJson?_congr (hnamed "kind" fun m hm ↦ (h m hm).1) fun kind hselects d hd ↦ ?_
  exact .perm (hnamed d.1 fun m hm ↦ ((h m hm).2 kind hselects d hd).symm)

/-- A missing parameter may be given its default, wherever it stands. -/
theorem ofJson?_of_default {d : String × α} {v : Json α} (hselects : Selects members kind)
    (hd : d ∈ defaultsOf α kind) (hmissing : named members d.1 = [])
    (hv : toNumber? v = some d.2) (hperm : members'.Perm ((d.1, v) :: members)) :
    ofJson? (.object members) = ofJson? (.object members') := by
  have hother : ∀ name, d.1 ≠ name → (named members name).Perm (named members' name) := by
    intro name hname
    have hcons : named ((d.1, v) :: members) name = named members name :=
      List.filter_cons_of_neg (by simpa using hname)
    exact hcons ▸ (named_perm hperm).symm
  refine ofJson?_congr (hother "kind" (ne_kind_of_mem_defaultsOf hd)) fun kind' hkind' d' hd' ↦ ?_
  by_cases hname : d.1 = d'.1
  · obtain rfl := hselects.unique hkind'
    obtain rfl := eq_of_mem_defaultsOf hd hd' hname
    have hcons : named ((d.1, v) :: members) d.1 = [(d.1, v)] := by
      rw [named, List.filter_cons_of_pos (by simp), ← named, hmissing]
    have hgiven : named members' d.1 = [(d.1, v)] :=
      List.perm_singleton.mp (hcons ▸ named_perm hperm)
    rw [hmissing, hgiven]
    exact .default hv
  · exact .perm (hother d'.1 hname)

end Kind

/-! ## The outcome of loading -/

section Load

variable {members members' : List (String × Json Float)}

/-- Two objects are loaded alike: they give the same field, or the same error, and so do every text
of the one and every text of the other. -/
structure LoadsAlike (members members' : List (String × Json Float)) : Prop where
  load_eq : load (.object members) = load (.object members')
  loadText_eq : ∀ text text', Json.ofText? text = some (.object members) →
    Json.ofText? text' = some (.object members') → loadText text = loadText text'

/-- Objects that are read as the same field are loaded alike. -/
theorem load_congr (h : ofJson? (.object members) = (ofJson? (.object members') :
    Option (AnalyticField Float))) : load (.object members) = load (.object members') := by
  unfold load
  rw [h]

/-- What a text gives is what its document gives if that is within bounds. -/
theorem loadText_of_ofText? {text : String} {document : Json Float}
    (h : Json.ofText? text = some document) : loadText text =
      if document.withinBounds = true then load document else .error .malformedDocument := by
  unfold loadText
  rw [h, Option.filter_some]
  by_cases hbounds : document.withinBounds = true
  · rw [if_pos hbounds, if_pos hbounds]
  · rw [if_neg hbounds, if_neg hbounds]

/-- Objects that are read as the same field, and are both within bounds or both not, are loaded
alike. -/
theorem loadsAlike_of_ofJson? (h : ofJson? (.object members) = (ofJson? (.object members') :
    Option (AnalyticField Float)))
    (hbounds : (Json.object members).withinBounds = (Json.object members').withinBounds) :
    LoadsAlike members members' where
  load_eq := load_congr h
  loadText_eq text text' htext htext' := by
    rw [loadText_of_ofText? htext, loadText_of_ofText? htext', hbounds, load_congr h]

/-- Members that are put in front, within bounds, and reordered leave an object as far within bounds
as it was. -/
theorem withinBounds_eq_of_perm {extra : List (String × Json Float)}
    (h : ∀ m ∈ extra, m.2.withinBounds = true) (hperm : members'.Perm (extra ++ members)) :
    (Json.object members).withinBounds = (Json.object members').withinBounds := by
  rw [Bool.eq_iff_iff, withinBounds_object_iff, withinBounds_object_iff]
  simp only [hperm.mem_iff, List.mem_append, or_imp, forall_and]
  exact ⟨fun hmembers ↦ ⟨h, hmembers⟩, fun hall ↦ hall.2⟩

/-- An analytic field is loaded from an object whatever the order of its members, also when members
with other names are added, or a missing parameter with its default. An object in which `kind` or a
parameter occurs twice is an error. -/
theorem loadsAlike_of_members :
    (∀ members members' : List (String × Json Float), members.Perm members' →
      LoadsAlike members members') ∧
    (∀ members members' extra : List (String × Json Float), (∀ m ∈ extra, Ignored members m.1) →
      members'.Perm (extra ++ members) → load (.object members) = load (.object members') ∧
        ((∀ m ∈ extra, m.2.withinBounds = true) → LoadsAlike members members')) ∧
    (∀ (members members' : List (String × Json Float)) (kind : String) (d : String × Float)
      (v : Json Float), Selects members kind → d ∈ defaultsOf Float kind →
      (∀ m ∈ members, m.1 ≠ d.1) → toNumber? v = some d.2 →
      members'.Perm ((d.1, v) :: members) → LoadsAlike members members') ∧
    (∀ members : List (String × Json Float), Repeats members →
      load (.object members) = .error .malformedDocument ∧
        ∀ text, Json.ofText? text = some (.object members) →
          loadText text = .error .malformedDocument) := by
  refine ⟨?order, ?ignored, ?default, ?repeated⟩
  case order =>
    intro members members' hperm
    exact loadsAlike_of_ofJson? (ofJson?_of_ignored (List.forall_mem_nil _) hperm.symm)
      (withinBounds_eq_of_perm (List.forall_mem_nil _) hperm.symm)
  case ignored =>
    intro members members' extra hignored hperm
    have hread := ofJson?_of_ignored hignored hperm
    exact ⟨load_congr hread, fun hbounds ↦
      loadsAlike_of_ofJson? hread (withinBounds_eq_of_perm hbounds hperm)⟩
  case default =>
    intro members members' kind d v hselects hd hmissing hv hperm
    have hbounds : ∀ m ∈ [(d.1, v)], m.2.withinBounds = true :=
      List.forall_mem_singleton.mpr (withinBounds_of_toNumber? hv)
    exact loadsAlike_of_ofJson? (ofJson?_of_default hselects hd (named_eq_nil hmissing) hv hperm)
      (withinBounds_eq_of_perm hbounds hperm)
  case repeated =>
    intro members hrepeats
    have hload : load (.object members) = .error .malformedDocument := by
      unfold load
      rw [ofJson?_eq_none hrepeats]
    refine ⟨hload, fun text htext ↦ ?_⟩
    rw [loadText_of_ofText? htext, hload, ite_self]

/-- The members for a rotating ellipse with a radius of two. -/
def ellipse : List (String × Json Float) :=
  [("kind", .text "rotating_ellipse"), ("radius", .natural 2)]

/-- Two notes and a parameter of slabs. -/
def notes : List (String × Json Float) :=
  [("note", .null), ("by", .text "east"), ("note", .bool true)]

/-- The ellipse is loaded alike with its members in the other order, with notes that stand in front,
and with the default of the toroidal field. With a second radius it is refused. -/
theorem loadsAlike_of_members_ellipse :
    load (.object ellipse) =
        .ok (.rotatingEllipse { StellaratorParameters.default with radius := 2 }) ∧
      loadText "\x7b\"radius\":2,\"kind\":\"rotating_ellipse\"\x7d" =
        loadText "\x7b\"kind\":\"rotating_ellipse\",\"radius\":2\x7d" ∧
      LoadsAlike ellipse (notes ++ ellipse) ∧ LoadsAlike ellipse (("btor", .natural 1) :: ellipse) ∧
      Repeats (("radius", .number 1) :: ellipse) ∧
      load (.object (("radius", .number 1) :: ellipse)) = .error .malformedDocument := by
  obtain ⟨horder, hignored, hdefault, hrepeated⟩ := loadsAlike_of_members
  have hselects : Selects ellipse "rotating_ellipse" := by simp [Selects, named, ellipse]
  have hdefaults : defaultsOf Float "rotating_ellipse" =
      StellaratorParameters.default.values := rfl
  have hreversed : LoadsAlike ellipse ellipse.reverse := horder _ _ (List.reverse_perm _).symm
  have hnotes : ∀ m ∈ notes, Ignored ellipse m.1 := by
    intro m hm
    have hnames : ∀ name ∈ notes.map Prod.fst,
        name ≠ "kind" ∧ name ∉ StellaratorParameters.names := by
      decide
    obtain ⟨hne, hnot⟩ := hnames m.1 (List.mem_map_of_mem hm)
    refine ⟨hne, fun kind hkind d hd hname ↦ hnot ?_⟩
    obtain rfl := hselects.unique hkind
    exact hname ▸ (List.of_mem_zip (hdefaults ▸ hd)).1
  have hnoted : LoadsAlike ellipse (notes ++ ellipse) :=
    (hignored _ _ notes hnotes (List.Perm.refl _)).2 (by simp [notes, Json.withinBounds])
  have hfield : toNumber? (.natural 1) =
      some (StellaratorParameters.default : StellaratorParameters Float).bTor := by
    decide +kernel
  have hcompleted : LoadsAlike ellipse (("btor", .natural 1) :: ellipse) := by
    refine hdefault _ _ _ ("btor", _) _ hselects ?_ (by simp [ellipse]) hfield (List.Perm.refl _)
    simp [hdefaults, StellaratorParameters.values, StellaratorParameters.names]
  have hrepeats : Repeats (("radius", .number 1) :: ellipse) := by
    refine .inr ⟨_, hselects, ("radius", StellaratorParameters.default.radius), ?_, ?_⟩
    · simp [hdefaults, StellaratorParameters.values, StellaratorParameters.names]
    · simp [named, ellipse]
  exact ⟨rfl, (hreversed.loadText_eq _ _ rfl rfl).symm, hnoted, hcompleted, hrepeats,
    (hrepeated _ hrepeats).1⟩

end Load

end AnalyticField

end PlasmaField
