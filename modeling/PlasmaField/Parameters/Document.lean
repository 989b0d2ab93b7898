import PlasmaField.Json.Reader
import PlasmaField.Parameters

/-!
# Parameters as JSON documents

A parameter set is written as an object with one member per parameter. It is read from an object, in
which parameters may be missing, unknown members are ignored and no parameter may occur twice, or
from a list that gives the first parameters in their order. What is missing has its default. An
analytic field has the additional member `kind`, which may stand anywhere; in a list it comes first.

An ignored member of a parameter set may be out of bounds, but no part of the text of an analytic
field may.
-/

namespace PlasmaField

namespace Json

variable {α β : Type}

/-- The parameters that a document gives, by name, out of those that a set has in their order. -/
def record? (names : List String) : Json α → Option (List (String × Json α))
  | .object members =>
    let known := members.filter fun m ↦ names.contains m.1
    if names.all fun name ↦ (known.filter (·.1 == name)).length ≤ 1 then some known else none
  | .list items => if items.length ≤ names.length then some (names.zip items) else none
  | _ => none

/-- The value of a parameter: its default where it is not given, and a failure where it has the
wrong form. -/
def parameter? (record : List (String × Json α)) (name : String) (read : Json α → Option β)
    (default : β) : Option β :=
  match record.lookup name with
  | some v => read v
  | none => some default

/-- A number of either form. -/
def toNumber? [Scalar α] : Json α → Option α
  | .natural n => some (Scalar.ofNat n.toNat)
  | .number x => some x
  | _ => none

/-- A count. -/
def toCount? : Json α → Option UInt64
  | .natural n => some n
  | _ => none

/-- A count or nothing. -/
def toOptionalCount? : Json α → Option (Option UInt64)
  | .null => some none
  | .natural n => some (some n)
  | _ => none

/-- A truth value. -/
def toBool? : Json α → Option Bool
  | .bool b => some b
  | _ => none

/-- A number as a document. One that is not finite has no written form, and `null` stands for
it. -/
def ofNumber [Scalar α] (x : α) : Json α :=
  if Scalar.isFinite x then .number x else .null

/-- A count or nothing, as a document. -/
def ofOptionalCount : Option UInt64 → Json α
  | some n => .natural n
  | none => .null

end Json

open Json (record? parameter? toNumber? toCount? toOptionalCount? toBool? ofNumber ofOptionalCount)

namespace SlabParameters

variable {α : Type}

/-- The parameters' names, in their order. -/
def names : List String := ["by", "bz", "xcentre", "bzprime"]

variable [Scalar α]

/-- The members that stand for the parameters. -/
def members (p : SlabParameters α) : List (String × Json α) :=
  names.zip [ofNumber p.bY, ofNumber p.bZ, ofNumber p.xCentre, ofNumber p.bZPrime]

/-- The parameters as a document. -/
def toJson (p : SlabParameters α) : Json α :=
  .object p.members

/-- Reads the parameters from a document. -/
def ofJson? (document : Json α) : Option (SlabParameters α) := do
  let record ← record? names document
  let base : SlabParameters α := default
  return {
    bY := ← parameter? record "by" toNumber? base.bY
    bZ := ← parameter? record "bz" toNumber? base.bZ
    xCentre := ← parameter? record "xcentre" toNumber? base.xCentre
    bZPrime := ← parameter? record "bzprime" toNumber? base.bZPrime }

end SlabParameters

namespace CurvedSlabParameters

variable {α : Type}

/-- The parameters' names, in their order. -/
def names : List String := ["by", "bz", "xcentre", "bzprime", "rmaj"]

variable [Scalar α]

/-- The members that stand for the parameters. -/
def members (p : CurvedSlabParameters α) : List (String × Json α) :=
  names.zip
    [ofNumber p.bY, ofNumber p.bZ, ofNumber p.xCentre, ofNumber p.bZPrime, ofNumber p.rMaj]

/-- The parameters as a document. -/
def toJson (p : CurvedSlabParameters α) : Json α :=
  .object p.members

/-- Reads the parameters from a document. -/
def ofJson? (document : Json α) : Option (CurvedSlabParameters α) := do
  let record ← record? names document
  let base : CurvedSlabParameters α := default
  return {
    bY := ← parameter? record "by" toNumber? base.bY
    bZ := ← parameter? record "bz" toNumber? base.bZ
    xCentre := ← parameter? record "xcentre" toNumber? base.xCentre
    bZPrime := ← parameter? record "bzprime" toNumber? base.bZPrime
    rMaj := ← parameter? record "rmaj" toNumber? base.rMaj }

end CurvedSlabParameters

namespace StellaratorParameters

variable {α : Type}

/-- The parameters' names, in their order. -/
def names : List String := ["xcentre", "zcentre", "radius", "yperiod", "i_coil", "btor"]

/-- The members that stand for the parameters. -/
def members [Scalar α] (p : StellaratorParameters α) : List (String × Json α) :=
  names.zip
    [ofNumber p.xCentre, ofNumber p.zCentre, ofNumber p.radius, ofNumber p.yPeriod,
      ofNumber p.iCoil, ofNumber p.bTor]

/-- The parameters as a document. -/
def toJson [Scalar α] (p : StellaratorParameters α) : Json α :=
  .object p.members

/-- Reads the parameters from a document. -/
def ofJson? [ElementaryScalar α] (document : Json α) : Option (StellaratorParameters α) := do
  let record ← record? names document
  let base : StellaratorParameters α := default
  return {
    xCentre := ← parameter? record "xcentre" toNumber? base.xCentre
    zCentre := ← parameter? record "zcentre" toNumber? base.zCentre
    radius := ← parameter? record "radius" toNumber? base.radius
    yPeriod := ← parameter? record "yperiod" toNumber? base.yPeriod
    iCoil := ← parameter? record "i_coil" toNumber? base.iCoil
    bTor := ← parameter? record "btor" toNumber? base.bTor }

end StellaratorParameters

namespace RegridParameters

variable {α : Type}

/-- The parameters' names, in their order. -/
def names : List String := ["ntheta", "nzeta", "nr", "nz", "retain_mesh"]

/-- The members that stand for the parameters. -/
def members (p : RegridParameters) : List (String × Json α) :=
  names.zip
    [ofOptionalCount p.nTheta, ofOptionalCount p.nZeta, .natural p.nr, .natural p.nz,
      .bool p.retainMesh]

/-- The parameters as a document. -/
def toJson (p : RegridParameters) : Json α :=
  .object p.members

/-- Reads the parameters from a document. -/
def ofJson? (document : Json α) : Option RegridParameters := do
  let record ← record? names document
  return {
    nTheta := ← parameter? record "ntheta" toOptionalCount? default.nTheta
    nZeta := ← parameter? record "nzeta" toOptionalCount? default.nZeta
    nr := ← parameter? record "nr" toCount? default.nr
    nz := ← parameter? record "nz" toCount? default.nz
    retainMesh := ← parameter? record "retain_mesh" toBool? default.retainMesh }

end RegridParameters

namespace DampingMode

/-- The name of a mode. -/
def name : DampingMode → String
  | .passThrough => "pass_through"
  | .damped => "damped"

/-- The mode with the given name. -/
def ofName? : String → Option DampingMode
  | "pass_through" => some .passThrough
  | "damped" => some .damped
  | _ => none

/-- Reads a mode: its name, or an object whose only member has that name and no value. -/
def ofJson? {α : Type} : Json α → Option DampingMode
  | .text name => ofName? name
  | .object [(name, .null)] => ofName? name
  | _ => none

end DampingMode

namespace DampingParameters

variable {α : Type}

/-- The parameters' names, in their order. -/
def names : List String := ["xboundary", "zboundary", "mode"]

/-- The members that stand for the parameters. -/
def members (p : DampingParameters) : List (String × Json α) :=
  names.zip [.natural p.xBoundary, .natural p.zBoundary, .text p.mode.name]

/-- The parameters as a document. -/
def toJson (p : DampingParameters) : Json α :=
  .object p.members

/-- Reads the parameters from a document. -/
def ofJson? (document : Json α) : Option DampingParameters := do
  let record ← record? names document
  return {
    xBoundary := ← parameter? record "xboundary" toCount? default.xBoundary
    zBoundary := ← parameter? record "zboundary" toCount? default.zBoundary
    mode := ← parameter? record "mode" DampingMode.ofJson? default.mode }

end DampingParameters

namespace AnalyticField

variable {α : Type}

/-- The name of the field's kind. -/
def kind : AnalyticField α → String
  | .uniform => "uniform"
  | .slab _ => "slab"
  | .curvedSlab _ => "curved_slab"
  | .straightStellarator _ => "straight_stellarator"
  | .rotatingEllipse _ => "rotating_ellipse"

/-- The members that stand for the field's parameters. -/
def members [Scalar α] : AnalyticField α → List (String × Json α)
  | .uniform => []
  | .slab p => p.members
  | .curvedSlab p => p.members
  | .straightStellarator p => p.members
  | .rotatingEllipse p => p.members

/-- The document of an analytic field: its kind, then its parameters. -/
def toJson [Scalar α] (field : AnalyticField α) : Json α :=
  .object (("kind", .text field.kind) :: field.members)

variable [ElementaryScalar α]

/-- Reads the parameters of a field of the given kind. A uniform field has none, so any member is
ignored, but a list must be empty. -/
def ofKind? (kind : String) (rest : Json α) : Option (AnalyticField α) :=
  match kind with
  | "uniform" =>
    match rest with
    | .object _ => some .uniform
    | .list [] => some .uniform
    | _ => none
  | "slab" => (SlabParameters.ofJson? rest).map .slab
  | "curved_slab" => (CurvedSlabParameters.ofJson? rest).map .curvedSlab
  | "straight_stellarator" =>
    (StellaratorParameters.ofJson? rest).map .straightStellarator
  | "rotating_ellipse" => (StellaratorParameters.ofJson? rest).map .rotatingEllipse
  | _ => none

/-- Reads an analytic field from a document. -/
def ofJson? : Json α → Option (AnalyticField α)
  | .object members =>
    match members.filter (·.1 == "kind") with
    | [(_, .text kind)] => ofKind? kind (.object (members.filter (·.1 != "kind")))
    | _ => none
  | .list (.text kind :: rest) => ofKind? kind (.list rest)
  | _ => none

/-- Reads an analytic field from a document and checks its parameters. -/
def load (document : Json α) : Except (FieldError α) (AnalyticField α) :=
  match ofJson? document with
  | some field => field.validate.map fun _ ↦ field
  | none => .error .malformedDocument

/-- Reads an analytic field from the text of a document and checks its parameters. The whole
document must be within bounds, the members that are ignored included. -/
def loadText (text : String) : Except (FieldError Float) (AnalyticField Float) :=
  match (Json.ofText? text).filter (·.withinBounds) with
  | some document => load document
  | none => .error .malformedDocument

/-- Reads an analytic field from the contents of a file, if the file could be read. -/
def loadFile (contents : Option String) : Except (FieldError Float) (AnalyticField Float) :=
  match contents with
  | some text => loadText text
  | none => .error .unreadableFile

end AnalyticField

end PlasmaField
