import PlasmaField.Decimal.Shortest

/-!
# Failures

Every construction and query of the library fails with a `FieldError`, which says what was wrong
and carries the numbers that show it. The causes fall into four families: parameters that make no
sense, arrays that are absent, shapes that do not fit, and data that no physical field has.
`FieldError.message` words a failure for a reader.
-/

namespace PlasmaField

/-- The sets of parameters that must be finite. -/
inductive ParameterSet where
  | slab
  | curvedSlab
  | stellarator
  | lineCurrent
  deriving DecidableEq, Repr

/-- Parameters that describe no field, grid or wrapper. -/
inductive ConfigFault (α : Type) where
  | notFinite (parameters : ParameterSet)
  | majorRadius (rmaj : α)
  | coilRadius (radius : α)
  | zeroPeriod
  | coarseRegrid (nr nz : UInt64)
  | poloidalSamples
  | toroidalSamples
  | angularResolution (ntheta nzeta : UInt64)
  | gridExtentsNotFinite
  | gridExtentsNotPositive (rdim zdim : α)
  | notACount (name : String) (value : α)
  | overlappingBuffers (x z : UInt64) (nr nz : Nat)
  deriving DecidableEq, Repr

/-- The knot sequences that a spline is built on. -/
inductive KnotAxis where
  | single
  | first
  | second
  deriving DecidableEq, Repr

/-- Arrays whose lengths or shapes do not fit. -/
inductive ShapeFault where
  | smallGrid (nr nz : Nat)
  | notScalar (name : String) (shape : List Nat)
  | notRank (name : String) (rank : Nat) (shape : List Nat)
  | emptySystem
  | bandLengths (n lower diagonal upper : Nat)
  | fewKnots (axis : KnotAxis) (count : Nat)
  | splineValues (values knots : Nat)
  | bicubicValues (ny nx rows cols : Nat)
  | axisCount (count : Nat)
  | sampleRank (axes rank : Nat)
  | shortAxis (axis length : Nat)
  | axisLength (axis length samples : Nat)
  | coordinateCount (expected given : Nat)
  | coordinateArrays
  | fewScattered (count : Nat)
  | untriangulated (unique : Nat)
  | scatteredValues (values points : Nat)
  | modeArrays (xm xn : Nat)
  | emptyBasis
  | modeCount (columns modes : Nat)
  | polygonCoordinates (x z : Nat)
  | smallPolygon (vertices : Nat)
  | boundaryQuery (x z : List Nat)
  | coordinateShapes (x z phi : List Nat)
  | oddFlatLength (length : Nat)
  | notStacked (shape : List Nat)
  | splitTangents
  | profileLength (name : String) (length nr : Nat)
  | halfLimiter
  | modeNumbers (xm xn : Nat)
  | fewSurfaces (count : Nat)
  | coefficients (name : String) (ns mn : Nat) (shape : List Nat)
  | fieldModes
  | fewRadialPoints (count : Nat)
  deriving DecidableEq, Repr

/-- Data that belong to no physical field. -/
inductive PhysicsFault (α : Type) where
  | zeroPivot (row : Nat)
  | knotsNotFinite (axis : KnotAxis)
  | knotsNotIncreasing (axis : KnotAxis)
  | splineValuesNotFinite
  | bicubicValuesNotFinite
  | axisNotIncreasing (axis : Nat)
  | scatteredNotFinite
  | polygonNotFinite
  | equalFluxes (simag sibry : α)
  | coefficientsNotFinite (name : String)
  | flatMesh (r z : Option (α × α))
  deriving DecidableEq, Repr

/-- Why a construction or a query failed. A degenerate field names the number of points where the
toroidal component is too small, its smallest magnitude, if any point has one, and the threshold. -/
inductive FieldError (α : Type) where
  | config (fault : ConfigFault α)
  | missingArray (name : String)
  | shape (fault : ShapeFault)
  | degenerate (count : Nat) (smallest : Option α) (threshold : α)
  | physics (fault : PhysicsFault α)
  | unreadableFile
  | malformedDocument
  deriving DecidableEq, Repr

/-- The name of a parameter set. -/
def ParameterSet.name : ParameterSet → String
  | .slab => "slab"
  | .curvedSlab => "curved slab"
  | .stellarator => "stellarator"
  | .lineCurrent => "line current"

/-- The name of a knot sequence. -/
def KnotAxis.name : KnotAxis → String
  | .single => "1D"
  | .first => "bicubic x"
  | .second => "bicubic y"

open Binary64 (plainText scientificText)

/-- A shape as a bracketed list of lengths. -/
def shapeText (shape : List Nat) : String :=
  "[" ++ ", ".intercalate (shape.map toString) ++ "]"

/-- A range of values between brackets. A range that holds no value reaches from infinity down. -/
def rangeText : Option (Float × Float) → String
  | some (lower, upper) => s!"[{plainText lower}, {plainText upper}]"
  | none => "[inf, -inf]"

/-- What is wrong with the parameters. -/
def ConfigFault.message : ConfigFault Float → String
  | .notFinite parameters => s!"{parameters.name} parameters must be finite"
  | .majorRadius rmaj => s!"curved slab requires rmaj > 0, got {plainText rmaj}"
  | .coilRadius radius => s!"stellarator requires radius > 0, got {plainText radius}"
  | .zeroPeriod => "stellarator requires a non-zero yperiod"
  | .coarseRegrid nr nz => s!"VMEC regrid requires nr,nz >= 2, got nr={nr}, nz={nz}"
  | .poloidalSamples => "VMEC synthesis requires ntheta >= 2"
  | .toroidalSamples => "VMEC synthesis requires nzeta >= 1"
  | .angularResolution ntheta nzeta =>
    s!"VMEC synthesis needs ntheta >= 2 and nzeta >= 1, got {ntheta}, {nzeta}"
  | .gridExtentsNotFinite => "grid extents must be finite"
  | .gridExtentsNotPositive rdim zdim =>
    s!"grid extents must be positive, got rdim={plainText rdim}, zdim={plainText zdim}"
  | .notACount name value => s!"'{name}' must be a non-negative integer, got {plainText value}"
  | .overlappingBuffers x z nr nz =>
    s!"smoothing buffers ({x} x, {z} z cells) overlap on a {nr}x{nz} grid"

/-- Which shapes do not fit. -/
def ShapeFault.message : ShapeFault → String
  | .smallGrid nr nz => s!"grid requires nr,nz >= 2, got nr={nr}, nz={nz}"
  | .notScalar name shape => s!"'{name}' must be a scalar, got shape {shapeText shape}"
  | .notRank name rank shape => s!"'{name}' must be {rank}-D, got shape {shapeText shape}"
  | .emptySystem => "tridiagonal system size must be > 0"
  | .bandLengths n lower diagonal upper =>
    s!"tridiagonal bands must have length {n}, got a={lower}, b={diagonal}, c={upper}"
  | .fewKnots axis count => s!"{axis.name} spline requires at least 2 knots, got {count}"
  | .splineValues values knots =>
    s!"spline values length {values} does not match knots length {knots}"
  | .bicubicValues ny nx rows cols =>
    s!"bicubic values must be [{ny}, {nx}], got [{rows}, {cols}]"
  | .axisCount count => s!"regular grid supports 1 to 4 axes, got {count}"
  | .sampleRank axes rank => s!"regular grid has {axes} axes but values have {rank} dimensions"
  | .shortAxis axis length =>
    s!"regular grid axis {axis} needs at least 2 points, got {length}"
  | .axisLength axis length samples =>
    s!"regular grid axis {axis} has {length} points but values have {samples} along it"
  | .coordinateCount expected given => s!"expected {expected} coordinate arrays, got {given}"
  | .coordinateArrays => "coordinate arrays must share a shape"
  | .fewScattered count =>
    s!"scattered interpolation needs at least 3 distinct points, got {count}"
  | .untriangulated unique =>
    s!"scattered points are collinear or too few to triangulate ({unique} unique)"
  | .scatteredValues values points =>
    s!"scattered values length {values} does not match {points} input points"
  | .modeArrays xm xn => s!"mode arrays differ in length: xm={xm}, xn={xn}"
  | .emptyBasis => "spectral basis needs at least one mode and one grid point per angle"
  | .modeCount columns modes => s!"coefficient array has {columns} modes, basis has {modes}"
  | .polygonCoordinates x z => s!"polygon coordinate lengths differ: x={x}, z={z}"
  | .smallPolygon vertices => s!"polygon needs at least 3 vertices, got {vertices}"
  | .boundaryQuery x z =>
    s!"boundary query shapes differ: x={shapeText x}, z={shapeText z}"
  | .coordinateShapes x z phi =>
    s!"coordinate shapes differ: x={shapeText x}, z={shapeText z}, phi={shapeText phi}"
  | .oddFlatLength length => s!"flattened positions need an even length, got {length}"
  | .notStacked shape =>
    s!"stacked positions need a leading axis of length 2, got shape {shapeText shape}"
  | .splitTangents => "flat positions produced split output"
  | .profileLength name length nr =>
    s!"'{name}' has {length} samples, expected one per radial point ({nr})"
  | .halfLimiter => "limiter needs both 'rlim' and 'zlim'"
  | .modeNumbers xm xn => s!"'xm' and 'xn' differ in length: {xm} vs {xn}"
  | .fewSurfaces count => s!"VMEC input needs at least 3 flux surfaces, got {count}"
  | .coefficients name ns mn shape =>
    s!"'{name}' must be [ns={ns}, mn={mn}], got {shapeText shape}"
  | .fieldModes => "'xm_nyq' and 'xn_nyq' must be given together with equal lengths"
  | .fewRadialPoints count => s!"radial smoothing needs at least 3 surfaces, got {count}"

/-- What no physical field has. -/
def PhysicsFault.message : PhysicsFault Float → String
  | .zeroPivot row => s!"singular tridiagonal system: zero pivot at row {row}"
  | .knotsNotFinite axis => s!"{axis.name} spline knots must be finite"
  | .knotsNotIncreasing axis => s!"{axis.name} spline knots must be strictly increasing"
  | .splineValuesNotFinite => "spline values must be finite"
  | .bicubicValuesNotFinite => "bicubic values must be finite"
  | .axisNotIncreasing axis =>
    s!"regular grid axis {axis} must be finite and strictly increasing"
  | .scatteredNotFinite => "scattered points must be finite"
  | .polygonNotFinite => "polygon vertices must be finite"
  | .equalFluxes simag sibry =>
    s!"axis and boundary flux must differ, got simag={plainText simag}, sibry={plainText sibry}"
  | .coefficientsNotFinite name => s!"'{name}' contains non-finite coefficients"
  | .flatMesh r z => s!"VMEC mesh has no extent: R in {rangeText r}, Z in {rangeText z}"

/-- The wording of a failure. Failures of reading a file or a document have no wording of their own
beyond their kind. -/
def FieldError.message : FieldError Float → String
  | .config fault => "Configuration error: " ++ fault.message
  | .missingArray name => "Missing input array: " ++ name
  | .shape fault => "Shape mismatch: " ++ fault.message
  | .degenerate count smallest threshold =>
    let least := match smallest with
      | some b => scientificText b
      | none => "inf"
    s!"Degenerate toroidal field: {count} point(s) with |By| < {scientificText threshold} " ++
      s!"(min |By| = {least})"
  | .physics fault => "Physics constraint violated: " ++ fault.message
  | .unreadableFile => "IO error"
  | .malformedDocument => "JSON error"

end PlasmaField
